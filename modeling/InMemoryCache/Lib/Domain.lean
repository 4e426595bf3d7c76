-- SUMMARY: The keys of a table as a finite set, and what writing and erasing many keys does to it.
import InMemoryCache.Lib.Table
import Mathlib.Data.Finset.Basic
import Mathlib.Data.Finset.Card
import Mathlib.Data.Finset.Dedup

/-!
# Domains

Writing the entries of a list one after the other unites the domain of a table with their
keys, and erasing the keys of a list takes these out of it. A loop that counts the keys it
adds, or the keys it finds, counts a difference, or an intersection, of these sets.
-/

namespace Lib

variable {α : Type u} {β : Type v} [DecidableEq α]

/-! ## Counting along a list -/

/-- The first of the listed keys counts if it has the property, and no other time. -/
theorem card_filter_cons (p : α → Prop) [DecidablePred p] (k : α) (ks : List α) :
    ((k :: ks).toFinset.filter p).card =
      (ks.toFinset.filter fun a => p a ∧ a ≠ k).card + if p k then 1 else 0 := by
  have hrest : (ks.toFinset.filter fun a => p a ∧ a ≠ k) =
      ((k :: ks).toFinset.filter p).erase k := by
    ext a
    simp only [Finset.mem_filter, Finset.mem_insert, Finset.mem_erase, List.toFinset_cons]
    tauto
  rw [hrest]
  split
  · rename_i hk
    have hmem : k ∈ (k :: ks).toFinset.filter p :=
      Finset.mem_filter.mpr ⟨List.mem_toFinset.mpr List.mem_cons_self, hk⟩
    exact (Finset.card_erase_add_one hmem).symm
  · rename_i hk
    have hnot : k ∉ (k :: ks).toFinset.filter p := fun h => hk (Finset.mem_filter.mp h).2
    rw [Finset.erase_eq_of_notMem hnot, Nat.add_zero]

/-- The first of the listed keys adds to a set what the set lacks of it. -/
theorem card_cons_sdiff (k : α) (ks : List α) (s : Finset α) :
    ((k :: ks).toFinset \ s).card =
      (ks.toFinset \ insert k s).card + if k ∈ s then 0 else 1 := by
  rw [Finset.sdiff_eq_filter, card_filter_cons, Finset.sdiff_eq_filter, ite_not]
  simp only [Finset.mem_insert, not_or, and_comm]

/-- The first of the listed keys takes out of a set what the set has of it. -/
theorem card_cons_inter (k : α) (ks : List α) (s : Finset α) :
    ((k :: ks).toFinset ∩ s).card =
      (ks.toFinset ∩ s.erase k).card + if k ∈ s then 1 else 0 := by
  rw [← Finset.filter_mem_eq_inter, card_filter_cons, ← Finset.filter_mem_eq_inter]
  simp only [Finset.mem_erase, and_comm]

/-- One more key is one more in number unless it was listed. -/
theorem card_insert_toFinset {k : α} {ks : List α} (h : ks.Nodup) :
    (insert k ks.toFinset).card = ks.length + if k ∈ ks then 0 else 1 := by
  rw [Finset.card_insert_eq_ite, List.toFinset_card_of_nodup h]
  simp only [List.mem_toFinset]
  split <;> rfl

namespace Table

/-- The keys of a table. -/
def dom (t : Table α β) : Finset α := t.keys.toFinset

theorem mem_dom {t : Table α β} {k : α} : k ∈ t.dom ↔ ∃ v, t.get? k = some v := by
  rw [dom, List.mem_toFinset, mem_keys]

theorem mem_dom_iff_contains {t : Table α β} {k : α} : k ∈ t.dom ↔ t.contains k = true := by
  rw [mem_dom, contains, Option.isSome_iff_exists]

theorem get?_eq_none_iff {t : Table α β} {k : α} : t.get? k = none ↔ k ∉ t.dom := by
  rw [get?_eq_none, dom, List.mem_toFinset]

@[simp] theorem dom_empty : (∅ : Table α β).dom = ∅ := rfl

@[simp] theorem dom_insert (t : Table α β) (k : α) (v : β) :
    (t.insert k v).dom = Insert.insert k t.dom := by
  ext a
  rw [dom, List.mem_toFinset, mem_keys_insert, Finset.mem_insert, dom, List.mem_toFinset]

@[simp] theorem dom_erase (t : Table α β) (k : α) : (t.erase k).dom = t.dom.erase k := by
  ext a
  rw [dom, List.mem_toFinset, mem_keys_erase, Finset.mem_erase, dom, List.mem_toFinset]

theorem dom_overwrite_map (t : Table α β) (k : α) (f : β → β) :
    (t.overwrite k ((t.get? k).map f)).dom = t.dom := by
  ext a
  rw [mem_dom_iff_contains, mem_dom_iff_contains, contains, contains, get?_overwrite]
  split
  · rename_i ha
    rw [ha, Option.isSome_map]
  · rfl

/-- A table has as many entries as keys. -/
theorem card_dom (t : Table α β) : t.dom.card = t.size := by
  rw [dom, List.toFinset_card_of_nodup t.nodup_keys, keys, List.length_map, size]

/-! ## Writing many entries -/

theorem dom_insertAll (t : Table α β) (kvs : List (α × β)) :
    (t.insertAll kvs).dom = t.dom ∪ (kvs.map Prod.fst).toFinset := by
  induction kvs generalizing t with
  | nil => exact (Finset.union_empty _).symm
  | cons e kvs ih =>
    obtain ⟨k, v⟩ := e
    rw [insertAll, ih, dom_insert, List.map_cons, List.toFinset_cons, Finset.insert_union,
      Finset.union_insert]

theorem find_append (k : α) (l l' : List (α × β)) :
    find k (l ++ l') = (find k l).or (find k l') := by
  induction l with
  | nil => rfl
  | cons e l ih =>
    obtain ⟨k', v⟩ := e
    rw [List.cons_append, find, find, ih]
    split <;> rfl

/-- Under each key stands the last value written, or what stood there before. -/
theorem get?_insertAll (t : Table α β) (kvs : List (α × β)) (k : α) :
    (t.insertAll kvs).get? k = (find k kvs.reverse).or (t.get? k) := by
  induction kvs generalizing t with
  | nil => rfl
  | cons e kvs ih =>
    obtain ⟨k', v⟩ := e
    rw [insertAll, ih, List.reverse_cons, find_append, Option.or_assoc, get?_insert, find, find]
    by_cases hk : k = k'
    · rw [if_pos hk, if_pos hk.symm, Option.some_or]
    · rw [if_neg hk, if_neg (Ne.symm hk), Option.none_or]

/-! ## Erasing many keys -/

/-- Erase keys one after the other. -/
def eraseAll (t : Table α β) : List α → Table α β
  | [] => t
  | k :: ks => (t.erase k).eraseAll ks

@[simp] theorem eraseAll_empty (ks : List α) : (∅ : Table α β).eraseAll ks = ∅ := by
  induction ks with
  | nil => rfl
  | cons k ks ih => exact ih

theorem dom_eraseAll (t : Table α β) (ks : List α) :
    (t.eraseAll ks).dom = t.dom \ ks.toFinset := by
  induction ks generalizing t with
  | nil => exact (Finset.sdiff_empty).symm
  | cons k ks ih =>
    rw [eraseAll, ih, dom_erase, List.toFinset_cons, Finset.sdiff_insert, Finset.erase_sdiff_comm]

theorem get?_eraseAll (t : Table α β) (ks : List α) (k : α) :
    (t.eraseAll ks).get? k = if k ∈ ks then none else t.get? k := by
  induction ks generalizing t with
  | nil => rfl
  | cons k' ks ih =>
    rw [eraseAll, ih, get?_erase]
    by_cases hk : k = k'
    · have hmem : k ∈ k' :: ks := List.mem_cons.mpr (.inl hk)
      rw [if_pos hk, if_pos hmem, ite_self]
    · rw [if_neg hk]
      simp only [List.mem_cons, hk, false_or]

end Table

end Lib
