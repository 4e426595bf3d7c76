-- SUMMARY: Finite maps listed in iteration order, with weights summed over their entries.
import Mathlib.Data.List.Nodup
import Mathlib.Tactic.Common
import Mathlib.Algebra.BigOperators.Group.List.Basic
import Mathlib.Algebra.GroupWithZero.Nat

/-!
# Tables

A `Table α β` is a finite map given by its entries in iteration order, with no
key listed twice. Writing to a present key keeps its place; a new key goes to the
end; erasing keeps the order of what is left. `sumBy` adds up a weight over the
entries, and the laws below say how each operation moves that sum.
-/

namespace Lib

/-- A finite map as the list of its entries, each key listed once. -/
@[ext]
structure Table (α : Type u) (β : Type v) where
  entries : List (α × β)
  nodup : (entries.map Prod.fst).Nodup
  deriving Repr

namespace Table

variable {α : Type u} {β : Type v}

instance [DecidableEq α] [DecidableEq β] : DecidableEq (Table α β) := fun s t =>
  decidable_of_iff (s.entries = t.entries) Table.ext_iff.symm

/-! ## Entry lists -/

section Entries

variable [DecidableEq α]

def find (k : α) : List (α × β) → Option β
  | [] => none
  | (k', v) :: l => if k' = k then some v else find k l

def assign (k : α) (v : β) : List (α × β) → List (α × β)
  | [] => [(k, v)]
  | (k', v') :: l => if k' = k then (k, v) :: l else (k', v') :: assign k v l

def drop (k : α) : List (α × β) → List (α × β)
  | [] => []
  | (k', v) :: l => if k' = k then l else (k', v) :: drop k l

theorem find_eq_none {k : α} {l : List (α × β)} :
    find k l = none ↔ k ∉ l.map Prod.fst := by
  induction l with
  | nil => simp [find]
  | cons e l ih =>
    obtain ⟨k', v⟩ := e
    by_cases h : k' = k
    · simp [find, h]
    · simpa [find, h, Ne.symm h] using ih

theorem mem_of_find {k : α} {v : β} {l : List (α × β)} (h : find k l = some v) : (k, v) ∈ l := by
  induction l with
  | nil => simp [find] at h
  | cons e l ih =>
    obtain ⟨k', v'⟩ := e
    by_cases hk : k' = k
    · simp only [find, if_pos hk, Option.some.injEq] at h
      simp [hk, h]
    · simp only [find, if_neg hk] at h
      exact List.mem_cons_of_mem _ (ih h)

theorem find_of_mem {k : α} {v : β} {l : List (α × β)} (hl : (l.map Prod.fst).Nodup)
    (h : (k, v) ∈ l) : find k l = some v := by
  induction l with
  | nil => cases h
  | cons e l ih =>
    obtain ⟨k', v'⟩ := e
    rw [List.map_cons, List.nodup_cons] at hl
    rcases List.mem_cons.mp h with h | h
    · cases h
      simp [find]
    · have hne : k' ≠ k := by
        rintro rfl
        exact hl.1 (List.mem_map.mpr ⟨_, h, rfl⟩)
      simp only [find, if_neg hne]
      exact ih hl.2 h

theorem find_filter {k : α} (p : α → β → Bool) {l : List (α × β)} (hl : (l.map Prod.fst).Nodup) :
    find k (l.filter fun e => p e.1 e.2) = (find k l).filter (p k) := by
  induction l with
  | nil => rfl
  | cons e l ih =>
    obtain ⟨k', v⟩ := e
    rw [List.map_cons, List.nodup_cons] at hl
    have htail := ih hl.2
    by_cases hk : k' = k
    · subst hk
      cases hp : p k' v with
      | true =>
        simp only [List.filter_cons, hp, if_true, find]
        rw [Option.filter_some_pos hp]
      | false =>
        have hnone : find k' l = none := find_eq_none.mpr hl.1
        rw [List.filter_cons_of_neg (by simp [hp]), htail, hnone, find, if_pos rfl,
          Option.filter_some_neg (by simp [hp])]
        rfl
    · cases hp : p k' v <;> simpa [List.filter_cons, find, hk, hp] using htail

theorem map_fst_assign {k : α} {v : β} (l : List (α × β)) :
    (assign k v l).map Prod.fst =
      if k ∈ l.map Prod.fst then l.map Prod.fst else l.map Prod.fst ++ [k] := by
  induction l with
  | nil => simp [assign]
  | cons e l ih =>
    obtain ⟨k', v'⟩ := e
    by_cases h : k' = k
    · simp [assign, h]
    · by_cases hm : k ∈ l.map Prod.fst
      · simp only [assign, if_neg h, List.map_cons, ih, if_pos hm]
        rw [if_pos (List.mem_cons_of_mem _ hm)]
      · simp only [assign, if_neg h, List.map_cons, ih, if_neg hm]
        rw [if_neg (by simp only [List.mem_cons, not_or]; exact ⟨Ne.symm h, hm⟩)]
        rfl

theorem drop_sublist {k : α} (l : List (α × β)) : (drop k l).Sublist l := by
  induction l with
  | nil => exact .slnil
  | cons e l ih =>
    obtain ⟨k', v⟩ := e
    by_cases h : k' = k
    · simp only [drop, if_pos h]
      exact .cons _ (List.Sublist.refl l)
    · simp only [drop, if_neg h]
      exact .cons_cons _ ih

theorem assign_of_find {k : α} {v : β} {l : List (α × β)} (h : find k l = some v) :
    assign k v l = l := by
  induction l with
  | nil => cases h
  | cons e l ih =>
    obtain ⟨a, b⟩ := e
    rw [find] at h
    rw [assign]
    split at h
    · rename_i ha
      rw [Option.some.injEq] at h
      rw [if_pos ha, ha, h]
    · rename_i ha
      rw [if_neg ha, ih h]

theorem drop_of_find {k : α} {l : List (α × β)} (h : find k l = none) : drop k l = l := by
  induction l with
  | nil => rfl
  | cons e l ih =>
    obtain ⟨a, b⟩ := e
    rw [find] at h
    rw [drop]
    split at h
    · cases h
    · rename_i ha
      rw [if_neg ha, ih h]

theorem find_assign (k k' : α) (v : β) (l : List (α × β)) :
    find k' (assign k v l) = if k' = k then some v else find k' l := by
  induction l with
  | nil => simp [assign, find, eq_comm]
  | cons e l ih =>
    obtain ⟨a, b⟩ := e
    by_cases ha : a = k
    · subst ha
      by_cases hk : k' = a
      · simp [assign, find, hk]
      · simp [assign, find, hk, Ne.symm hk]
    · simp only [assign, if_neg ha, find, ih]
      by_cases hak : a = k'
      · have : k' ≠ k := hak ▸ ha
        simp [hak, this]
      · simp [hak]

theorem find_drop {k k' : α} {l : List (α × β)} (hl : (l.map Prod.fst).Nodup) :
    find k' (drop k l) = if k' = k then none else find k' l := by
  induction l with
  | nil => simp [drop, find]
  | cons e l ih =>
    obtain ⟨a, b⟩ := e
    rw [List.map_cons, List.nodup_cons] at hl
    by_cases ha : a = k
    · subst ha
      by_cases hk : k' = a
      · subst hk
        simpa [drop] using find_eq_none.mpr hl.1
      · simp [drop, find, hk, Ne.symm hk]
    · simp only [drop, if_neg ha, find, ih hl.2]
      by_cases hak : a = k'
      · have : k' ≠ k := hak ▸ ha
        simp [hak, this]
      · simp [hak]

end Entries

/-! ## Operations -/

def empty : Table α β := ⟨[], List.nodup_nil⟩

instance : EmptyCollection (Table α β) := ⟨empty⟩

def keys (t : Table α β) : List α := t.entries.map Prod.fst

def size (t : Table α β) : Nat := t.entries.length

def isEmpty (t : Table α β) : Bool := t.entries.isEmpty

/-- Add up the weight `w` of every entry. -/
def sumBy (w : α → β → Nat) (t : Table α β) : Nat := (t.entries.map fun e => w e.1 e.2).sum

@[simp] theorem entries_empty : (∅ : Table α β).entries = [] := rfl
@[simp] theorem sumBy_empty (w : α → β → Nat) : sumBy w ∅ = 0 := rfl

theorem nodup_keys (t : Table α β) : t.keys.Nodup := t.nodup

theorem isEmpty_iff {t : Table α β} : t.isEmpty = true ↔ t = ∅ := by
  rw [isEmpty, List.isEmpty_iff, Table.ext_iff, entries_empty]

variable [DecidableEq α]

def get? (t : Table α β) (k : α) : Option β := find k t.entries

def contains (t : Table α β) (k : α) : Bool := (t.get? k).isSome

def insert (t : Table α β) (k : α) (v : β) : Table α β where
  entries := assign k v t.entries
  nodup := by
    rw [map_fst_assign]
    split
    · exact t.nodup
    · rename_i h
      exact List.nodup_append.mpr ⟨t.nodup, List.nodup_singleton k, fun a ha b hb heq =>
        h (by rw [List.mem_singleton] at hb; rwa [heq, hb] at ha)⟩

def erase (t : Table α β) (k : α) : Table α β where
  entries := drop k t.entries
  nodup := t.nodup.sublist ((drop_sublist t.entries).map Prod.fst)

/-- Keep the entries that satisfy `p`. -/
def filter (p : α → β → Bool) (t : Table α β) : Table α β where
  entries := t.entries.filter fun e => p e.1 e.2
  nodup := t.nodup.sublist (List.filter_sublist.map Prod.fst)

/-- Keep the entries under the keys of a list. -/
def restrict (t : Table α β) (ks : List α) : Table α β := t.filter fun k _ => decide (k ∈ ks)

/-- Store under `k` what a slot holds, or nothing. -/
def overwrite (t : Table α β) (k : α) : Option β → Table α β
  | some v => t.insert k v
  | none => t.erase k

/-! ## Lookup laws -/

@[simp] theorem get?_empty (k : α) : (∅ : Table α β).get? k = none := rfl

theorem get?_eq_some {t : Table α β} {k : α} {v : β} :
    t.get? k = some v ↔ (k, v) ∈ t.entries :=
  ⟨mem_of_find, find_of_mem t.nodup⟩

theorem get?_eq_none {t : Table α β} {k : α} : t.get? k = none ↔ k ∉ t.keys := find_eq_none

/-- Where a key stands in the iteration order. -/
def position (t : Table α β) (k : α) : Nat := t.keys.idxOf k

theorem getElem?_position {t : Table α β} {k : α} {v : β} (h : t.get? k = some v) :
    t.entries[t.position k]? = some (k, v) := by
  have hlt : t.keys.idxOf k < t.keys.length :=
    List.idxOf_lt_length_iff.mpr (List.mem_map_of_mem (get?_eq_some.mp h))
  have hkey : (t.entries.map Prod.fst)[t.position k]? = some k :=
    List.getElem?_eq_some_iff.mpr ⟨hlt, List.getElem_idxOf hlt⟩
  rw [List.getElem?_map] at hkey
  obtain ⟨⟨k', w⟩, he, rfl⟩ := Option.map_eq_some_iff.mp hkey
  have hw : t.get? k' = some w := get?_eq_some.mpr (List.mem_of_getElem? he)
  rw [h, Option.some.injEq] at hw
  rw [he, hw]

theorem mem_keys {t : Table α β} {k : α} : k ∈ t.keys ↔ ∃ v, t.get? k = some v := by
  rw [← not_iff_not, ← get?_eq_none, Option.eq_none_iff_forall_ne_some]
  simp

theorem get?_insert (t : Table α β) (k k' : α) (v : β) :
    (t.insert k v).get? k' = if k' = k then some v else t.get? k' :=
  find_assign k k' v t.entries

@[simp] theorem get?_insert_self (t : Table α β) (k : α) (v : β) :
    (t.insert k v).get? k = some v := by
  rw [get?_insert, if_pos rfl]

theorem get?_insert_ne {t : Table α β} {k k' : α} {v : β} (h : k' ≠ k) :
    (t.insert k v).get? k' = t.get? k' := by
  rw [get?_insert, if_neg h]

theorem get?_erase (t : Table α β) (k k' : α) :
    (t.erase k).get? k' = if k' = k then none else t.get? k' :=
  find_drop t.nodup

@[simp] theorem get?_erase_self (t : Table α β) (k : α) : (t.erase k).get? k = none := by
  rw [get?_erase, if_pos rfl]

theorem get?_erase_ne {t : Table α β} {k k' : α} (h : k' ≠ k) :
    (t.erase k).get? k' = t.get? k' := by
  rw [get?_erase, if_neg h]

theorem mem_keys_erase {t : Table α β} {k k' : α} :
    k' ∈ (t.erase k).keys ↔ k' ≠ k ∧ k' ∈ t.keys := by
  rw [mem_keys, mem_keys]
  by_cases h : k' = k
  · simp [h]
  · simp [get?_erase_ne h, h]

theorem mem_keys_insert {t : Table α β} {k k' : α} {v : β} :
    k' ∈ (t.insert k v).keys ↔ k' = k ∨ k' ∈ t.keys := by
  rw [mem_keys, mem_keys]
  by_cases h : k' = k
  · simp [h]
  · simp [get?_insert_ne h, h]

theorem get?_filter (p : α → β → Bool) (t : Table α β) (k : α) :
    (t.filter p).get? k = (t.get? k).filter (p k) :=
  find_filter p t.nodup

theorem get?_overwrite (t : Table α β) (k k' : α) (slot : Option β) :
    (t.overwrite k slot).get? k' = if k' = k then slot else t.get? k' := by
  cases slot with
  | some v => exact get?_insert t k k' v
  | none => exact get?_erase t k k'

@[simp] theorem get?_overwrite_self (t : Table α β) (k : α) (slot : Option β) :
    (t.overwrite k slot).get? k = slot := by
  rw [get?_overwrite, if_pos rfl]

/-- Storing what is stored changes nothing. -/
theorem overwrite_get? (t : Table α β) (k : α) : t.overwrite k (t.get? k) = t := by
  cases hget : t.get? k with
  | some v => exact Table.ext (assign_of_find hget)
  | none => exact Table.ext (drop_of_find hget)

/-! ## Filters -/

omit [DecidableEq α] in
theorem filter_filter (p q : α → β → Bool) (t : Table α β) :
    (t.filter q).filter p = t.filter fun k v => p k v && q k v :=
  Table.ext (List.filter_filter)

theorem filter_congr {p q : α → β → Bool} {t : Table α β}
    (h : ∀ k v, t.get? k = some v → p k v = q k v) : t.filter p = t.filter q :=
  Table.ext (List.filter_congr fun e he => h e.1 e.2 (get?_eq_some.mpr he))

theorem erase_eq_filter (t : Table α β) (k : α) :
    t.erase k = t.filter fun k' _ => decide (k' ≠ k) := by
  obtain ⟨l, hl⟩ := t
  refine Table.ext ?_
  show drop k l = l.filter fun e => decide (e.1 ≠ k)
  induction l with
  | nil => rfl
  | cons e l ih =>
    obtain ⟨a, b⟩ := e
    rw [List.map_cons, List.nodup_cons] at hl
    by_cases ha : a = k
    · subst ha
      have hrest : ∀ e ∈ l, e.1 ≠ a := by
        rintro e he rfl
        exact hl.1 (List.mem_map.mpr ⟨e, he, rfl⟩)
      rw [drop, if_pos rfl, List.filter_cons_of_neg (by simp)]
      exact (List.filter_eq_self.mpr fun e he => decide_eq_true (hrest e he)).symm
    · rw [drop, if_neg ha, ih hl.2, List.filter_cons_of_pos (by simpa using ha)]

theorem filter_erase (p : α → β → Bool) (t : Table α β) (k : α) :
    (t.erase k).filter p = (t.filter p).erase k := by
  rw [erase_eq_filter, erase_eq_filter, filter_filter, filter_filter]
  exact filter_congr fun k v _ => Bool.and_comm _ _

theorem get?_restrict_eq_some {t : Table α β} {ks : List α} {k : α} {v : β} :
    (t.restrict ks).get? k = some v ↔ k ∈ ks ∧ t.get? k = some v := by
  rw [restrict, get?_filter, Option.filter_eq_some_iff, decide_eq_true_iff, and_comm]

theorem restrict_nil (t : Table α β) : t.restrict [] = ∅ :=
  Table.ext (List.filter_eq_nil_iff.mpr fun e _ => by simp)

/-- The entry under the first key, and those under the others without it. -/
theorem erase_restrict (t : Table α β) (k : α) (ks : List α) :
    (t.restrict (k :: ks)).erase k = (t.erase k).restrict ks := by
  rw [restrict, restrict, filter_erase, erase_eq_filter, erase_eq_filter, filter_filter,
    filter_filter]
  refine filter_congr fun k' v _ => ?_
  by_cases hk : k' = k
  · simp [hk]
  · simp [hk]

theorem restrict_cons_of_none {t : Table α β} {k : α} (h : t.get? k = none) (ks : List α) :
    t.restrict (k :: ks) = t.restrict ks := by
  refine filter_congr fun k' v hget => ?_
  have hk : k' ≠ k := by
    rintro rfl
    rw [h] at hget
    cases hget
  simp [hk]

/-! ## The same map -/

/-- Listing the same map, perhaps in another order. -/
def Same (s t : Table α β) : Prop := ∀ k, s.get? k = t.get? k

theorem same_equivalence : Equivalence (Same : Table α β → Table α β → Prop) where
  refl _ _ := rfl
  symm h k := (h k).symm
  trans h h' k := (h k).trans (h' k)

theorem Same.insert {s t : Table α β} (h : s.Same t) (k : α) (v : β) :
    (s.insert k v).Same (t.insert k v) := by
  intro k'
  rw [get?_insert, get?_insert, h k']

theorem Same.erase {s t : Table α β} (h : s.Same t) (k : α) : (s.erase k).Same (t.erase k) := by
  intro k'
  rw [get?_erase, get?_erase, h k']

theorem Same.contains {s t : Table α β} (h : s.Same t) (k : α) : s.contains k = t.contains k := by
  rw [Table.contains, Table.contains, h k]

theorem isEmpty_iff_get? {t : Table α β} : t.isEmpty = true ↔ ∀ k, t.get? k = none := by
  rw [isEmpty, List.isEmpty_iff]
  constructor
  · intro h k
    rw [get?_eq_none, keys, h]
    exact List.not_mem_nil
  · intro h
    rw [List.eq_nil_iff_forall_not_mem]
    rintro ⟨k, v⟩ hmem
    rw [← get?_eq_some, h k] at hmem
    cases hmem

theorem Same.isEmpty {s t : Table α β} (h : s.Same t) : s.isEmpty = t.isEmpty := by
  rw [Bool.eq_iff_iff, isEmpty_iff_get?, isEmpty_iff_get?]
  exact forall_congr' fun k => by rw [h k]

/-! ## Weight laws -/

/-- Writing an entry replaces the weight that stood under its key. -/
theorem sumBy_insert (w : α → β → Nat) (t : Table α β) (k : α) (v : β) :
    sumBy w (t.insert k v) + ((t.get? k).elim 0 (w k)) = sumBy w t + w k v := by
  obtain ⟨l, hl⟩ := t
  show ((assign k v l).map _).sum + (find k l).elim 0 (w k) = (l.map _).sum + w k v
  clear hl
  induction l with
  | nil => simp [assign, find]
  | cons e l ih =>
    obtain ⟨a, b⟩ := e
    by_cases h : a = k
    · subst h
      simp only [assign, find, if_pos, List.map_cons, List.sum_cons, Option.elim_some]
      omega
    · simp only [assign, find, if_neg h, List.map_cons, List.sum_cons]
      omega

/-- Erasing an entry takes its weight away. -/
theorem sumBy_erase (w : α → β → Nat) (t : Table α β) (k : α) :
    sumBy w (t.erase k) + ((t.get? k).elim 0 (w k)) = sumBy w t := by
  obtain ⟨l, hl⟩ := t
  show ((drop k l).map _).sum + (find k l).elim 0 (w k) = (l.map _).sum
  clear hl
  induction l with
  | nil => simp [drop, find]
  | cons e l ih =>
    obtain ⟨a, b⟩ := e
    by_cases h : a = k
    · subst h
      simp only [drop, find, if_pos, List.map_cons, List.sum_cons, Option.elim_some]
      omega
    · simp only [drop, find, if_neg h, List.map_cons, List.sum_cons]
      omega

/-- A slot trades its old weight for its new one. -/
theorem sumBy_overwrite (w : α → β → Nat) (t : Table α β) (k : α) (slot : Option β) :
    sumBy w (t.overwrite k slot) + (t.get? k).elim 0 (w k) = sumBy w t + slot.elim 0 (w k) := by
  cases slot with
  | some v => exact sumBy_insert w t k v
  | none => exact sumBy_erase w t k

/-- One entry weighs no more than all of them. -/
theorem weight_le_sumBy (w : α → β → Nat) (t : Table α β) (k : α) :
    (t.get? k).elim 0 (w k) ≤ sumBy w t := by
  rw [← sumBy_erase w t k]
  omega

/-! ## Writing many entries -/

/-- Write entries one after the other. -/
def insertAll (t : Table α β) : List (α × β) → Table α β
  | [] => t
  | (k, v) :: kvs => (t.insert k v).insertAll kvs

/-- The weight of what a list of entries leaves under each key, which is the last value. -/
def lastWeight (w : α → β → Nat) : List (α × β) → Nat
  | [] => 0
  | (k, v) :: kvs => (if k ∈ kvs.map Prod.fst then 0 else w k v) + lastWeight w kvs

/-- The weight of the entries under the listed keys, each counted once. -/
def weightUnder (w : α → β → Nat) (t : Table α β) : List α → Nat
  | [] => 0
  | k :: ks => (if k ∈ ks then 0 else (t.get? k).elim 0 (w k)) + weightUnder w t ks

theorem weightUnder_empty (w : α → β → Nat) (ks : List α) :
    weightUnder w (∅ : Table α β) ks = 0 := by
  induction ks with
  | nil => rfl
  | cons k ks ih =>
    rw [weightUnder, ih, get?_empty]
    split <;> rfl

/-- A write moves the weight under a list that has its key by what it moves there. -/
theorem weightUnder_insert (w : α → β → Nat) (t : Table α β) (k : α) (v : β) (ks : List α) :
    weightUnder w (t.insert k v) ks + (if k ∈ ks then (t.get? k).elim 0 (w k) else 0) =
      weightUnder w t ks + if k ∈ ks then w k v else 0 := by
  induction ks with
  | nil => rfl
  | cons a ks ih =>
    rw [weightUnder, weightUnder]
    by_cases ha : a = k
    · subst ha
      rw [get?_insert_self, Option.elim_some, if_pos List.mem_cons_self, if_pos List.mem_cons_self]
      by_cases hks : a ∈ ks
      · simp only [if_pos hks] at ih ⊢
        omega
      · simp only [if_neg hks] at ih ⊢
        omega
    · have hmem : k ∈ a :: ks ↔ k ∈ ks := by
        rw [List.mem_cons]
        exact or_iff_right (Ne.symm ha)
      rw [get?_insert_ne ha]
      simp only [hmem]
      omega

/-- Writing entries replaces the weight that stood under their keys. -/
theorem sumBy_insertAll (w : α → β → Nat) (t : Table α β) (kvs : List (α × β)) :
    sumBy w (t.insertAll kvs) + weightUnder w t (kvs.map Prod.fst) =
      sumBy w t + lastWeight w kvs := by
  induction kvs generalizing t with
  | nil => rfl
  | cons e kvs ih =>
    obtain ⟨k, v⟩ := e
    have hrest := ih (t.insert k v)
    have hfirst := sumBy_insert w t k v
    have hunder := weightUnder_insert w t k v (kvs.map Prod.fst)
    rw [List.map_cons, insertAll, weightUnder, lastWeight]
    by_cases hk : k ∈ kvs.map Prod.fst
    · simp only [if_pos hk] at hunder ⊢
      omega
    · simp only [if_neg hk] at hunder ⊢
      omega

omit [DecidableEq α] in
theorem size_eq_sumBy (t : Table α β) : t.size = sumBy (fun _ _ => 1) t := by
  rw [size, sumBy, List.map_const', List.sum_replicate_nat, Nat.mul_one]

end Table

end Lib
