-- SUMMARY: When values have the same contents, and that every operation respects that.
import InMemoryCache.Store.Keyspace

/-!
# The same contents

A set or hash table lists its entries in some order, which is no part of what it holds.
Values are the `Same` if they differ in that order only. No operation can tell such
values apart: what it leaves is the same again.
-/

namespace InMemoryCache

open Lib Leased

/-! ## Values -/

theorem rel_equivalence {r : α → α → Prop} (hr : Equivalence r) : Equivalence (Option.Rel r) where
  refl x := by
    cases x with
    | none => exact .none
    | some a => exact .some (hr.refl a)
  symm h := by
    cases h with
    | none => exact .none
    | some h => exact .some (hr.symm h)
  trans h h' := by
    cases h with
    | none => exact h'
    | some h =>
      cases h' with
      | some h' => exact .some (hr.trans h h')

namespace DataType

/-- Same type and contents, whatever order sets and hashes are listed in. -/
inductive Same : DataType → DataType → Prop
  | refl (d : DataType) : Same d d
  | set {s t : Table Bytes Unit} : s.Same t → Same (.set s) (.set t)
  | hash {s t : Table Bytes Bytes} : s.Same t → Same (.hash s) (.hash t)

theorem same_equivalence : Equivalence Same where
  refl := .refl
  symm h := by
    cases h with
    | refl => exact .refl _
    | set h => exact .set (Table.same_equivalence.symm h)
    | hash h => exact .hash (Table.same_equivalence.symm h)
  trans h h' := by
    cases h with
    | refl => exact h'
    | set h =>
      cases h' with
      | refl => exact .set h
      | set h' => exact .set (Table.same_equivalence.trans h h')
    | hash h =>
      cases h' with
      | refl => exact .hash h
      | hash h' => exact .hash (Table.same_equivalence.trans h h')

theorem Same.isEmpty {d e : DataType} (h : d.Same e) : d.isEmpty = e.isEmpty := by
  cases h with
  | refl d => rfl
  | set h => exact Table.Same.isEmpty h
  | hash h => exact Table.Same.isEmpty h

end DataType

/-! ## Edits -/

/-- Both fail, or leave the same. -/
abbrev SameEdit : Option (Edit ρ) → Option (Edit ρ) → Prop :=
  Option.Rel fun x y => x.data.Same y.data

theorem sameEdit_refl (x : Option (Edit ρ)) : SameEdit x x := by
  cases x with
  | none => exact .none
  | some x => exact .some (.refl x.data)

/-- A command's value part that does the same to the same values. -/
def SameEdits (f : DataType → Option (Edit ρ)) : Prop := ∀ d e, d.Same e → SameEdit (f d) (f e)

theorem same_editPush (push : List Bytes → Nat → List Bytes → List Bytes × Nat)
    (els : List Bytes) : SameEdits (editPush push els) := by
  intro d e h
  cases h with
  | refl d => exact sameEdit_refl _
  | set h => exact .none
  | hash h => exact .none

theorem same_editPop (take : List Bytes → Option Bytes × List Bytes) :
    SameEdits (editPop take) := by
  intro d e h
  cases h with
  | refl d => exact sameEdit_refl _
  | set h => exact .none
  | hash h => exact .none

theorem same_insertFields (fields : List (Bytes × Bytes)) {s t : Table Bytes Bytes}
    (h : s.Same t) : (insertFields s fields).2.1.Same (insertFields t fields).2.1 := by
  induction fields generalizing s t with
  | nil => exact h
  | cons fv fields ih =>
    obtain ⟨field, value⟩ := fv
    have hrest := ih (h.insert field value)
    rw [insertFields, insertFields, h field]
    cases t.get? field <;> exact hrest

theorem same_removeFields (fields : List Bytes) {s t : Table Bytes Bytes} (h : s.Same t) :
    (removeFields s fields).2.1.Same (removeFields t fields).2.1 := by
  induction fields generalizing s t with
  | nil => exact h
  | cons field fields ih =>
    rw [removeFields, removeFields, h field]
    cases t.get? field with
    | some value => exact ih (h.erase field)
    | none => exact ih h

theorem same_insertMembers (members : List Bytes) {s t : Table Bytes Unit} (h : s.Same t) :
    (insertMembers s members).2.1.Same (insertMembers t members).2.1 := by
  induction members generalizing s t with
  | nil => exact h
  | cons m members ih =>
    rw [insertMembers, insertMembers, h.contains m]
    split
    · exact ih h
    · exact ih (h.insert m ())

theorem same_removeMembers (members : List Bytes) {s t : Table Bytes Unit} (h : s.Same t) :
    (removeMembers s members).2.1.Same (removeMembers t members).2.1 := by
  induction members generalizing s t with
  | nil => exact h
  | cons m members ih =>
    rw [removeMembers, removeMembers, h.contains m]
    split
    · exact ih (h.erase m)
    · exact ih h

theorem same_editHset (fields : List (Bytes × Bytes)) : SameEdits (editHset fields) := by
  intro d e h
  cases h with
  | refl d => exact sameEdit_refl _
  | set h => exact .none
  | hash h => exact .some (.hash (same_insertFields fields h))

theorem same_editHdel (fields : List Bytes) : SameEdits (editHdel fields) := by
  intro d e h
  cases h with
  | refl d => exact sameEdit_refl _
  | set h => exact .none
  | hash h => exact .some (.hash (same_removeFields fields h))

theorem same_editSadd (members : List Bytes) : SameEdits (editSadd members) := by
  intro d e h
  cases h with
  | refl d => exact sameEdit_refl _
  | set h => exact .some (.set (same_insertMembers members h))
  | hash h => exact .none

theorem same_editSrem (members : List Bytes) : SameEdits (editSrem members) := by
  intro d e h
  cases h with
  | refl d => exact sameEdit_refl _
  | set h => exact .some (.set (same_removeMembers members h))
  | hash h => exact .none

/-! ## Items -/

/-- Same contents and deadline. -/
structure Item.Same (it jt : Item) : Prop where
  value : it.value.Same jt.value
  deadline : it.deadline = jt.deadline

/-- Both nothing, or the same items. -/
abbrev SameSlot : Option Item → Option Item → Prop := Option.Rel Item.Same

theorem Item.same_equivalence : Equivalence Item.Same where
  refl it := ⟨.refl it.value, rfl⟩
  symm h := ⟨DataType.same_equivalence.symm h.value, h.deadline.symm⟩
  trans h h' := ⟨DataType.same_equivalence.trans h.value h'.value, h.deadline.trans h'.deadline⟩

theorem sameSlot_equivalence : Equivalence SameSlot := rel_equivalence Item.same_equivalence

theorem same_visible {s t : Option Item} (h : SameSlot s t) (now : Instant) :
    SameSlot (visible now s) (visible now t) := by
  cases h with
  | none => exact .none
  | @some it jt h =>
    have hlive : it.live now = jt.live now := by
      rw [live, live, h.deadline]
    cases hjt : jt.live now with
    | true =>
      rw [visible_of_live hjt, visible_of_live (hlive.trans hjt)]
      exact .some h
    | false =>
      rw [visible_of_not_live hjt, visible_of_not_live (hlive.trans hjt)]
      exact .none

theorem inspect_snd (absent : ρ) (read : DataType → Option (ρ × Bool)) (s : Option Item) :
    (Item.inspect absent read s).2 = s := by
  cases s with
  | none => rfl
  | some it =>
    rw [Item.inspect]
    split <;> rfl

theorem timeLeft_snd (unit : Duration → Nat) (now : Instant) (s : Option Item) :
    (Item.timeLeft unit now s).2 = s := by
  cases s with
  | none => rfl
  | some it =>
    rw [Item.timeLeft.eq_def]
    dsimp only
    split <;> rfl

theorem same_create {empty : DataType} {edit : DataType → Option (Edit Nat)} (hedit : SameEdits edit)
    {s t : Option Item} (h : SameSlot s t) :
    SameSlot (Item.create empty edit s).2 (Item.create empty edit t).2 := by
  have hitem : Item.Same (s.getD { value := empty, deadline := none })
      (t.getD { value := empty, deadline := none }) := by
    cases h with
    | none => exact ⟨DataType.same_equivalence.refl _, rfl⟩
    | some h => exact h
  have hrel := hedit _ _ hitem.value
  rw [Item.create, Item.create]
  revert hrel
  generalize edit (s.getD _).value = x
  generalize edit (t.getD _).value = y
  intro hrel
  cases hrel with
  | none => exact .some hitem
  | some hdata => exact .some ⟨hdata, hitem.deadline⟩

theorem same_shrink {absent : ρ} {edit : DataType → Option (Edit ρ)} (hedit : SameEdits edit)
    {s t : Option Item} (h : SameSlot s t) :
    SameSlot (Item.shrink absent edit s).2 (Item.shrink absent edit t).2 := by
  cases h with
  | none => exact .none
  | @some it jt h =>
    have hrel := hedit _ _ h.value
    rw [Item.shrink, Item.shrink]
    revert hrel
    generalize edit it.value = x
    generalize edit jt.value = y
    intro hrel
    cases hrel with
    | none => exact .some h
    | some hdata =>
      dsimp only
      rw [hdata.isEmpty]
      split
      · exact .none
      · exact .some ⟨hdata, h.deadline⟩

theorem same_expireIn (duration : Duration) (now : Instant) {s t : Option Item} (h : SameSlot s t) :
    SameSlot (Item.expireIn duration now s).2 (Item.expireIn duration now t).2 := by
  cases h with
  | none => exact .none
  | some h =>
    rw [Item.expireIn, Item.expireIn]
    split
    · exact .some ⟨h.value, rfl⟩
    · exact .some h

/-- An operation leaves the same of the same items. -/
theorem KeyOp.same_onItem (op : KeyOp) (now : Instant) {s t : Option Item} (h : SameSlot s t) :
    SameSlot (op.onItem now s).2 (op.onItem now t).2 := by
  have hinspect : ∀ {ρ : Type} (absent : ρ) (read : DataType → Option (ρ × Bool)),
      SameSlot (Item.inspect absent read s).2 (Item.inspect absent read t).2 := by
    intro ρ absent read
    rw [inspect_snd, inspect_snd]
    exact h
  have htime : ∀ unit, SameSlot (Item.timeLeft unit now s).2 (Item.timeLeft unit now t).2 := by
    intro unit
    rw [timeLeft_snd, timeLeft_snd]
    exact h
  cases op with
  | set v d => exact sameSlot_equivalence.refl _
  | lpush els => exact same_create (same_editPush _ els) h
  | rpush els => exact same_create (same_editPush _ els) h
  | hset fields => exact same_create (same_editHset fields) h
  | sadd members => exact same_create (same_editSadd members) h
  | lpop => exact same_shrink (same_editPop _) h
  | rpop => exact same_shrink (same_editPop _) h
  | hdel fields => exact same_shrink (same_editHdel fields) h
  | srem members => exact same_shrink (same_editSrem members) h
  | expire d => exact same_expireIn d now h
  | ttl => exact htime _
  | pttl => exact htime _
  | get => exact hinspect _ _
  | lrange start stop => exact hinspect _ _
  | hget field => exact hinspect _ _
  | hgetall => exact hinspect _ _
  | smembers => exact hinspect _ _
  | sismember member => exact hinspect _ _

end InMemoryCache
