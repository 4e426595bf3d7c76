-- SUMMARY: Stored values, and what each collection command computes on the value it finds.
import InMemoryCache.Basic
import InMemoryCache.Lib.Table

/-!
# Values

The four data types and the pure part of every command on them: the new value, the
updates of the memory counter in the order the code makes them, and the result.
`Delta.run` follows a sequence of updates from a starting weight, and each edit
moves the weight of the old value to the weight of the new one without going below
zero on the way (`Edit.Sound`).
-/

namespace InMemoryCache

open Lib

-- ---------------------------------------------------------------------------
-- Data types
-- ---------------------------------------------------------------------------

/-- `DataType`. The tables list members and fields in some iteration order. -/
inductive DataType where
  | string (b : Bytes)
  | list (l : List Bytes)
  | set (s : Table Bytes Unit)
  | hash (h : Table Bytes Bytes)
  deriving DecidableEq, Repr

def listSize (l : List Bytes) : Nat := (l.map fun b => b.length + 16).sum

def setSize (s : Table Bytes Unit) : Nat := s.sumBy fun b _ => b.length + 16

def hashSize (h : Table Bytes Bytes) : Nat := h.sumBy fun k v => k.length + v.length + 32

namespace DataType

/-- `data_size` in `CacheEntry::size_bytes`. -/
def size : DataType → Nat
  | .string b => b.length
  | .list l => listSize l
  | .set s => setSize s
  | .hash h => hashSize h

/-- The `is_empty` tests of the commands that shrink a collection. -/
def isEmpty : DataType → Bool
  | .string _ => false
  | .list l => l.isEmpty
  | .set s => s.isEmpty
  | .hash h => h.isEmpty

end DataType

-- ---------------------------------------------------------------------------
-- Updates of the memory counter
-- ---------------------------------------------------------------------------

/-- One `add_memory` or `sub_memory`. -/
inductive Delta where
  | add (n : Nat)
  | sub (n : Nat)
  deriving DecidableEq, Repr

namespace Delta

/-- Follow updates from a weight; `none` once an update goes below zero. -/
def run : Nat → List Delta → Option Nat
  | w, [] => some w
  | w, .add n :: ds => run (w + n) ds
  | w, .sub n :: ds => if n ≤ w then run (w - n) ds else none

theorem run_append (w : Nat) (ds es : List Delta) :
    run w (ds ++ es) = (run w ds).bind fun v => run v es := by
  induction ds generalizing w with
  | nil => rfl
  | cons d ds ih =>
    cases d with
    | add n => exact ih (w + n)
    | sub n =>
      simp only [List.cons_append, run]
      split
      · exact ih (w - n)
      · rfl

/-- Weight that the updates do not touch may be added. -/
theorem run_frame {w v : Nat} {ds : List Delta} (h : run w ds = some v) (k : Nat) :
    run (w + k) ds = some (v + k) := by
  induction ds generalizing w with
  | nil =>
    cases h
    rfl
  | cons d ds ih =>
    cases d with
    | add n =>
      have hn : w + k + n = w + n + k := by omega
      rw [run, hn]
      exact ih h
    | sub n =>
      simp only [run, Option.ite_none_right_eq_some] at h
      have hn : w + k - n = w - n + k := by omega
      rw [run, if_pos (by omega), hn]
      exact ih h.2

/-- The update from one size to another: growth is added, shrinkage subtracted. -/
def resize (old new : Nat) : Delta := if new > old then .add (new - old) else .sub (old - new)

theorem run_resize {w old new : Nat} (h : old ≤ w) (ds : List Delta) :
    run w (resize old new :: ds) = run (w - old + new) ds := by
  rw [resize]
  split
  · have hn : w + (new - old) = w - old + new := by omega
    rw [run, hn]
  · have hn : w - (old - new) = w - old + new := by omega
    rw [run, if_pos (by omega), hn]

end Delta

-- ---------------------------------------------------------------------------
-- Edits
-- ---------------------------------------------------------------------------

/-- What a command does to the value it finds. -/
structure Edit (ρ : Type) where
  data : DataType
  deltas : List Delta
  result : ρ

/-- An edit of `d` whose updates account for the change of size. -/
def Edit.Sound (d : DataType) (e : Edit ρ) : Prop := Delta.run d.size e.deltas = some e.data.size

/-- A command's value part, `none` where the value has the wrong type, all of whose
edits are sound. -/
def SoundEdits (f : DataType → Option (Edit ρ)) : Prop := ∀ d e, f d = some e → e.Sound d

/-! ## Lists -/

/-- The loop of `lpush`. -/
def pushFront : List Bytes → Nat → List Bytes → List Bytes × Nat
  | list, added, [] => (list, added)
  | list, added, el :: els => pushFront (el :: list) (added + (el.length + 16)) els

/-- The loop of `rpush`. -/
def pushBack : List Bytes → Nat → List Bytes → List Bytes × Nat
  | list, added, [] => (list, added)
  | list, added, el :: els => pushBack (list ++ [el]) (added + (el.length + 16)) els

/-- What `lpush` and `rpush` share: `push` runs the loop. -/
def editPush (push : List Bytes → Nat → List Bytes → List Bytes × Nat) (elements : List Bytes) :
    DataType → Option (Edit Nat)
  | .list list =>
    let (list, added) := push list 0 elements
    some { data := .list list, deltas := [.add added], result := list.length }
  | _ => none

def editLpush (elements : List Bytes) : DataType → Option (Edit Nat) := editPush pushFront elements

def editRpush (elements : List Bytes) : DataType → Option (Edit Nat) := editPush pushBack elements

/-- `VecDeque::pop_front` -/
def popFront : List Bytes → Option Bytes × List Bytes
  | [] => (none, [])
  | b :: l => (some b, l)

/-- `VecDeque::pop_back` -/
def popBack (l : List Bytes) : Option Bytes × List Bytes := (l.getLast?, l.dropLast)

/-- What `lpop` and `rpop` share: `take` takes an element off its end. -/
def editPop (take : List Bytes → Option Bytes × List Bytes) : DataType → Option (Edit (Option Bytes))
  | .list list =>
    let (popped, list) := take list
    let deltas := match popped with
      | some p => [.sub (p.length + 16)]
      | none => []
    some { data := .list list, deltas := deltas, result := popped }
  | _ => none

def editLpop : DataType → Option (Edit (Option Bytes)) := editPop popFront

def editRpop : DataType → Option (Edit (Option Bytes)) := editPop popBack

/-- The slice `lrange` returns. -/
def listRange (list : List Bytes) (start stop : Int) : List Bytes :=
  let len : Int := list.length
  if len = 0 then []
  else
    let s := if start < 0 then len + start else start
    let e := if stop < 0 then len + stop else stop
    let s := if s < 0 then 0 else s
    let e := if e ≥ len then len - 1 else e
    if s > e ∨ s ≥ len then []
    else (List.range' s.toNat (e - s + 1).toNat).filterMap fun i => list[i]?

/-! ## Hashes -/

/-- The loop of `hset`. -/
def insertFields : Table Bytes Bytes → List (Bytes × Bytes) → List Delta × Table Bytes Bytes × Nat
  | map, [] => ([], map, 0)
  | map, (field, value) :: fields =>
    let (deltas, map', added) := insertFields (map.insert field value) fields
    match map.get? field with
    | some old => (Delta.resize old.length value.length :: deltas, map', added)
    | none => (.add (field.length + value.length + 32) :: deltas, map', added + 1)

def editHset (fields : List (Bytes × Bytes)) : DataType → Option (Edit Nat)
  | .hash map =>
    let (deltas, map, added) := insertFields map fields
    some { data := .hash map, deltas := deltas, result := added }
  | _ => none

/-- The loop of `hdel`. -/
def removeFields : Table Bytes Bytes → List Bytes → List Delta × Table Bytes Bytes × Nat
  | map, [] => ([], map, 0)
  | map, f :: fields =>
    match map.get? f with
    | some val =>
      let (deltas, map', removed) := removeFields (map.erase f) fields
      (.sub (f.length + val.length + 32) :: deltas, map', removed + 1)
    | none => removeFields map fields

def editHdel (fields : List Bytes) : DataType → Option (Edit Nat)
  | .hash map =>
    let (deltas, map, removed) := removeFields map fields
    some { data := .hash map, deltas := deltas, result := removed }
  | _ => none

/-! ## Sets -/

/-- The loop of `sadd`. -/
def insertMembers : Table Bytes Unit → List Bytes → List Delta × Table Bytes Unit × Nat
  | set, [] => ([], set, 0)
  | set, m :: members =>
    if set.contains m then insertMembers set members
    else
      let (deltas, set', added) := insertMembers (set.insert m ()) members
      (.add (m.length + 16) :: deltas, set', added + 1)

def editSadd (members : List Bytes) : DataType → Option (Edit Nat)
  | .set set =>
    let (deltas, set, added) := insertMembers set members
    some { data := .set set, deltas := deltas, result := added }
  | _ => none

/-- The loop of `srem`. -/
def removeMembers : Table Bytes Unit → List Bytes → List Delta × Table Bytes Unit × Nat
  | set, [] => ([], set, 0)
  | set, m :: members =>
    if set.contains m then
      let (deltas, set', removed) := removeMembers (set.erase m) members
      (.sub (m.length + 16) :: deltas, set', removed + 1)
    else removeMembers set members

def editSrem (members : List Bytes) : DataType → Option (Edit Nat)
  | .set set =>
    let (deltas, set, removed) := removeMembers set members
    some { data := .set set, deltas := deltas, result := removed }
  | _ => none

-- ---------------------------------------------------------------------------
-- Every edit accounts for the bytes it moves
-- ---------------------------------------------------------------------------

@[simp] theorem listSize_nil : listSize [] = 0 := rfl

@[simp] theorem listSize_cons (b : Bytes) (l : List Bytes) :
    listSize (b :: l) = b.length + 16 + listSize l := by
  simp [listSize]

@[simp] theorem listSize_append (l l' : List Bytes) :
    listSize (l ++ l') = listSize l + listSize l' := by
  simp [listSize]

theorem pushFront_size (els list : List Bytes) (added : Nat) :
    listSize (pushFront list added els).1 + added =
      listSize list + (pushFront list added els).2 := by
  induction els generalizing list added with
  | nil => rfl
  | cons el els ih =>
    have h := ih (el :: list) (added + (el.length + 16))
    rw [listSize_cons] at h
    simp only [pushFront]
    omega

theorem pushBack_size (els list : List Bytes) (added : Nat) :
    listSize (pushBack list added els).1 + added =
      listSize list + (pushBack list added els).2 := by
  induction els generalizing list added with
  | nil => rfl
  | cons el els ih =>
    have h := ih (list ++ [el]) (added + (el.length + 16))
    rw [listSize_append, listSize_cons, listSize_nil] at h
    simp only [pushBack]
    omega

theorem sound_editPush {push : List Bytes → Nat → List Bytes → List Bytes × Nat}
    (hpush : ∀ els list added, listSize (push list added els).1 + added =
      listSize list + (push list added els).2) (els : List Bytes) :
    SoundEdits (editPush push els) := by
  intro d e h
  cases d with
  | list list =>
    cases h
    have hsize := hpush els list 0
    show some (listSize list + (push list 0 els).2) = some (listSize (push list 0 els).1)
    rw [Option.some.injEq]
    omega
  | _ => cases h

theorem sound_editLpush (els : List Bytes) : SoundEdits (editLpush els) :=
  sound_editPush pushFront_size els

theorem sound_editRpush (els : List Bytes) : SoundEdits (editRpush els) :=
  sound_editPush pushBack_size els

theorem sound_editPop {take : List Bytes → Option Bytes × List Bytes}
    (htake : ∀ l, (take l).1.elim 0 (fun p => p.length + 16) + listSize (take l).2 = listSize l) :
    SoundEdits (editPop take) := by
  intro d e h
  cases d with
  | list list =>
    cases h
    have hsize := htake list
    simp only [Edit.Sound, DataType.size]
    cases hp : (take list).1 with
    | none =>
      rw [hp, Option.elim_none] at hsize
      simp only [Delta.run, Option.some.injEq]
      omega
    | some p =>
      rw [hp, Option.elim_some] at hsize
      simp only [Delta.run]
      rw [if_pos (by omega), Option.some.injEq]
      omega
  | _ => cases h

theorem sound_editLpop : SoundEdits editLpop :=
  sound_editPop fun l => by cases l <;> simp [popFront]

theorem sound_editRpop : SoundEdits editRpop :=
  sound_editPop fun l => by
    rcases List.eq_nil_or_concat l with rfl | ⟨l, b, rfl⟩
    · simp [popBack]
    · simp [popBack]
      omega

theorem insertFields_run (fields : List (Bytes × Bytes)) (map : Table Bytes Bytes) :
    Delta.run (hashSize map) (insertFields map fields).1 =
      some (hashSize (insertFields map fields).2.1) := by
  induction fields generalizing map with
  | nil => rfl
  | cons fv fields ih =>
    obtain ⟨field, value⟩ := fv
    have hrest := ih (map.insert field value)
    have hinsert := Table.sumBy_insert (fun k v => k.length + v.length + 32) map field value
    have hle := Table.weight_le_sumBy (fun (k v : Bytes) => k.length + v.length + 32) map field
    simp only [insertFields]
    cases hold : map.get? field with
    | some old =>
      rw [hold, Option.elim_some] at hinsert hle
      have hsize : hashSize map - old.length + value.length =
          hashSize (map.insert field value) := by
        simp only [hashSize]
        omega
      simp only
      rw [Delta.run_resize (by simp only [hashSize]; omega), hsize]
      exact hrest
    | none =>
      rw [hold, Option.elim_none] at hinsert
      have hsize : hashSize map + (field.length + value.length + 32) =
          hashSize (map.insert field value) := by
        simp only [hashSize]
        omega
      simp only [Delta.run]
      rw [hsize]
      exact hrest

theorem sound_editHset (fields : List (Bytes × Bytes)) : SoundEdits (editHset fields) := by
  intro d e h
  cases d with
  | hash map =>
    cases h
    exact insertFields_run fields map
  | _ => cases h

theorem removeFields_run (fields : List Bytes) (map : Table Bytes Bytes) :
    Delta.run (hashSize map) (removeFields map fields).1 =
      some (hashSize (removeFields map fields).2.1) := by
  induction fields generalizing map with
  | nil => rfl
  | cons f fields ih =>
    have herase := Table.sumBy_erase (fun k v => k.length + v.length + 32) map f
    simp only [removeFields]
    cases hval : map.get? f with
    | some val =>
      rw [hval, Option.elim_some] at herase
      have hsize : hashSize map - (f.length + val.length + 32) = hashSize (map.erase f) := by
        simp only [hashSize]
        omega
      simp only [Delta.run]
      rw [if_pos (by simp only [hashSize]; omega), hsize]
      exact ih (map.erase f)
    | none => exact ih map

theorem sound_editHdel (fields : List Bytes) : SoundEdits (editHdel fields) := by
  intro d e h
  cases d with
  | hash map =>
    cases h
    exact removeFields_run fields map
  | _ => cases h

theorem insertMembers_run (members : List Bytes) (set : Table Bytes Unit) :
    Delta.run (setSize set) (insertMembers set members).1 =
      some (setSize (insertMembers set members).2.1) := by
  induction members generalizing set with
  | nil => rfl
  | cons m members ih =>
    have hinsert := Table.sumBy_insert (fun k _ => k.length + 16) set m ()
    simp only [insertMembers]
    by_cases hm : set.contains m = true
    · rw [if_pos hm]
      exact ih set
    · have hnone : set.get? m = none := by simpa [Table.contains] using hm
      rw [hnone, Option.elim_none] at hinsert
      have hsize : setSize set + (m.length + 16) = setSize (set.insert m ()) := by
        simp only [setSize]
        omega
      rw [if_neg hm]
      simp only [Delta.run]
      rw [hsize]
      exact ih (set.insert m ())

theorem sound_editSadd (members : List Bytes) : SoundEdits (editSadd members) := by
  intro d e h
  cases d with
  | set s =>
    cases h
    exact insertMembers_run members s
  | _ => cases h

theorem removeMembers_run (members : List Bytes) (set : Table Bytes Unit) :
    Delta.run (setSize set) (removeMembers set members).1 =
      some (setSize (removeMembers set members).2.1) := by
  induction members generalizing set with
  | nil => rfl
  | cons m members ih =>
    have herase := Table.sumBy_erase (fun k _ => k.length + 16) set m
    simp only [removeMembers]
    by_cases hm : set.contains m = true
    · obtain ⟨u, hu⟩ := Option.isSome_iff_exists.mp hm
      rw [hu, Option.elim_some] at herase
      have hsize : setSize set - (m.length + 16) = setSize (set.erase m) := by
        simp only [setSize]
        omega
      rw [if_pos hm]
      simp only [Delta.run]
      rw [if_pos (by simp only [setSize]; omega), hsize]
      exact ih (set.erase m)
    · rw [if_neg hm]
      exact ih set

theorem sound_editSrem (members : List Bytes) : SoundEdits (editSrem members) := by
  intro d e h
  cases d with
  | set s =>
    cases h
    exact removeMembers_run members s
  | _ => cases h

end InMemoryCache
