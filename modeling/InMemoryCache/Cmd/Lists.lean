-- SUMMARY: A list key behaves as a double-ended queue, and LRANGE as a range of it.
import InMemoryCache.Cmd.Apply
import InMemoryCache.Lib.Deque
import InMemoryCache.Store.Invariant

/-!
# Lists

A key without a deadline that is absent or holds a list stands for a sequence, the empty
one while it is absent. `LPUSH`, `RPUSH`, `LPOP` and `RPOP` do to that sequence what they do
to a deque, through any run in which the key comes and goes. `LRANGE` computes its bounds in
`i64`; for every list that fits into memory none of these computations overflows.
-/

namespace InMemoryCache

open Lib Cmd

/-! ## Cells -/

/-- The sequence a slot stands for. -/
inductive Holds : Option CacheEntry → List Bytes → Prop where
  | absent : Holds none []
  | stored (list : List Bytes) (lastAccessed : Nat) :
    Holds (some { data := .list list, expiresAt := none, lastAccessed := lastAccessed }) list

namespace Cell

variable {key : Bytes} {clock : Clock} {c : Cell} {list : List Bytes}

theorem holds_upsert (h : Holds c.slot list)
    (push : List Bytes → Nat → List Bytes → List Bytes × Nat) (els : List Bytes) :
    (upsert (.list []) (editPush push els) key clock c).1 = .ok (push list 0 els).1.length ∧
      Holds (upsert (.list []) (editPush push els) key clock c).2.slot (push list 0 els).1 := by
  obtain ⟨slot, memory, metrics⟩ := c
  cases h with
  | absent => exact ⟨rfl, .stored _ _⟩
  | stored list t => exact ⟨rfl, .stored _ _⟩

theorem holds_shrinkTo {e : Edit ρ} (lastAccessed : Nat) {old : List Bytes}
    (h : e.data = .list list) :
    Holds (shrinkTo key ⟨.list old, none, lastAccessed⟩ e clock c).slot list := by
  rw [shrinkTo, h]
  split
  · rename_i hempty
    rw [List.isEmpty_iff.mp hempty]
    exact .absent
  · exact .stored _ _

theorem holds_pop (h : Holds c.slot list) {take : List Bytes → Option Bytes × List Bytes}
    (htake : take [] = (none, [])) :
    (pop (editPop take) key clock c).1 = .ok (take list).1 ∧
      Holds (pop (editPop take) key clock c).2.slot (take list).2 := by
  obtain ⟨slot, memory, metrics⟩ := c
  cases h with
  | absent =>
    rw [htake]
    exact ⟨rfl, .absent⟩
  | stored list t => exact ⟨rfl, holds_shrinkTo t rfl⟩

theorem lrange_holds (h : Holds c.slot list) (start stop : Int) :
    (lrange start stop clock c).1 = .ok (listRange list start stop) := by
  obtain ⟨slot, memory, metrics⟩ := c
  cases h with
  | absent => rfl
  | stored list t => rfl

end Cell

/-! ## Runs -/

/-- The command for a deque operation. -/
def Cmd.ListCmd.ofDeque (key : Bytes) : Deque.Op Bytes → ListCmd
  | .pushFront els => .lpush key els
  | .pushBack els => .rpush key els
  | .popFront => .lpop key
  | .popBack => .rpop key

/-- The frame for what a deque operation returns. -/
def Frame.ofDeque : Deque.Reply Bytes → Frame
  | .length n => .ofUsize n
  | .popped v => .ofValue v

namespace Db

variable {cfg : Config}

/-- The sequence a key stands for. -/
def HoldsList (db : Db cfg) (key : Bytes) (list : List Bytes) : Prop := Holds (db.entry key) list

/-- Apply list commands one after the other, each in its own environment. -/
def applyLists (db : Db cfg) : List (Env × ListCmd) → List Frame × Db cfg
  | [] => ([], db)
  | (env, cmd) :: cmds =>
    let (reply, db) := cmd.apply env db
    let (replies, db) := db.applyLists cmds
    (reply :: replies, db)

theorem holdsList_locked {db : Db cfg} {key : Bytes} {list list' : List Bytes} {ρ : Type} {r : ρ}
    {f : Cell → Except String ρ × Cell} (h : db.HoldsList key list)
    (hf : ∀ c : Cell, Holds c.slot list → (f c).1 = .ok r ∧ Holds (f c).2.slot list') :
    (db.locked key f).1 = .ok r ∧ (db.locked key f).2.HoldsList key list' := by
  obtain ⟨hresult, hslot⟩ := hf (db.cellAt (getShardIndex cfg key) key) h
  refine ⟨hresult, ?_⟩
  rw [HoldsList, entry_locked]
  exact hslot

/-- Each command does what its operation does to the sequence. -/
theorem apply_ofDeque {db : Db cfg} {key : Bytes} {list : List Bytes} (h : db.HoldsList key list)
    (env : Env) (op : Deque.Op Bytes) :
    ((ListCmd.ofDeque key op).apply env db).1 = Frame.ofDeque (Deque.step list op).1 ∧
      ((ListCmd.ofDeque key op).apply env db).2.HoldsList key (Deque.step list op).2 := by
  cases op with
  | pushFront els =>
    obtain ⟨hresult, hstate⟩ := holdsList_locked h fun c hc =>
      @Cell.holds_upsert key env.clock c list hc pushFront els
    rw [pushFront_eq] at hresult hstate
    exact ⟨congrArg (Frame.ofResult Frame.ofUsize) hresult, hstate⟩
  | pushBack els =>
    obtain ⟨hresult, hstate⟩ := holdsList_locked h fun c hc =>
      @Cell.holds_upsert key env.clock c list hc pushBack els
    rw [pushBack_eq] at hresult hstate
    exact ⟨congrArg (Frame.ofResult Frame.ofUsize) hresult, hstate⟩
  | popFront =>
    obtain ⟨hresult, hstate⟩ := holdsList_locked h fun c hc =>
      @Cell.holds_pop key env.clock c list hc popFront rfl
    have hpop : popFront list = (list.head?, list.tail) := by cases list <;> rfl
    rw [hpop] at hresult hstate
    exact ⟨congrArg (Frame.ofResult Frame.ofValue) hresult, hstate⟩
  | popBack =>
    obtain ⟨hresult, hstate⟩ := holdsList_locked h fun c hc =>
      @Cell.holds_pop key env.clock c list hc popBack rfl
    exact ⟨congrArg (Frame.ofResult Frame.ofValue) hresult, hstate⟩

/-- A run of the commands is a run of the deque. -/
theorem applyLists_ofDeque {db : Db cfg} {key : Bytes} {list : List Bytes}
    (h : db.HoldsList key list) (ops : List (Env × Deque.Op Bytes)) :
    let done := db.applyLists (ops.map fun x => (x.1, ListCmd.ofDeque key x.2))
    let sequence := Deque.run list (ops.map Prod.snd)
    done.1 = sequence.1.map Frame.ofDeque ∧ done.2.HoldsList key sequence.2 := by
  induction ops generalizing db list with
  | nil => exact ⟨rfl, h⟩
  | cons x ops ih =>
    obtain ⟨hreply, hnext⟩ := apply_ofDeque h x.1 x.2
    obtain ⟨hreplies, hlast⟩ := ih hnext
    exact ⟨List.cons_eq_cons.mpr ⟨hreply, hreplies⟩, hlast⟩

end Db

/-! ## LRANGE -/

/-- The slice is the range between the two bounds, each counted from its end. -/
theorem listRange_eq (list : List Bytes) (start stop : Int) :
    listRange list start stop = Deque.between list (Deque.fromEnd list.length start)
      (Deque.fromEnd list.length stop) := by
  rw [listRange]
  dsimp only
  rw [← Deque.fromEnd, ← Deque.fromEnd]
  generalize Deque.fromEnd list.length start = s
  generalize Deque.fromEnd list.length stop = e
  -- clamping the bounds to the list leaves out no position
  have hclamp : Deque.between list s e = Deque.between list (if s < 0 then 0 else s)
      (if e ≥ (list.length : Int) then (list.length : Int) - 1 else e) := by
    refine Deque.between_congr fun i hi => ?_
    split <;> split <;> omega
  rw [hclamp]
  have hlow : 0 ≤ if s < 0 then 0 else s := by
    split <;> omega
  have hhigh : (if e ≥ (list.length : Int) then (list.length : Int) - 1 else e) < list.length := by
    split <;> omega
  generalize (if s < 0 then 0 else s) = s' at hlow
  generalize (if e ≥ (list.length : Int) then (list.length : Int) - 1 else e) = e' at hhigh
  split
  · exact (Deque.between_eq_nil fun i hi => by omega).symm
  · split
    · exact (Deque.between_eq_nil fun i hi => by omega).symm
    · exact (Deque.between_eq hlow hhigh).symm

/-- The `i64` of a value, unless it overflows. -/
def checkedI64 (z : Int) : Option Int64 :=
  if -2 ^ 63 ≤ z ∧ z < 2 ^ 63 then some (Int64.ofInt z) else none

/-- A negative index counts from the end: `len + start`. -/
def indexI64 (len i : Int64) : Option Int64 :=
  if i < 0 then checkedI64 (len.toInt + i.toInt) else some i

/-- The first index is 0 at least. -/
def firstI64 (s : Int64) : Int64 := if s < 0 then 0 else s

/-- The last index is `len - 1` at most. -/
def lastI64 (len e : Int64) : Option Int64 :=
  if e ≥ len then checkedI64 (len.toInt - 1) else some e

/-- The index normalisation of `lrange` and its slice, in `i64`. There is no result if an
addition or a subtraction overflows. -/
def lrangeI64 (list : List Bytes) (start stop : Int64) : Option (List Bytes) :=
  let len := Int64.ofNat list.length
  if len = 0 then some []
  else do
    let s ← indexI64 len start
    let e ← indexI64 len stop
    let s := firstI64 s
    let e ← lastI64 len e
    if s > e ∨ s ≥ len then some []
    else
      some ((List.range' s.toInt.toNat (e.toInt - s.toInt + 1).toNat).filterMap fun i => list[i]?)

theorem checkedI64_eq {z : Int} (hlow : -2 ^ 63 ≤ z) (hhigh : z < 2 ^ 63) :
    ∃ i, checkedI64 z = some i ∧ i.toInt = z :=
  ⟨Int64.ofInt z, if_pos ⟨hlow, hhigh⟩, Int64.toInt_ofInt_of_le hlow hhigh⟩

/-- The length is not negative, so a negative index is added without overflow. -/
theorem indexI64_eq {len : Int64} (hlen : 0 ≤ len.toInt) (i : Int64) :
    ∃ s, indexI64 len i = some s ∧
      s.toInt = if i.toInt < 0 then len.toInt + i.toInt else i.toInt := by
  have hlow := i.le_toInt
  have hhigh := len.toInt_lt
  rw [indexI64]
  by_cases hi : i < 0
  · have hneg : i.toInt < 0 := Int64.lt_iff_toInt_lt.mp hi
    rw [if_pos hi, if_pos hneg]
    exact checkedI64_eq (by omega) (by omega)
  · have hneg : ¬ i.toInt < 0 := fun h => hi (Int64.lt_iff_toInt_lt.mpr h)
    rw [if_neg hi, if_neg hneg]
    exact ⟨i, rfl, rfl⟩

theorem lastI64_eq {len : Int64} (hlen : 0 ≤ len.toInt) (e : Int64) :
    ∃ e', lastI64 len e = some e' ∧
      e'.toInt = if e.toInt ≥ len.toInt then len.toInt - 1 else e.toInt := by
  have hhigh := len.toInt_lt
  rw [lastI64]
  by_cases he : e ≥ len
  · have hle : e.toInt ≥ len.toInt := Int64.le_iff_toInt_le.mp he
    rw [if_pos he, if_pos hle]
    exact checkedI64_eq (by omega) (by omega)
  · have hle : ¬ e.toInt ≥ len.toInt := fun h => he (Int64.le_iff_toInt_le.mpr h)
    rw [if_neg he, if_neg hle]
    exact ⟨e, rfl, rfl⟩

theorem toInt_firstI64 (s : Int64) :
    (firstI64 s).toInt = if s.toInt < 0 then 0 else s.toInt := by
  rw [firstI64]
  by_cases hs : s < 0
  · have hneg : s.toInt < 0 := Int64.lt_iff_toInt_lt.mp hs
    rw [if_pos hs, if_pos hneg, Int64.toInt_zero]
  · have hneg : ¬ s.toInt < 0 := fun h => hs (Int64.lt_iff_toInt_lt.mpr h)
    rw [if_neg hs, if_neg hneg]

/-- Nothing overflows, and the slice is that of unbounded integers. -/
theorem lrangeI64_eq {list : List Bytes} (hlen : list.length < 2 ^ 63) (start stop : Int64) :
    lrangeI64 list start stop = some (listRange list start.toInt stop.toInt) := by
  have hn : (Int64.ofNat list.length).toInt = list.length := Int64.toInt_ofNat_of_lt hlen
  have hpos : 0 ≤ (Int64.ofNat list.length).toInt := hn ▸ Int.natCast_nonneg _
  obtain ⟨s, hs, hsv⟩ := indexI64_eq hpos start
  obtain ⟨e, he, hev⟩ := indexI64_eq hpos stop
  obtain ⟨e', he', hev'⟩ := lastI64_eq hpos e
  have hsv' := toInt_firstI64 s
  have hzero : Int64.ofNat list.length = 0 ↔ (list.length : Int) = 0 := by
    rw [← Int64.toInt_inj, hn, Int64.toInt_zero]
  rw [hn] at hsv hev hev'
  rw [lrangeI64, listRange]
  dsimp only
  rw [hs, he, ← hsv, ← hev, ← hev', ← hsv']
  simp only [Option.bind_eq_bind, Option.bind_some, he', hzero, gt_iff_lt, ge_iff_le,
    Int64.lt_iff_toInt_lt, Int64.le_iff_toInt_le, hn]
  split
  · rfl
  · split <;> rfl

namespace Db

variable {cfg : Config}

theorem apply_lrange {db : Db cfg} {key : Bytes} {list : List Bytes} (h : db.HoldsList key list)
    (env : Env) (start stop : Int64) :
    ((ListCmd.lrange key start stop).apply env db).1 =
      Frame.ofBulks (listRange list start.toInt stop.toInt) := by
  have hresult : (db.lrange key start stop env).1 = .ok (listRange list start.toInt stop.toInt) :=
    @Cell.lrange_holds env.clock (db.cellAt (getShardIndex cfg key) key) list h start.toInt stop.toInt
  exact congrArg (Frame.ofResult Frame.ofBulks) hresult

/-- Runs of the list commands on a key reply and leave what the deque does, nothing gets lost
or duplicated on the way, and `LRANGE` then returns the elements between its two bounds,
computed without overflow for every list that a `VecDeque` can hold. -/
theorem list_deque {db : Db cfg} {key : Bytes} {list : List Bytes} (h : db.HoldsList key list)
    (ops : List (Env × Deque.Op Bytes)) :
    let done := db.applyLists (ops.map fun x => (x.1, ListCmd.ofDeque key x.2))
    let sequence := Deque.run list (ops.map Prod.snd)
    done.1 = sequence.1.map Frame.ofDeque ∧
      done.2.HoldsList key sequence.2 ∧
      ((ops.map Prod.snd).flatMap Deque.Op.pushed ++ list).Perm
        (sequence.1.flatMap Deque.Reply.taken ++ sequence.2) ∧
      ∀ env start stop,
        let range := Deque.between sequence.2 (Deque.fromEnd sequence.2.length start.toInt)
          (Deque.fromEnd sequence.2.length stop.toInt)
        ((ListCmd.lrange key start stop).apply env done.2).1 = Frame.ofBulks range ∧
          (sequence.2.length < 2 ^ 63 → lrangeI64 sequence.2 start stop = some range) := by
  intro done sequence
  obtain ⟨hreplies, hholds⟩ := applyLists_ofDeque h ops
  refine ⟨hreplies, hholds, Deque.perm_run list _, fun env start stop => ?_⟩
  dsimp only
  rw [← listRange_eq]
  exact ⟨apply_lrange hholds env start stop, fun hlen => lrangeI64_eq hlen start stop⟩

/-- A list is pushed to at both ends, emptied, and pushed to again. -/
theorem list_deque_emptied :
    let env := (Ctx.reading 0).toEnv
    ((empty : Db (.standard 0 List.length)).applyLists
      [(env, .lpush [107] [[97], [98]]), (env, .rpush [107] [[99]]), (env, .lpop [107]),
        (env, .rpop [107]), (env, .lpop [107]), (env, .rpop [107]), (env, .rpush [107] [[100]])]).1 =
      [.integer 2, .integer 3, .bulk [98], .bulk [99], .bulk [97], .null, .integer 1] :=
  (list_deque (show (empty : Db (.standard 0 List.length)).HoldsList [107] [] from .absent)
    [((Ctx.reading 0).toEnv, .pushFront [[97], [98]]), ((Ctx.reading 0).toEnv, .pushBack [[99]]),
      ((Ctx.reading 0).toEnv, .popFront), ((Ctx.reading 0).toEnv, .popBack),
      ((Ctx.reading 0).toEnv, .popFront), ((Ctx.reading 0).toEnv, .popBack),
      ((Ctx.reading 0).toEnv, .pushBack [[100]])]).1

end Db

end InMemoryCache
