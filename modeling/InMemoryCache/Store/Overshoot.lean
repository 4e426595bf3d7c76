-- SUMMARY: How far concurrent SETs can take the store past its memory limit.
import InMemoryCache.Lib.Books
import InMemoryCache.Store.Interleaved

/-!
# Past the limit

`set` makes room first and stores later, and in between other threads may store what they made
room for. Each of them saw that its own entry fits. The store can therefore be over its limit by
the entries of all threads but one, and by no more, in every interleaving in which no `SET`
gives up making room.
-/

namespace InMemoryCache

open Lib

variable {cfg : Config}

-- ---------------------------------------------------------------------------
-- What a section adds
-- ---------------------------------------------------------------------------

/-- The operations that store nothing and write no collection. -/
def KeyOp.plain : KeyOp → Bool
  | .get | .lrange _ _ | .hget _ | .hgetall | .smembers | .sismember _ | .expire _ | .ttl | .pttl =>
    true
  | _ => false

theorem KeyOp.pushes_of_plain {op : KeyOp} (h : op.plain = true) : op.pushes = false := by
  cases op with
  | lpush | rpush | hset | sadd => cases h
  | _ => rfl

namespace Cell

variable {key : Bytes} {clock : Clock} {c : Cell} {entry : CacheEntry}

theorem weight_touch {entry' : CacheEntry} (hslot : c.slot = some entry)
    (hdata : entry'.data = entry.data) : (c.put entry').weight key = c.weight key := by
  rw [weight_some hslot, weight_some (c := c.put entry') rfl, CacheEntry.sizeBytes, hdata]
  rfl

theorem weight_lookup {ρ : Type} {absent : ρ} {read : DataType → Option (ρ × Bool)} :
    (lookup absent read clock c).2.weight key = c.weight key := by
  rw [lookup]
  cases hslot : c.slot with
  | none => rfl
  | some entry =>
    dsimp only
    split
    · rfl
    · cases read entry.data with
      | none => rfl
      | some r =>
        dsimp only
        split <;> exact weight_touch hslot rfl

theorem weight_get_le : (get key clock c).2.weight key ≤ c.weight key := by
  rw [get, getRead]
  cases hslot : c.slot with
  | none => exact le_rfl
  | some entry =>
    by_cases hexp : entry.isExpired clock.now
    · simp only [hexp, if_true, getWrite, hslot]
      exact Nat.zero_le _
    · simp only [hexp, Bool.false_eq_true, if_false]
      refine le_of_eq ?_
      rw [getLive]
      split <;> exact weight_touch hslot rfl

theorem weight_expire_le {duration : Duration} :
    (expire key duration clock c).2.weight key ≤ c.weight key := by
  rw [expire]
  cases hslot : c.slot with
  | none => exact le_rfl
  | some entry =>
    dsimp only
    split
    · exact Nat.zero_le _
    · cases Instant.add clock.now duration with
      | none => exact le_rfl
      | some deadline => exact (weight_touch hslot rfl).le

theorem weight_remaining {unit : Duration → Nat} :
    (remaining unit clock c).2.weight key = c.weight key := by
  rw [remaining]
  cases c.slot with
  | none => rfl
  | some entry =>
    dsimp only
    split
    · split <;> rfl
    · rfl

theorem weight_del_le : (del key c).2.weight key ≤ c.weight key := by
  rw [del]
  cases c.slot with
  | none => exact le_rfl
  | some entry => exact Nat.zero_le _

theorem weight_purge_le {now : Instant} : (purge key now c).2.weight key ≤ c.weight key := by
  rw [purge]
  cases c.slot with
  | none => exact le_rfl
  | some entry =>
    dsimp only
    split
    · exact Nat.zero_le _
    · exact le_rfl

end Cell

theorem KeyOp.weight_onCell_le {key : Bytes} {clock : Clock} {c : Cell} {op : KeyOp}
    (hplain : op.plain = true) : (op.onCell key clock c).2.weight key ≤ c.weight key := by
  cases op with
  | get => exact Cell.weight_get_le
  | lrange | hget | hgetall | smembers | sismember => exact Cell.weight_lookup.le
  | expire duration => exact Cell.weight_expire_le
  | ttl | pttl => exact Cell.weight_remaining.le
  | set | lpush | rpush | hset | sadd | lpop | rpop | hdel | srem => cases hplain

namespace Db

theorem totalSize_lockedAt_le {α : Type} {db : Db cfg} {i : Fin cfg.numShards} {key : Bytes}
    {f : Cell → α × Cell} {n : Nat}
    (h : (f (db.cellAt i key)).2.weight key ≤ (db.cellAt i key).weight key + n) :
    (db.lockedAt i key f).2.totalSize ≤ db.totalSize + n := by
  obtain ⟨others, hbefore, hafter⟩ := exists_others db i key
  rw [hbefore]
  show (db.putCellAt i key _).totalSize ≤ _
  rw [hafter]
  omega

theorem totalSize_purgeKeys_le (i : Fin cfg.numShards) (now : Instant) (keys : List Bytes)
    (db : Db cfg) : (Db.purgeKeys i now keys db).2.totalSize ≤ db.totalSize := by
  induction keys generalizing db with
  | nil => exact le_rfl
  | cons key keys ih =>
    have hpurge : (db.lockedAt i key (Cell.purge key now)).2.totalSize ≤ db.totalSize + 0 :=
      totalSize_lockedAt_le Cell.weight_purge_le
    exact (ih _).trans hpurge

-- ---------------------------------------------------------------------------
-- Room made and not yet used
-- ---------------------------------------------------------------------------

/-- What a task adds next: a `SET` that has made room stores its entry. -/
def Task.adds : Task cfg → Nat
  | .insert c => c.newSize
  | _ => 0

/-- A task that writes no collection and stores no entry above `bound`. -/
def Task.Plain (bound : Nat) (task : Task cfg) : Prop :=
  match task with
  | .room c | .insert c => c.newSize ≤ bound
  | .sample after _ _ | .remove after _ _ => ∀ c, after = some c → c.newSize ≤ bound
  | .on _ op _ => op.plain = true
  | _ => True

def Call.Plain (bound : Nat) : Call → Prop
  | .on key (.set value expiresAt) clock =>
    (Setting.mk key value expiresAt clock).newSize ≤ bound
  | .on _ op _ => op.plain = true
  | _ => True

/-- A `SET` stops making room although its entry does not fit: it found no candidate, or the
candidate was gone. -/
def Task.givesUp (task : Task cfg) (db : Db cfg) : Bool :=
  match task with
  | .sample (some _) 0 oldest => oldest.1.isNone
  | .remove (some _) i key => !(db.removeOldest i key).1
  | _ => false

section Section

variable {db : Db cfg} {task : Task cfg} {bound : Nat}

theorem plain_enter {call : Call} (h : call.Plain bound) : (enter call : Task cfg).Plain bound := by
  cases call with
  | on key op clock =>
    cases op with
    | get => trivial
    | _ => exact h
  | evict sampleSize =>
    intro c hc
    cases hc
  | _ => trivial

theorem plain_next (h : task.Plain bound) {d : Input} {next : Task cfg}
    (hnext : (task.step d db).2 = .inl next) : next.Plain bound := by
  cases follows_of_step hnext with
  | full c =>
    intro c' hc'
    cases hc'
    exact h
  | fits | sample | found => exact h
  | unfound c | removed c | gone c => exact h c rfl
  | _ => trivial

theorem creates_of_plain (h : task.Plain bound) : task.creates db = false := by
  cases task with
  | on key op now =>
    show (op.pushes && _) = false
    rw [KeyOp.pushes_of_plain h, Bool.false_and]
  | _ => rfl

theorem adds_le (h : task.Plain bound) : task.adds ≤ bound := by
  cases task with
  | insert c => exact h
  | _ => exact Nat.zero_le _

/-- A section that stores nothing. -/
theorem totalSize_section_le (h : task.Plain bound) (hinsert : ∀ c, task ≠ .insert c) (d : Input) :
    (task.step d db).1.totalSize ≤ db.totalSize := by
  refine section_keeps (P := fun s => s.totalSize ≤ db.totalSize) d le_rfl
    (fun key op clock hop => ?_) (fun i key _ => ?_) (fun m hs => hs)
    fun i now keys => totalSize_purgeKeys_le i now keys db
  · have hplain : op.plain = true := by
      cases task with
      | insert c => exact absurd rfl (hinsert c)
      | get | getWrite =>
        cases hop
        rfl
      | on =>
        cases hop
        exact h
      | _ => cases hop
    exact totalSize_lockedAt_le (n := 0) (KeyOp.weight_onCell_le hplain)
  · exact totalSize_lockedAt_le (n := 0) Cell.weight_del_le

theorem totalSize_insert_le (c : Setting) (d : Input) :
    ((Task.insert c).step d db).1.totalSize ≤ db.totalSize + c.newSize := by
  show (db.lockedAt _ c.key fun cell =>
    ((), Cell.set c.key c.value c.expiresAt c.clock cell)).2.totalSize ≤ _
  have hweight : ∀ cell, (Cell.set c.key c.value c.expiresAt c.clock cell).weight c.key =
      c.newSize := by
    intro cell
    rw [Cell.set]
    cases cell.slot <;> rfl
  exact totalSize_lockedAt_le ((hweight _).le.trans (Nat.le_add_left _ _))

/-- The entry of a `SET` that goes on to store it fits, unless the `SET` gives up making room. -/
theorem insert_fits (hmax : cfg.maxmemory > 0) (haccounted : db.Accounted)
    (hgives : task.givesUp db = false) {d : Input} {c : Setting}
    (hwrap : db.totalSize + d.underway + c.newSize < U64.size)
    (h : (task.step d db).2 = .inl (.insert c)) : db.totalSize + c.newSize ≤ cfg.maxmemory := by
  cases follows_of_step h with
  | fits c hfits =>
    have hfits := hfits hmax
    rw [haccounted.currentMemory_eq (by omega),
      Nat.mod_eq_of_lt (a := db.totalSize + d.underway) (by omega), Nat.mod_eq_of_lt hwrap] at hfits
    omega
  | unfound c => cases hgives
  | gone c i key hgone =>
    rw [Task.givesUp, hgone] at hgives
    cases hgives

/-- A section adds what its task was to add, or what it has seen to fit is added next. -/
theorem adds_section (hmax : cfg.maxmemory > 0) (haccounted : db.Accounted)
    (hplain : task.Plain bound) (hgives : task.givesUp db = false) {d : Input}
    (hwrap : db.totalSize + d.underway + bound < U64.size) :
    (task.step d db).1.totalSize + (task.step d db).2.elim Task.adds (fun _ => 0) ≤
        db.totalSize + task.adds ∨
      (task.step d db).1.totalSize + (task.step d db).2.elim Task.adds (fun _ => 0) ≤
        cfg.maxmemory := by
  by_cases hinsert : ∃ c, task = .insert c
  · obtain ⟨c, rfl⟩ := hinsert
    exact .inl (totalSize_insert_le c d)
  have hsize : (task.step d db).1.totalSize ≤ db.totalSize :=
    totalSize_section_le hplain (fun c hc => hinsert ⟨c, hc⟩) d
  have hle : (task.step d db).1.totalSize ≤ db.totalSize + task.adds :=
    hsize.trans (Nat.le_add_right _ _)
  cases hnext : (task.step d db).2 with
  | inr a => exact .inl hle
  | inl next =>
    cases next with
    | insert c =>
      have hc : c.newSize ≤ bound := plain_next hplain hnext
      have hfits := insert_fits hmax haccounted hgives (by omega) hnext
      exact .inr ((Nat.add_le_add_right hsize _).trans hfits)
    | _ => exact .inl hle

end Section

-- ---------------------------------------------------------------------------
-- Runs
-- ---------------------------------------------------------------------------

/-- The events of `threads` threads whose `SET`s store entries up to `bound`, make room without
giving up, and read a memory counter that does not overflow. -/
def Restrained (threads bound : Nat) (s : Pool cfg) (e : PoolEvent) : Prop :=
  e.thread < threads ∧
    match e with
    | .call _ call => call.Plain bound
    | .step t d =>
      cfg.maxmemory + threads * bound + d.underway < U64.size ∧
        (s.running t).all (fun task => !task.givesUp s.shared) = true

/-- What holds in every state of a restrained run. -/
structure Overshoots (threads bound : Nat) (s : Pool cfg) : Prop where
  keeps : s.Keeps Accounted (Task.Plain bound)
  within : s.Within totalSize Task.adds threads cfg.maxmemory bound

theorem Overshoots.event (hmax : cfg.maxmemory > 0) {threads bound : Nat} {s : Pool cfg}
    {e : PoolEvent} (hs : Overshoots threads bound s) (he : Restrained threads bound s e) :
    Overshoots threads bound (s.perform (methods cfg) e) := by
  have hbound := fun t task htask => adds_le (hs.keeps.tasks t task htask)
  cases e with
  | call t call =>
    obtain ⟨ht, hcall⟩ := he
    refine ⟨hs.keeps.perform (fun t' call' he' => ?_) (fun t' d task he' => by cases he'),
      hs.within.call (fun call => ?_) ht call⟩
    · cases he'
      exact plain_enter hcall
    · cases call with
      | on key op clock => cases op <;> rfl
      | _ => rfl
  | step t d =>
    obtain ⟨ht, hwrap, hgives⟩ := he
    change t < threads at ht
    have hsize : s.shared.totalSize + d.underway + bound < U64.size := by
      have hwithin : s.shared.totalSize + _ ≤ cfg.maxmemory + (threads - 1) * bound := hs.within
      have hthreads : threads * bound = (threads - 1) * bound + bound := by
        rw [← Nat.succ_mul, Nat.succ_eq_add_one, Nat.sub_add_cancel (Nat.one_le_of_lt ht)]
      omega
    refine ⟨hs.keeps.perform (fun t' call he' => by cases he') fun t' d' task he' _ htask => ?_,
      hs.within.step hbound ht d fun task hrunning => ?_⟩
    · cases he'
      exact ⟨accounted_section hs.keeps.shared (creates_of_plain htask) d,
        fun next hnext => plain_next htask hnext⟩
    · rw [hrunning, Option.all_some, Bool.not_eq_true'] at hgives
      exact adds_section hmax hs.keeps.shared (hs.keeps.tasks t task hrunning) hgives hsize

/-- Threads that write strings only and make room before they store exceed the memory limit by
what all of them but one store, and by no more: in every state of every such run. -/
theorem limit_interleave (hmax : cfg.maxmemory > 0) {threads bound : Nat} {es : List PoolEvent}
    (h : Allowed (Threads.perform (methods cfg)) (Restrained threads bound) (Threads.start empty)
      es) :
    (interleave es : Pool cfg).shared.memory.total = (interleave es : Pool cfg).shared.totalSize ∧
      (interleave es : Pool cfg).shared.totalSize ≤ cfg.maxmemory + (threads - 1) * bound := by
  have hempty : (empty : Db cfg).totalSize = 0 := by simp [totalSize, empty]
  have hover := h.invariant (I := Overshoots threads bound)
    (fun s e hs he => hs.event hmax he)
    ⟨Threads.keeps_start accounted_empty, Threads.within_start (hempty.trans_le (Nat.zero_le _))⟩
  have hwithin : (interleave es : Pool cfg).shared.totalSize + _ ≤ _ := hover.within
  exact ⟨hover.keeps.shared.1, (Nat.le_add_right _ _).trans hwithin⟩

/-- Two `SET`s each see that their own entry fills the memory; both store. -/
theorem limit_interleave_two_sets :
    let cfg : Config :=
      { numShards := 1, numShards_pos := by decide, maxmemory := entryOverhead + 2,
        hash := List.length }
    let clock : Clock := { now := 0, millis := 0 }
    let d : Input := .of 0 (0, 0)
    let s : Pool cfg := interleave
      [.call 0 (.on [1] (.set [2] none) clock), .call 1 (.on [3] (.set [4] none) clock),
        .step 0 d, .step 1 d, .step 0 d, .step 1 d]
    (s.shared.totalSize = cfg.maxmemory + (entryOverhead + 2)) ∧
      s.shared.memory.total = s.shared.totalSize ∧
        s.shared.totalSize ≤ cfg.maxmemory + (2 - 1) * (entryOverhead + 2) := by
  intro cfg clock d s
  refine ⟨by decide +kernel, limit_interleave (by decide) ?_⟩
  exact ⟨⟨by decide, le_rfl⟩, ⟨by decide, le_rfl⟩, ⟨by decide, by decide, by rfl⟩,
    ⟨by decide, by decide, by rfl⟩, ⟨by decide, by decide, by rfl⟩,
    ⟨by decide, by decide, by rfl⟩, trivial⟩

end Db

end InMemoryCache
