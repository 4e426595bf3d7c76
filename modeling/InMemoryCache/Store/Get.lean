-- SUMMARY: The two-phase GET is atomic, whatever runs between its locks.
import InMemoryCache.Lib.TwoPhase
import InMemoryCache.Store.Run

/-!
# GET in two phases

`get` looks under the read lock, and only if it finds the entry expired it takes the write
lock and looks again, at the same `now`. In between the key may be deleted, replaced, given
another deadline or swept. Whatever happens, the call does what a `get` in one step does at
the moment of the last lock it took (`getSplit_atomic`).
-/

namespace InMemoryCache

open Lib

namespace Cell

/-- `get` in one step: a live string, the wrong type, or nothing, with an expired entry
removed. -/
def getOnce (key : Bytes) (clock : Clock) (c : Cell) : Except String (Option Bytes) × Cell :=
  match c.slot with
  | none => (.ok none, c.recordMiss)
  | some entry =>
    if entry.isExpired clock.now then
      (.ok none, ((c.remove key entry).recordExpiration 1).recordMiss)
    else
      (match entry.data with
        | .string b => .ok (some b)
        | _ => .error wrongTypeErr,
        (c.put { entry with lastAccessed := clock.millis }).recordHit)

section

variable {key : Bytes} {clock : Clock} {c : Cell} {entry : CacheEntry}

/-- The entry under the key: none, an expired one or a live one. -/
theorem slot_cases (c : Cell) (now : Instant) : c.slot = none ∨
    (∃ entry, c.slot = some entry ∧ entry.isExpired now = true) ∨
      ∃ entry, c.slot = some entry ∧ entry.isExpired now = false := by
  cases hslot : c.slot with
  | none => exact .inl rfl
  | some entry =>
    cases hexp : entry.isExpired now with
    | true => exact .inr (.inl ⟨entry, rfl, hexp⟩)
    | false => exact .inr (.inr ⟨entry, rfl, hexp⟩)

theorem getOnce_absent (h : c.slot = none) : getOnce key clock c = (.ok none, c.recordMiss) := by
  rw [getOnce, h]

theorem getOnce_expired (h : c.slot = some entry) (hexp : entry.isExpired clock.now = true) :
    getOnce key clock c =
      (.ok none, ((c.remove key entry).recordExpiration 1).recordMiss) := by
  rw [getOnce, h]
  exact if_pos hexp

theorem getOnce_live (h : c.slot = some entry) (hexp : entry.isExpired clock.now = false) :
    getOnce key clock c =
      (match entry.data with
        | .string b => .ok (some b)
        | _ => .error wrongTypeErr,
        (c.put { entry with lastAccessed := clock.millis }).recordHit) := by
  rw [getOnce, h]
  exact if_neg (Bool.eq_false_iff.mp hexp)

theorem getLive_eq_once (key : Bytes) (h : c.slot = some entry)
    (hexp : entry.isExpired clock.now = false) :
    getLive entry clock c = getOnce key clock c := by
  rw [getOnce_live h hexp, getLive]
  cases entry.data <;> rfl

theorem getRead_absent (h : c.slot = none) :
    getRead clock c = (some (.ok none), c.recordMiss) := by
  rw [getRead, h]

theorem getRead_expired (h : c.slot = some entry) (hexp : entry.isExpired clock.now = true) :
    getRead clock c = (none, c) := by
  rw [getRead, h]
  exact if_pos hexp

theorem getRead_live (key : Bytes) (h : c.slot = some entry)
    (hexp : entry.isExpired clock.now = false) :
    getRead clock c = (some (getOnce key clock c).1, (getOnce key clock c).2) := by
  rw [← getLive_eq_once key h hexp, getRead, h]
  exact if_neg (Bool.eq_false_iff.mp hexp)

theorem getWrite_eq_once (key : Bytes) (clock : Clock) (c : Cell) :
    getWrite key clock c = getOnce key clock c := by
  rw [getWrite, getOnce]
  cases hslot : c.slot with
  | none => rfl
  | some entry =>
    dsimp only
    split
    · rfl
    · rename_i hexp
      rw [getLive_eq_once key hslot (Bool.eq_false_iff.mpr hexp),
        getOnce_live hslot (Bool.eq_false_iff.mpr hexp)]

end

/-- Both phases agree with the one step where they answer. -/
theorem twoPhase_get (key : Bytes) (now : Instant) :
    TwoPhase (fun millis => getRead { now := now, millis := millis })
      (fun millis => getWrite key { now := now, millis := millis })
      (fun millis => getOnce key { now := now, millis := millis }) where
  answered {t c r c'} h := by
    rcases c.slot_cases now with hslot | ⟨entry, hslot, hexp⟩ | ⟨entry, hslot, hexp⟩
    · rw [getRead_absent hslot] at h
      rw [getOnce_absent hslot]
      cases h
      rfl
    · rw [getRead_expired hslot hexp] at h
      cases h
    · rw [getRead_live key hslot hexp] at h
      cases h
      rfl
  passed {t c c'} h := by
    rcases c.slot_cases now with hslot | ⟨entry, hslot, hexp⟩ | ⟨entry, hslot, hexp⟩
    · rw [getRead_absent hslot] at h
      cases h
    · rw [getRead_expired hslot hexp] at h
      cases h
      rfl
    · rw [getRead_live key hslot hexp] at h
      cases h
  acted t c := getWrite_eq_once key { now := now, millis := t } c

/-- Without anything in between, the two phases are the one step. -/
theorem get_eq_once (key : Bytes) (clock : Clock) (c : Cell) :
    get key clock c = getOnce key clock c := by
  have hsplit := (twoPhase_get key clock.now).split_self clock.millis c
  rw [← hsplit, get, TwoPhase.split]
  cases getRead clock c with
  | mk r c' => cases r <;> rfl

end Cell

namespace Db

variable {cfg : Config}

/-- The read-locked phase of `get`, which captured `now`. -/
def getRead (key : Bytes) (now : Instant) (millis : Nat) (db : Db cfg) :
    Option (Except String (Option Bytes)) × Db cfg :=
  db.locked key (Cell.getRead { now := now, millis := millis })

/-- The write-locked phase. -/
def getWrite (key : Bytes) (now : Instant) (millis : Nat) (db : Db cfg) :
    Except String (Option Bytes) × Db cfg :=
  db.locked key (Cell.getWrite key { now := now, millis := millis })

def getOnce (key : Bytes) (now : Instant) (millis : Nat) (db : Db cfg) :
    Except String (Option Bytes) × Db cfg :=
  db.locked key (Cell.getOnce key { now := now, millis := millis })

/-- `get`, with what the `others` do to the store between its two locks. -/
def getSplit (key : Bytes) (now : Instant) (millis millis' : Nat) (others : Db cfg → Db cfg)
    (db : Db cfg) : Except String (Option Bytes) × Db cfg :=
  TwoPhase.split (getRead key now) (getWrite key now) millis millis' others db

/-- A lock hands the phases of an operation on one cell to the store. -/
theorem twoPhase_locked {look : τ → Cell → Option ρ × Cell} {act once : τ → Cell → ρ × Cell}
    (h : TwoPhase look act once) (key : Bytes) :
    TwoPhase (fun t (db : Db cfg) => db.locked key (look t)) (fun t db => db.locked key (act t))
      (fun t db => db.locked key (once t)) where
  answered {t db r db'} hlook := by
    cases hcell : look t (db.cellAt (getShardIndex cfg key) key) with
    | mk r' c =>
      simp only [locked, lockedAt, hcell] at hlook ⊢
      cases hlook
      rw [h.answered hcell]
  passed {t db db'} hlook := by
    cases hcell : look t (db.cellAt (getShardIndex cfg key) key) with
    | mk r' c =>
      simp only [locked, lockedAt, hcell] at hlook
      cases hlook
      rw [h.passed hcell, putCellAt_cellAt]
  acted t db := by
    have hact : act t = once t := funext (h.acted t)
    rw [hact]

theorem twoPhase_get (key : Bytes) (now : Instant) :
    TwoPhase (getRead key now) (getWrite key now)
      (getOnce key now : Nat → Db cfg → Except String (Option Bytes) × Db cfg) :=
  twoPhase_locked (Cell.twoPhase_get key now) key

/-- What a `get` of `key` at `now` does to the store and answers. -/
structure Gets (key : Bytes) (now : Instant) (before after : Db cfg)
    (result : Except String (Option Bytes)) : Prop where
  /-- A value that is live under the key. -/
  value : ∀ b, result = .ok (some b) ↔
    ∃ entry, before.entry key = some entry ∧ entry.isExpired now = false ∧ entry.data = .string b
  /-- The live entry is no string. -/
  wrongType : result = .error wrongTypeErr ↔
    ∃ entry, before.entry key = some entry ∧ entry.isExpired now = false ∧
      ∀ b, entry.data ≠ .string b
  /-- The key is absent or expired. -/
  nothing : result = .ok none ↔
    ∀ entry, before.entry key = some entry → entry.isExpired now = true
  /-- Only an expired entry is removed, and counted; a live one keeps its value and deadline. -/
  kept : ∀ entry, before.entry key = some entry → entry.isExpired now = false →
    (∃ millis, after.entry key = some { entry with lastAccessed := millis }) ∧
      after.memory = before.memory ∧ after.metrics = before.metrics.recordHit
  removed : ∀ entry, before.entry key = some entry → entry.isExpired now = true →
    after.entry key = none ∧ after.memory = before.memory.sub (entry.sizeBytes key) ∧
      after.metrics = (before.metrics.recordExpiration 1).recordMiss
  absent : before.entry key = none → after.entry key = none ∧ after.memory = before.memory ∧
    after.metrics = before.metrics.recordMiss
  /-- No other entry changes. -/
  others : ∀ i k, ¬ (i = getShardIndex cfg key ∧ k = key) →
    (after.shards i).get? k = (before.shards i).get? k
  /-- A hit or a miss is counted, and not both. -/
  counted : after.metrics.hits + after.metrics.misses =
    before.metrics.hits + before.metrics.misses + 1

section

variable {key : Bytes} {now : Instant} {millis : Nat} {db : Db cfg} {entry : CacheEntry}

theorem gets_absent (h : db.entry key = none) :
    Gets key now db (db.getOnce key now millis).2 (db.getOnce key now millis).1 := by
  rw [getOnce, locked, lockedAt, Cell.getOnce_absent h]
  exact
    { value := by simp [h]
      wrongType := by simp [h]
      nothing := by simp [h]
      kept := by simp [h]
      removed := by simp [h]
      absent := fun _ => ⟨(entry_putCellAt db key _).trans h, rfl, rfl⟩
      others := others_putCellAt db _
      counted := Metrics.lookups_recordMiss _ }

theorem gets_expired (h : db.entry key = some entry) (hexp : entry.isExpired now = true) :
    Gets key now db (db.getOnce key now millis).2 (db.getOnce key now millis).1 := by
  rw [getOnce, locked, lockedAt, Cell.getOnce_expired h hexp]
  exact
    { value := by simp [h, hexp]
      wrongType := by simp [h, hexp]
      nothing := by simp [h, hexp]
      kept := by simp [h, hexp]
      removed := fun e he _ => by
        rw [h, Option.some.injEq] at he
        subst he
        exact ⟨entry_putCellAt db key _, rfl, rfl⟩
      absent := by simp [h]
      others := others_putCellAt db _
      counted := Metrics.lookups_recordMiss _ }

theorem gets_live (h : db.entry key = some entry) (hexp : entry.isExpired now = false) :
    Gets key now db (db.getOnce key now millis).2 (db.getOnce key now millis).1 := by
  rw [getOnce, locked, lockedAt, Cell.getOnce_live h hexp]
  exact
    { value := fun b => by cases hdata : entry.data <;> simp [h, hexp, hdata]
      wrongType := by cases hdata : entry.data <;> simp [h, hexp, hdata]
      nothing := by cases hdata : entry.data <;> simp [h, hexp]
      kept := fun e he _ => by
        rw [h, Option.some.injEq] at he
        subst he
        exact ⟨⟨millis, entry_putCellAt db key _⟩, rfl, rfl⟩
      removed := by simp [h, hexp]
      absent := by simp [h]
      others := others_putCellAt db _
      counted := Metrics.lookups_recordHit _ }

end

/-- The one-step `get` answers and removes as its cases say. -/
theorem gets_getOnce (key : Bytes) (now : Instant) (millis : Nat) (db : Db cfg) :
    Gets key now db (db.getOnce key now millis).2 (db.getOnce key now millis).1 := by
  cases h : db.entry key with
  | none => exact gets_absent h
  | some entry =>
    cases hexp : entry.isExpired now with
    | true => exact gets_expired h hexp
    | false => exact gets_live h hexp

/-- The look has no answer exactly if it finds an expired entry. -/
theorem isNone_getRead (key : Bytes) (now : Instant) (millis : Nat) (db : Db cfg) :
    (db.getRead key now millis).1.isNone = (db.entry key).any fun entry => entry.isExpired now := by
  show (Cell.getRead _ (db.cellAt _ key)).1.isNone =
    (db.cellAt (getShardIndex cfg key) key).slot.any _
  rcases (db.cellAt (getShardIndex cfg key) key).slot_cases now with
    hslot | ⟨entry, hslot, hexp⟩ | ⟨entry, hslot, hexp⟩
  · rw [Cell.getRead_absent hslot, hslot]
    rfl
  · rw [Cell.getRead_expired hslot hexp, hslot]
    exact hexp.symm
  · rw [Cell.getRead_live key hslot hexp, hslot]
    exact hexp.symm

/-- The two phases are one step at the last lock: the first, unless it finds an expired entry. -/
theorem getSplit_eq (key : Bytes) (now : Instant) (millis millis' : Nat)
    (others : Db cfg → Db cfg) (db : Db cfg) :
    db.getSplit key now millis millis' others =
      if (db.entry key).any fun entry => entry.isExpired now then
        (others db).getOnce key now millis'
      else db.getOnce key now millis := by
  have hlook := isNone_getRead key now millis db
  rw [getSplit, (twoPhase_get key now).split_eq, TwoPhase.lastPhase, ← hlook]
  cases (db.getRead key now millis).1 <;> rfl

/-- Whatever the `others` do between the two locks, `get` is one step at the moment of the
last lock it took: at once, unless it finds an expired entry, and else after the others. -/
theorem getSplit_atomic (key : Bytes) (now : Instant) (millis millis' : Nat)
    (others : Db cfg → Db cfg) (db : Db cfg) :
    let expired := (db.entry key).any fun entry => entry.isExpired now
    let last := if expired then others db else db
    let step := last.getOnce key now (if expired then millis' else millis)
    db.getSplit key now millis millis' others = step ∧ Gets key now last step.2 step.1 := by
  intro expired last step
  refine ⟨?_, gets_getOnce key now _ last⟩
  rw [getSplit_eq]
  by_cases hexpired : ((db.entry key).any fun entry => entry.isExpired now) = true
  · simp only [step, last, expired, hexpired, if_true]
  · simp only [step, last, expired, hexpired, Bool.false_eq_true, if_false]

theorem get_eq_getOnce (db : Db cfg) (key : Bytes) (env : Env) :
    db.get key env = db.getOnce key env.clock.now env.clock.millis := by
  rw [get, funext (Cell.get_eq_once key env.clock)]
  rfl

/-- With a run of operations between the two locks, `get` is the whole method called before
them or after them. -/
theorem getSplit_run (key : Bytes) (now : Instant) (millis millis' : Nat)
    (draws : Nat → Nat → Nat × Nat) (between : List (Env × Op)) (db : Db cfg) :
    ∃ early m, (early = [] ∨ early = between) ∧
      db.getSplit key now millis millis' (fun db => db.run between) =
        (db.run early).get key { clock := { now := now, millis := m }, draws := draws } := by
  rw [getSplit_eq]
  split
  · exact ⟨between, millis', .inr rfl, (get_eq_getOnce (db.run between) key
      { clock := { now := now, millis := millis' }, draws := draws }).symm⟩
  · exact ⟨[], millis, .inl rfl, (get_eq_getOnce db key
      { clock := { now := now, millis := millis }, draws := draws }).symm⟩

end Db

end InMemoryCache
