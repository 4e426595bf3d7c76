-- SUMMARY: When the memory counter equals the total size of the stored entries.
import InMemoryCache.Store.Run

/-!
# Memory accounting

`Accounted` says that the counter holds the total size of the stored entries and
never went below zero. Every operation keeps it but one kind of step: a push that
creates a collection adds the elements to the counter and not the key and the entry
overhead, which the removal of the entry subtracts later.
-/

namespace InMemoryCache

open Lib

-- ---------------------------------------------------------------------------
-- The counter
-- ---------------------------------------------------------------------------

/-- The counter stands at `n` and has never wrapped. -/
def Memory.At (m : Memory) (n : Nat) : Prop := m.total = n ∧ m.wrapped = false

instance (m : Memory) (n : Nat) : Decidable (m.At n) := inferInstanceAs (Decidable (_ ∧ _))

theorem Memory.At.sub {m : Memory} {n k : Nat} (hm : m.At (n + k)) : (m.sub n).At k := by
  obtain ⟨htotal, hwrapped⟩ := hm
  refine ⟨?_, ?_⟩
  · simp only [Memory.sub, htotal]
    omega
  · have hlt : ¬ m.total < n := by omega
    simp only [Memory.sub, hwrapped, hlt, decide_false, Bool.or_self]

/-- Updates that stay above zero move the counter as `Delta.run` says. -/
theorem Memory.At.applyAll {m : Memory} {w v : Nat} {ds : List Delta} (hm : m.At w)
    (h : Delta.run w ds = some v) : (m.applyAll ds).At v := by
  induction ds generalizing m w with
  | nil =>
    cases h
    exact hm
  | cons d ds ih =>
    cases d with
    | add n =>
      refine ih (m := m.add n) ⟨?_, hm.2⟩ h
      simp only [Memory.add, hm.1]
      omega
    | sub n =>
      simp only [Delta.run, Option.ite_none_right_eq_some] at h
      have hle := h.1
      refine ih (m := m.sub n) (Memory.At.sub ?_) h.2
      rwa [show n + (w - n) = w by omega]

/-- The atomic drops by what is subtracted, as `fetch_sub` does. -/
theorem Memory.load_of_total_eq {m m' : Memory} {n : Nat} (h : m'.total = m.total - n) :
    (m'.load + n) % U64.size = m.load ∧ (n ≤ m.load → m'.load + n = m.load) := by
  simp only [Memory.load, h, U64.size]
  omega

-- ---------------------------------------------------------------------------
-- Operations on one key
-- ---------------------------------------------------------------------------

namespace Cell

/-- The size of the entry under the key, 0 without one. -/
def weight (key : Bytes) (c : Cell) : Nat := c.slot.elim 0 fun entry => entry.sizeBytes key

/-- The counter holds this entry's size and the `others`' bytes. -/
def Balanced (key : Bytes) (others : Nat) (c : Cell) : Prop :=
  c.memory.At (c.weight key + others)

variable {key : Bytes} {others : Nat} {clock : Clock} {c : Cell} {entry : CacheEntry}

theorem weight_some (h : c.slot = some entry) : c.weight key = entry.sizeBytes key := by
  rw [weight, h, Option.elim_some]

theorem weight_none (h : c.slot = none) : c.weight key = 0 := by
  rw [weight, h, Option.elim_none]

/-- Only the slot and the counter matter, and of an entry only its size. -/
theorem Balanced.of_weight {c' : Cell} (hc : c.Balanced key others) (hm : c'.memory = c.memory)
    (hw : c'.weight key = c.weight key) : c'.Balanced key others := by
  rwa [Balanced, hm, hw]

/-- Touching the time of access or the deadline of an entry. -/
theorem Balanced.touch {entry' : CacheEntry} (hc : c.Balanced key others)
    (hslot : c.slot = some entry) (hdata : entry'.data = entry.data) :
    (c.put entry').Balanced key others := by
  refine hc.of_weight rfl ?_
  rw [weight_some hslot, weight_some (c := c.put entry') rfl, CacheEntry.sizeBytes, hdata]
  rfl

theorem Balanced.remove (hc : c.Balanced key others) (hslot : c.slot = some entry) :
    (c.remove key entry).Balanced key others := by
  rw [Balanced, weight_some hslot] at hc
  rw [Balanced, weight_none (c := c.remove key entry) rfl, Nat.zero_add]
  exact hc.sub

/-- A sound edit of the stored value and the updates that go with it. -/
theorem Balanced.edit {e : Edit ρ} {entry' : CacheEntry} (hc : c.Balanced key others)
    (hslot : c.slot = some entry) (he : e.Sound entry.data) (hdata : entry'.data = e.data) :
    ((c.put entry').update e.deltas).Balanced key others := by
  have hrun := Delta.run_frame he (key.length + entryOverhead + others)
  rw [Balanced, weight_some hslot] at hc
  rw [Balanced, weight_some (c := (c.put entry').update e.deltas) rfl]
  have hbefore : entry.sizeBytes key + others =
      entry.data.size + (key.length + entryOverhead + others) := by
    rw [CacheEntry.sizeBytes]
    omega
  have hafter : entry'.sizeBytes key + others =
      e.data.size + (key.length + entryOverhead + others) := by
    rw [CacheEntry.sizeBytes, hdata]
    omega
  rw [hbefore] at hc
  rw [hafter]
  exact hc.applyAll hrun

theorem balanced_lookup {absent : ρ} {read : DataType → Option (ρ × Bool)}
    (hc : c.Balanced key others) : (lookup absent read clock c).2.Balanced key others := by
  rw [lookup]
  cases hslot : c.slot with
  | none => exact hc
  | some entry =>
    dsimp only
    split
    · exact hc
    · cases read entry.data with
      | none => exact hc
      | some r =>
        dsimp only
        split <;> exact hc.touch hslot rfl

theorem balanced_getLive (hc : c.Balanced key others) (hslot : c.slot = some entry) :
    (getLive entry clock c).2.Balanced key others := by
  have htouch : (c.put { entry with lastAccessed := clock.millis }).Balanced key others :=
    hc.touch hslot rfl
  rw [getLive]
  split <;> exact htouch

theorem balanced_get (hc : c.Balanced key others) :
    (get key clock c).2.Balanced key others := by
  rw [get, getRead]
  cases hslot : c.slot with
  | none => exact hc
  | some entry =>
    by_cases hexp : entry.isExpired clock.now
    · simp only [hexp, if_true, getWrite, hslot]
      exact hc.remove hslot
    · simp only [hexp, Bool.false_eq_true, if_false]
      exact balanced_getLive hc hslot

theorem balanced_remaining {unit : Duration → Nat} (hc : c.Balanced key others) :
    (remaining unit clock c).2.Balanced key others := by
  rw [remaining]
  cases c.slot with
  | none => exact hc
  | some entry =>
    dsimp only
    split
    · split <;> exact hc
    · exact hc

theorem balanced_set {value : Bytes} {expiresAt : Option Instant} (hc : c.Balanced key others) :
    (set key value expiresAt clock c).Balanced key others := by
  rw [set]
  generalize CacheEntry.new (.string value) expiresAt clock.millis = new
  cases hslot : c.slot with
  | none =>
    rw [Balanced, weight_none hslot] at hc
    refine hc.applyAll ?_
    simp only [Delta.run, weight_some (c := (c.put new).update _) rfl]
    rw [Option.some.injEq]
    omega
  | some old =>
    rw [Balanced, weight_some hslot] at hc
    refine hc.applyAll ?_
    rw [Delta.run_resize (by omega), Delta.run]
    simp only [weight_some (c := (c.put new).update _) rfl]
    rw [Option.some.injEq]
    omega

theorem balanced_shrinkTo {e : Edit ρ} (hc : c.Balanced key others) (hslot : c.slot = some entry)
    (he : e.Sound entry.data) : (shrinkTo key entry e clock c).Balanced key others := by
  rw [shrinkTo]
  split
  · have hedit : ((c.put { entry with data := e.data }).update e.deltas).Balanced key others :=
      hc.edit hslot he rfl
    exact hedit.remove rfl
  · exact hc.edit hslot he rfl

theorem balanced_pop {edit : DataType → Option (Edit (Option Bytes))} (hedit : SoundEdits edit)
    (hc : c.Balanced key others) : (pop edit key clock c).2.Balanced key others := by
  rw [pop]
  cases hslot : c.slot with
  | none => exact hc
  | some entry =>
    dsimp only
    split
    · exact hc.remove hslot
    · cases he : edit entry.data with
      | none => exact hc
      | some e =>
        dsimp only
        split <;> exact balanced_shrinkTo (hc.of_weight rfl rfl) hslot (hedit _ _ he)

theorem balanced_removal {edit : DataType → Option (Edit Nat)} (hedit : SoundEdits edit)
    (hc : c.Balanced key others) : (removal edit key clock c).2.Balanced key others := by
  rw [removal]
  cases hslot : c.slot with
  | none => exact hc
  | some entry =>
    dsimp only
    split
    · exact hc.remove hslot
    · cases he : edit entry.data with
      | none => exact hc
      | some e => exact balanced_shrinkTo hc hslot (hedit _ _ he)

theorem balanced_del (hc : c.Balanced key others) : (del key c).2.Balanced key others := by
  rw [del]
  cases hslot : c.slot with
  | none => exact hc
  | some entry => exact hc.remove hslot

theorem balanced_expire {duration : Duration} (hc : c.Balanced key others) :
    (expire key duration clock c).2.Balanced key others := by
  rw [expire]
  cases hslot : c.slot with
  | none => exact hc
  | some entry =>
    dsimp only
    split
    · exact hc.remove hslot
    · cases Instant.add clock.now duration with
      | none => exact hc
      | some deadline => exact hc.touch hslot rfl

theorem balanced_purge {now : Instant} (hc : c.Balanced key others) :
    (purge key now c).2.Balanced key others := by
  rw [purge]
  cases hslot : c.slot with
  | none => exact hc
  | some entry =>
    dsimp only
    split
    · exact hc.remove hslot
    · exact hc

/-! ## Pushes -/

/-- No entry, or an expired one. -/
def vacant (clock : Clock) (c : Cell) : Bool := c.slot.all fun entry => entry.isExpired clock.now

theorem balanced_evictExpired (hc : c.Balanced key others) :
    (c.evictExpired key clock).Balanced key others := by
  rw [evictExpired]
  cases hslot : c.slot with
  | none => exact hc
  | some entry =>
    dsimp only
    split
    · exact hc.remove hslot
    · exact hc

theorem slot_evictExpired_of_vacant (h : c.vacant clock = true) :
    (c.evictExpired key clock).slot = none := by
  rw [evictExpired]
  cases hslot : c.slot with
  | none => exact hslot
  | some entry =>
    rw [vacant, hslot, Option.all_some] at h
    dsimp only
    rw [if_pos h]
    rfl

variable {empty : DataType} {edit : DataType → Option (Edit Nat)}

/-- A push onto a live entry keeps the counter right. -/
theorem balanced_upsert (hedit : SoundEdits edit) (hc : c.Balanced key others)
    (hlive : c.vacant clock = false) : (upsert empty edit key clock c).2.Balanced key others := by
  cases hslot : c.slot with
  | none => simp [vacant, hslot] at hlive
  | some entry =>
    rw [vacant, hslot, Option.all_some] at hlive
    have hevict : c.evictExpired key clock = c := by simp [evictExpired, hslot, hlive]
    rw [upsert, hevict, orInsert, hslot]
    dsimp only
    cases he : edit entry.data with
    | none => exact hc
    | some e => exact hc.edit hslot (hedit _ _ he) rfl

/-- A push that creates the entry counts its elements only: the counter ends up short
by the key and the entry overhead. -/
theorem upsert_vacant (hedit : SoundEdits edit) (hc : c.Balanced key others)
    (hvacant : c.vacant clock = true) (hempty : empty.size = 0) (htype : (edit empty).isSome) :
    (upsert empty edit key clock c).2.memory.total + (key.length + entryOverhead : Nat) =
      ((upsert empty edit key clock c).2.weight key + others : Nat) := by
  obtain ⟨e, he⟩ := Option.isSome_iff_exists.mp htype
  have hevict : (c.evictExpired key clock).Balanced key others := balanced_evictExpired hc
  have hnone : (c.evictExpired key clock).slot = none := slot_evictExpired_of_vacant hvacant
  generalize hd : c.evictExpired key clock = d at hevict hnone
  have hnew : edit (CacheEntry.new empty none clock.millis).data = some e := he
  rw [upsert, hd, orInsert, hnone]
  simp only [hnew]
  rw [Balanced, weight_none hnone, Nat.zero_add] at hevict
  have hrun := Delta.run_frame (hedit _ _ he) others
  rw [hempty, Nat.zero_add] at hrun
  have hafter := hevict.applyAll hrun
  have htotal : (d.memory.applyAll e.deltas).total = (e.data.size + others : Nat) := hafter.1
  simp only [update, put, weight, Option.elim_some, CacheEntry.sizeBytes, htotal]
  omega

end Cell

/-- The operations that create a collection under a key without a live entry. -/
def KeyOp.pushes : KeyOp → Bool
  | .lpush _ | .rpush _ | .hset _ | .sadd _ => true
  | _ => false

theorem KeyOp.balanced_onCell {key : Bytes} {others : Nat} {clock : Clock} {c : Cell} {op : KeyOp}
    (hc : c.Balanced key others) (h : (op.pushes && c.vacant clock) = false) :
    (op.onCell key clock c).2.Balanced key others := by
  have hlive : op.pushes = true → c.vacant clock = false := by
    intro hp
    simpa [hp] using h
  cases op with
  | get => exact Cell.balanced_get hc
  | set value expiresAt => exact Cell.balanced_set hc
  | lpush els => exact Cell.balanced_upsert (sound_editLpush els) hc (hlive rfl)
  | rpush els => exact Cell.balanced_upsert (sound_editRpush els) hc (hlive rfl)
  | hset fields => exact Cell.balanced_upsert (sound_editHset fields) hc (hlive rfl)
  | sadd members => exact Cell.balanced_upsert (sound_editSadd members) hc (hlive rfl)
  | lpop => exact Cell.balanced_pop sound_editLpop hc
  | rpop => exact Cell.balanced_pop sound_editRpop hc
  | hdel fields => exact Cell.balanced_removal (sound_editHdel fields) hc
  | srem members => exact Cell.balanced_removal (sound_editSrem members) hc
  | lrange start stop => exact Cell.balanced_lookup hc
  | hget field => exact Cell.balanced_lookup hc
  | hgetall => exact Cell.balanced_lookup hc
  | smembers => exact Cell.balanced_lookup hc
  | sismember member => exact Cell.balanced_lookup hc
  | expire duration => exact Cell.balanced_expire hc
  | ttl => exact Cell.balanced_remaining hc
  | pttl => exact Cell.balanced_remaining hc

theorem KeyOp.short_onCell {key : Bytes} {others : Nat} {clock : Clock} {c : Cell} {op : KeyOp}
    (hc : c.Balanced key others) (h : (op.pushes && c.vacant clock) = true) :
    (op.onCell key clock c).2.memory.total + (key.length + entryOverhead : Nat) =
      ((op.onCell key clock c).2.weight key + others : Nat) := by
  obtain ⟨hpush, hvacant⟩ := Bool.and_eq_true_iff.mp h
  cases op with
  | lpush els => exact Cell.upsert_vacant (sound_editLpush els) hc hvacant rfl rfl
  | rpush els => exact Cell.upsert_vacant (sound_editRpush els) hc hvacant rfl rfl
  | hset fields => exact Cell.upsert_vacant (sound_editHset fields) hc hvacant rfl rfl
  | sadd members => exact Cell.upsert_vacant (sound_editSadd members) hc hvacant rfl rfl
  | _ => cases hpush

-- ---------------------------------------------------------------------------
-- The store
-- ---------------------------------------------------------------------------

namespace Db

variable {cfg : Config}

/-- The counter equals the total size of the stored entries, and no `sub_memory` has
taken it below zero. -/
def Accounted (db : Db cfg) : Prop := db.memory.At db.totalSize

instance (db : Db cfg) : Decidable db.Accounted := inferInstanceAs (Decidable (Memory.At _ _))

/-- The counter the code reads is that size, as long as it fits a `usize`. -/
theorem Accounted.currentMemory_eq {db : Db cfg} (h : db.Accounted) (hfits : db.totalSize < U64.size) :
    db.currentMemory = db.totalSize := by
  rw [currentMemory, Memory.load, h.1, Int.emod_eq_of_lt (by omega) (by omega), Int.toNat_natCast]

theorem accounted_empty : (empty : Db cfg).Accounted := by
  refine ⟨?_, rfl⟩
  have hzero : (empty : Db cfg).totalSize = 0 := by simp [totalSize, empty]
  rw [hzero]
  rfl

section Locked

variable {db : Db cfg} (i : Fin cfg.numShards) (key : Bytes)

/-- The other entries weigh the same before and after a locked operation. -/
theorem exists_others (db : Db cfg) (i : Fin cfg.numShards) (key : Bytes) :
    ∃ others, db.totalSize = (db.cellAt i key).weight key + others ∧
      ∀ c : Cell, (db.putCellAt i key c).totalSize = c.weight key + others := by
  have hle : (db.cellAt i key).weight key ≤
      (db.shards i).sumBy fun key entry => entry.sizeBytes key :=
    Table.weight_le_sumBy (fun key (entry : CacheEntry) => entry.sizeBytes key) (db.shards i) key
  have hsum : ∀ c : Cell, (db.putCellAt i key c).totalSize + (db.cellAt i key).weight key =
      db.totalSize + c.weight key := by
    intro c
    have hshards := db.sum_shards_putCellAt i key c
      (Table.sumBy fun key (entry : CacheEntry) => entry.sizeBytes key)
    have htable := Table.sumBy_overwrite (fun key (entry : CacheEntry) => entry.sizeBytes key)
      (db.shards i) key c.slot
    simp only [totalSize, Cell.weight, slot_cellAt]
    omega
  have hwhole : (db.cellAt i key).weight key ≤ db.totalSize := by
    have h := hsum { db.cellAt i key with slot := none }
    rw [Cell.weight_none (c := { db.cellAt i key with slot := none }) rfl] at h
    omega
  refine ⟨db.totalSize - (db.cellAt i key).weight key, by omega, fun c => ?_⟩
  have h := hsum c
  omega

theorem Accounted.lockedAt {f : Cell → α × Cell} (h : db.Accounted)
    (hf : ∀ others, (db.cellAt i key).Balanced key others →
      (f (db.cellAt i key)).2.Balanced key others) :
    (db.lockedAt i key f).2.Accounted := by
  obtain ⟨others, hbefore, hafter⟩ := exists_others db i key
  have hc : (db.cellAt i key).Balanced key others := by
    rw [Cell.Balanced, ← hbefore]
    exact h
  show Memory.At _ (db.putCellAt i key _).totalSize
  rw [hafter]
  exact hf others hc

end Locked

theorem Accounted.of_metrics {db : Db cfg} (h : db.Accounted) (m : Metrics) :
    ({ db with metrics := m } : Db cfg).Accounted := h

theorem Accounted.del {db : Db cfg} (h : db.Accounted) (keys : List Bytes) :
    (db.del keys).2.Accounted := by
  induction keys generalizing db with
  | nil => exact h
  | cons key keys ih => exact ih (h.lockedAt _ key fun _ hc => Cell.balanced_del hc)

theorem Accounted.purgeKeys {db : Db cfg} (h : db.Accounted) (i : Fin cfg.numShards)
    (now : Instant) (keys : List Bytes) : (Db.purgeKeys i now keys db).2.Accounted := by
  induction keys generalizing db with
  | nil => exact h
  | cons key keys ih => exact ih (h.lockedAt i key fun _ hc => Cell.balanced_purge hc)

theorem Accounted.evictLruStep {db : Db cfg} (h : db.Accounted) (sampleSize : Nat)
    (draws : Nat → Nat × Nat) : (Db.evictLruStep sampleSize draws db).2.Accounted :=
  evictLruStep_keeps (fun i key hs => hs.lockedAt i key fun _ hc => Cell.balanced_del hc)
    (fun m hs => hs.of_metrics m) h sampleSize draws

theorem Accounted.reserved {db : Db cfg} (h : db.Accounted) (key : Bytes) (env : Env) (op : KeyOp) :
    (db.reserved key env op).Accounted :=
  reserved_keeps (fun draws hs => hs.evictLruStep lruSampleSize draws) h key env op

/-- Whether a step creates a collection: a push onto a key without a live entry. -/
def createsCollection (db : Db cfg) (env : Env) : Op → Bool
  | .on key op =>
    op.pushes && (db.entry key).all fun entry => entry.isExpired env.clock.now
  | _ => false

theorem reserved_of_pushes {db : Db cfg} {key : Bytes} {env : Env} {op : KeyOp}
    (h : op.pushes = true) : db.reserved key env op = db := by
  cases op with
  | set value expiresAt => cases h
  | _ => rfl

theorem Accounted.perform {db : Db cfg} (h : db.Accounted) {env : Env} {op : Op}
    (hop : db.createsCollection env op = false) : (db.perform env op).2.Accounted := by
  cases op with
  | on key op =>
    simp only [Db.perform, performKey_eq]
    refine (h.reserved key env op).lockedAt _ key fun others hc => KeyOp.balanced_onCell hc ?_
    cases hp : op.pushes with
    | false => rfl
    | true =>
      rw [reserved_of_pushes hp]
      exact hp ▸ hop
  | del keys => exact h.del keys
  | keys pattern => exact h
  | purge sampleSize shard draws => exact (h.purgeKeys _ _ _).of_metrics _
  | evict sampleSize draws => exact h.evictLruStep sampleSize draws

/-- A step that creates a collection leaves the counter short. -/
theorem not_accounted_perform {db : Db cfg} (h : db.Accounted) {env : Env} {op : Op}
    (hop : db.createsCollection env op = true) : ¬ (db.perform env op).2.Accounted := by
  cases op with
  | on key op =>
    have hp : op.pushes = true := (Bool.and_eq_true_iff.mp hop).1
    intro hafter
    simp only [Db.perform, performKey_eq, reserved_of_pushes hp] at hafter
    obtain ⟨others, hbefore, hput⟩ := exists_others db (getShardIndex cfg key) key
    have hc : (db.cellAt (getShardIndex cfg key) key).Balanced key others := by
      rw [Cell.Balanced, ← hbefore]
      exact h
    have hshort := @KeyOp.short_onCell _ _ env.clock _ _ hc hop
    have htotal : (op.onCell key env.clock (db.cellAt (getShardIndex cfg key) key)).2.memory.total =
        ((op.onCell key env.clock (db.cellAt (getShardIndex cfg key) key)).2.weight key +
          others : Nat) := by
      rw [← hput]
      exact hafter.1
    have hover : 0 < entryOverhead := by decide
    omega
  | _ => cases hop

/-- The counter is right in every state of a run exactly if no step of the run creates
a collection. -/
theorem accounted_run_iff (ops : List (Env × Op)) :
    (∀ done todo, ops = done ++ todo → ((empty : Db cfg).run done).Accounted) ↔
      ∀ done env op todo, ops = done ++ (env, op) :: todo →
        ((empty : Db cfg).run done).createsCollection env op = false := by
  constructor
  · intro h done env op todo hops
    by_contra hcreates
    refine not_accounted_perform (h done _ hops) (Bool.not_eq_false _ ▸ hcreates) ?_
    have hnext := h (done ++ [(env, op)]) todo (by simp [hops])
    rwa [run_append] at hnext
  · intro h done
    induction done using List.reverseRecOn with
    | nil => exact fun _ _ => accounted_empty
    | append_singleton done step ih =>
      intro todo hops
      obtain ⟨env, op⟩ := step
      rw [List.append_assoc] at hops
      rw [run_append]
      exact (ih _ hops).perform (h done env op todo hops)

/-- `LPUSH k a` leaves the counter at 17 with an entry of 82 bytes in the store, and
`LPOP k` then takes it below zero. -/
theorem lpush_not_accounted :
    let env : Env := { clock := { now := 0, millis := 0 }, draws := fun _ _ => (0, 0) }
    let pushed := (empty : Db (.standard 0 List.length)).run [(env, .on [107] (.lpush [[97]]))]
    let popped := pushed.run [(env, .on [107] .lpop)]
    ¬ pushed.Accounted ∧ pushed.currentMemory = 17 ∧ pushed.totalSize = 82 ∧
      popped.totalSize = 0 ∧ popped.memory.wrapped = true ∧
      popped.currentMemory = 2 ^ 64 - 65 := by
  dsimp only
  decide +kernel

end Db

end InMemoryCache
