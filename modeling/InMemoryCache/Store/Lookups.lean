-- SUMMARY: Which lookups are counted as a hit or a miss.
import InMemoryCache.Store.Ledger

/-!
# The hit ratio

`GET`, `LRANGE`, `HGET`, `HGETALL`, `SMEMBERS`, `SISMEMBER` and the pops look a key up, and
count a hit or a miss. `GET` counts a hit also on a value of another type; the others leave
on that path before they count.
-/

namespace InMemoryCache

open Lib

namespace KeyOp

/-- The operations that look their key up. -/
def looksUp : KeyOp → Bool
  | .get | .lrange _ _ | .hget _ | .hgetall | .smembers | .sismember _ | .lpop | .rpop => true
  | _ => false

/-- Whether a lookup counts a live value of this type; `get` counts any. -/
def counts : KeyOp → DataType → Bool
  | .get, _ => true
  | .lrange _ _, .list _ | .lpop, .list _ | .rpop, .list _ => true
  | .hget _, .hash _ | .hgetall, .hash _ => true
  | .smembers, .set _ | .sismember _, .set _ => true
  | _, _ => false

/-- 1 if a lookup finds a live value of a type that it does not count. -/
def missed (op : KeyOp) (now : Instant) (slot : Option CacheEntry) : Nat :=
  match slot with
  | some entry =>
    if op.looksUp && !entry.isExpired now && !op.counts entry.data then 1 else 0
  | none => 0

end KeyOp

/-- 1 for an operation that looks its key up. -/
def Op.lookups : Op → Nat
  | .on _ op => if op.looksUp then 1 else 0
  | _ => 0

/-! ## Operations on one key -/

namespace Cell

variable {op : KeyOp} {key : Bytes} {clock : Clock} {c c' : Cell} {entry : CacheEntry}

/-- What an operation on one key adds to the hits and misses. -/
structure Looked (op : KeyOp) (clock : Clock) (c c' : Cell) : Prop where
  lookups : c'.metrics.lookups + .ofNat (op.missed clock.now c.slot) =
    c.metrics.lookups + .ofNat (if op.looksUp then 1 else 0)
  miss : op.looksUp = true → c.vacant clock = true →
    c'.metrics.hits = c.metrics.hits ∧ c'.metrics.misses = c.metrics.misses + 1

/-- Nothing to look up. -/
theorem looked_other (hop : op.looksUp = false)
    (hm : c'.metrics.hits = c.metrics.hits ∧ c'.metrics.misses = c.metrics.misses) :
    Looked op clock c c' where
  lookups := by cases c.slot <;> simp [KeyOp.missed, Metrics.lookups, hop, hm]
  miss h := by
    rw [hop] at h
    cases h

/-- An absent or expired entry, counted as a miss. -/
theorem looked_vacant (hop : op.looksUp = true) (hc : c.vacant clock = true)
    (hm : c'.metrics.hits = c.metrics.hits ∧ c'.metrics.misses = c.metrics.misses + 1) :
    Looked op clock c c' where
  lookups := by
    rw [vacant] at hc
    cases hslot : c.slot with
    | none => simp [KeyOp.missed, Metrics.lookups, hop, hm, UInt64.add_assoc]
    | some entry =>
      rw [hslot, Option.all_some] at hc
      simp [KeyOp.missed, Metrics.lookups, hop, hm, hc, UInt64.add_assoc]
  miss _ _ := hm

/-- A live entry of a type that is counted. -/
theorem looked_counted (hop : op.looksUp = true) (hslot : c.slot = some entry)
    (hexp : entry.isExpired clock.now = false) (hcounts : op.counts entry.data = true)
    (hm : c'.metrics.lookups = c.metrics.lookups + 1) : Looked op clock c c' where
  lookups := by simp [KeyOp.missed, hslot, hop, hm, hcounts]
  miss _ hc := by
    rw [vacant, hslot, Option.all_some, hexp] at hc
    cases hc

/-- A live entry of another type. -/
theorem looked_missed (hop : op.looksUp = true) (hslot : c.slot = some entry)
    (hexp : entry.isExpired clock.now = false) (hcounts : op.counts entry.data = false)
    (hm : c'.metrics = c.metrics) : Looked op clock c c' where
  lookups := by simp [KeyOp.missed, hslot, hop, hm, hexp, hcounts]
  miss _ hc := by
    rw [vacant, hslot, Option.all_some, hexp] at hc
    cases hc

theorem vacant_none (h : c.slot = none) : c.vacant clock = true := by
  rw [vacant, h, Option.all_none]

theorem vacant_some (h : c.slot = some entry) : c.vacant clock = entry.isExpired clock.now := by
  rw [vacant, h, Option.all_some]

theorem looked_lookup {absent : ρ} {read : DataType → Option (ρ × Bool)}
    (hop : op.looksUp = true) (hread : ∀ d, (read d).isSome = op.counts d) :
    Looked op clock c (lookup absent read clock c).2 := by
  rw [lookup]
  cases hslot : c.slot with
  | none => exact looked_vacant hop (vacant_none hslot) ⟨rfl, rfl⟩
  | some entry =>
    dsimp only
    cases hexp : entry.isExpired clock.now with
    | true => exact looked_vacant hop ((vacant_some hslot).trans hexp) ⟨rfl, rfl⟩
    | false =>
      have hcounts := hread entry.data
      rw [if_neg Bool.false_ne_true]
      cases hr : read entry.data with
      | none =>
        rw [hr] at hcounts
        exact looked_missed hop hslot hexp hcounts.symm rfl
      | some r =>
        rw [hr] at hcounts
        refine looked_counted hop hslot hexp hcounts.symm ?_
        dsimp only
        split
        · exact Metrics.lookups_recordHit _
        · exact Metrics.lookups_recordMiss _

theorem looked_get : Looked .get clock c (get key clock c).2 := by
  rw [get, getRead]
  cases hslot : c.slot with
  | none => exact looked_vacant rfl (vacant_none hslot) ⟨rfl, rfl⟩
  | some entry =>
    cases hexp : entry.isExpired clock.now with
    | true =>
      simp only [hexp, if_true, getWrite, hslot]
      exact looked_vacant rfl ((vacant_some hslot).trans hexp) ⟨rfl, rfl⟩
    | false =>
      simp only [hexp, Bool.false_eq_true, if_false]
      obtain ⟨c', hc', -, hmetrics⟩ := @getLive_eq clock c entry
      rw [hc']
      refine looked_counted rfl hslot hexp rfl ?_
      rw [hmetrics, Metrics.lookups_recordHit]

theorem metrics_shrinkTo {e : Edit ρ} : (shrinkTo key entry e clock c).metrics = c.metrics := by
  rw [shrinkTo]
  split <;> rfl

theorem looked_pop {edit : DataType → Option (Edit (Option Bytes))} (hop : op.looksUp = true)
    (hedit : ∀ d, (edit d).isSome = op.counts d) :
    Looked op clock c (pop edit key clock c).2 := by
  rw [pop]
  cases hslot : c.slot with
  | none => exact looked_vacant hop (vacant_none hslot) ⟨rfl, rfl⟩
  | some entry =>
    dsimp only
    cases hexp : entry.isExpired clock.now with
    | true => exact looked_vacant hop ((vacant_some hslot).trans hexp) ⟨rfl, rfl⟩
    | false =>
      have hcounts := hedit entry.data
      rw [if_neg Bool.false_ne_true]
      cases he : edit entry.data with
      | none =>
        rw [he] at hcounts
        exact looked_missed hop hslot hexp hcounts.symm rfl
      | some e =>
        rw [he] at hcounts
        refine looked_counted hop hslot hexp hcounts.symm ?_
        dsimp only
        rw [metrics_shrinkTo]
        split
        · exact Metrics.lookups_recordHit _
        · exact Metrics.lookups_recordMiss _

theorem looked_upsert {empty : DataType} {edit : DataType → Option (Edit Nat)}
    (hop : op.looksUp = false) : Looked op clock c (upsert empty edit key clock c).2 := by
  obtain ⟨-, hmetrics⟩ := @upsert_spec key clock c empty edit
  exact looked_other hop (hmetrics ▸ ⟨rfl, rfl⟩)

theorem looked_set {value v : Bytes} {expiresAt t : Option Instant} :
    Looked (.set v t) clock c (set key value expiresAt clock c) := by
  rw [set]
  cases c.slot <;> exact looked_other rfl ⟨rfl, rfl⟩

theorem looked_removal {edit : DataType → Option (Edit Nat)} (hop : op.looksUp = false) :
    Looked op clock c (removal edit key clock c).2 := by
  rw [removal]
  split
  · exact looked_other hop ⟨rfl, rfl⟩
  · split
    · exact looked_other hop ⟨rfl, rfl⟩
    · split
      · refine looked_other hop ?_
        dsimp only
        rw [metrics_shrinkTo]
        exact ⟨rfl, rfl⟩
      · exact looked_other hop ⟨rfl, rfl⟩

theorem looked_expire {duration d : Duration} :
    Looked (.expire d) clock c (expire key duration clock c).2 := by
  rw [expire]
  split
  · exact looked_other rfl ⟨rfl, rfl⟩
  · split
    · exact looked_other rfl ⟨rfl, rfl⟩
    · split <;> exact looked_other rfl ⟨rfl, rfl⟩

theorem looked_remaining {unit : Duration → Nat} (hop : op.looksUp = false) :
    Looked op clock c (remaining unit clock c).2 := by
  rw [remaining]
  split
  · exact looked_other hop ⟨rfl, rfl⟩
  · split
    · split <;> exact looked_other hop ⟨rfl, rfl⟩
    · exact looked_other hop ⟨rfl, rfl⟩

end Cell

theorem KeyOp.looked_onCell (op : KeyOp) (key : Bytes) (clock : Clock) (c : Cell) :
    Cell.Looked op clock c (op.onCell key clock c).2 := by
  cases op with
  | get => exact Cell.looked_get
  | lrange start stop => exact Cell.looked_lookup rfl fun d => by cases d <;> rfl
  | hget field => exact Cell.looked_lookup rfl fun d => by cases d <;> rfl
  | hgetall => exact Cell.looked_lookup rfl fun d => by cases d <;> rfl
  | smembers => exact Cell.looked_lookup rfl fun d => by cases d <;> rfl
  | sismember member => exact Cell.looked_lookup rfl fun d => by cases d <;> rfl
  | lpop => exact Cell.looked_pop rfl fun d => by cases d <;> rfl
  | rpop => exact Cell.looked_pop rfl fun d => by cases d <;> rfl
  | set value expiresAt => exact Cell.looked_set
  | lpush elements => exact Cell.looked_upsert rfl
  | rpush elements => exact Cell.looked_upsert rfl
  | hset fields => exact Cell.looked_upsert rfl
  | sadd members => exact Cell.looked_upsert rfl
  | hdel fields => exact Cell.looked_removal rfl
  | srem members => exact Cell.looked_removal rfl
  | expire duration => exact Cell.looked_expire
  | ttl => exact Cell.looked_remaining rfl
  | pttl => exact Cell.looked_remaining rfl

/-! ## Steps and runs -/

namespace Db

variable {cfg : Config}

/-- 1 if a step looks up a live value of a type that it does not count. -/
def missed (db : Db cfg) (env : Env) : Op → Nat
  | .on key op => op.missed env.clock.now (db.entry key)
  | _ => 0

theorem reserved_of_looksUp {db : Db cfg} {key : Bytes} {env : Env} {op : KeyOp}
    (h : op.looksUp = true) : db.reserved key env op = db := by
  cases op with
  | set value expiresAt => cases h
  | _ => rfl

/-- Only what a lookup itself does counts. -/
theorem lookups_performKey (db : Db cfg) (env : Env) (key : Bytes) (op : KeyOp) :
    (db.performKey key env op).2.metrics.lookups + .ofNat (db.missed env (.on key op)) =
      db.metrics.lookups + .ofNat (Op.lookups (.on key op)) := by
  obtain ⟨n, -, hmetrics⟩ := db.evicted_reserved key env op
  have hcell := (op.looked_onCell key env.clock
    ((db.reserved key env op).cellAt (getShardIndex cfg key) key)).lookups
  have hmissed : op.missed env.clock.now ((db.reserved key env op).entry key) =
      op.missed env.clock.now (db.entry key) := by
    cases hop : op.looksUp with
    | true => rw [reserved_of_looksUp hop]
    | false => cases (db.reserved key env op).entry key <;> cases db.entry key <;>
        simp [KeyOp.missed, hop]
  rw [metrics_cellAt, hmetrics, slot_cellAt] at hcell
  rw [performKey_eq]
  show (op.onCell key env.clock _).2.metrics.lookups +
    .ofNat (op.missed env.clock.now (db.entry key)) = _
  rw [← hmissed]
  exact hcell

theorem lookups_perform (db : Db cfg) (env : Env) (op : Op) :
    (db.perform env op).2.metrics.lookups + .ofNat (db.missed env op) =
      db.metrics.lookups + .ofNat op.lookups := by
  cases op with
  | on key op => exact db.lookups_performKey env key op
  | del keys => exact congrArg (fun m : Metrics => m.lookups + .ofNat 0) (db.len_del keys).2
  | keys pattern => rfl
  | purge sampleSize shard draws =>
    obtain ⟨n, -, hmetrics⟩ := db.purgeRemove_counts (drawShard cfg shard) env.clock.now
      (db.purgeSample (drawShard cfg shard) env.clock.now sampleSize draws).2
    have hlookups := congrArg (fun m : Metrics => m.lookups + .ofNat 0) hmetrics
    exact hlookups
  | evict sampleSize draws =>
    obtain ⟨n, -, hmetrics⟩ := evicted_evictLruStep sampleSize draws db
    have hlookups := congrArg (fun m : Metrics => m.lookups + .ofNat 0) hmetrics
    exact hlookups

theorem lookups_next (db : Db cfg) (step : Env × Op) :
    (next db step).metrics.lookups + .ofNat (db.missed step.1 step.2) =
      db.metrics.lookups + .ofNat step.2.lookups :=
  lookups_perform db step.1 step.2

/-- A lookup of an absent or expired key counts as a miss. -/
theorem miss_performKey {db : Db cfg} {env : Env} {key : Bytes} {op : KeyOp}
    (hop : op.looksUp = true)
    (h : ∀ entry, db.entry key = some entry → entry.isExpired env.clock.now = true) :
    (db.performKey key env op).2.metrics.hits = db.metrics.hits ∧
      (db.performKey key env op).2.metrics.misses = db.metrics.misses + 1 := by
  rw [performKey_eq, reserved_of_looksUp hop]
  refine (op.looked_onCell key env.clock (db.cellAt (getShardIndex cfg key) key)).miss hop ?_
  show Option.all _ (db.entry key) = true
  cases hentry : db.entry key with
  | none => rfl
  | some entry => exact h entry hentry

theorem missed_eq_zero (db : Db cfg) (env : Env) (key : Bytes) (op : KeyOp) :
    db.missed env (.on key op) = 0 ↔ (op.looksUp = true →
      ∀ entry, db.entry key = some entry → entry.isExpired env.clock.now = false →
        op.counts entry.data = true) := by
  simp only [missed]
  cases db.entry key with
  | none => simp [KeyOp.missed]
  | some entry => simp [KeyOp.missed]

theorem missed_other (db : Db cfg) (env : Env) (op : Op) (h : ∀ key kop, op ≠ .on key kop) :
    db.missed env op = 0 := by
  cases op with
  | on key op => exact absurd rfl (h key op)
  | _ => rfl

theorem missed_le_one (db : Db cfg) (env : Env) (op : Op) : db.missed env op ≤ 1 := by
  cases op with
  | on key op =>
    simp only [missed, KeyOp.missed]
    cases db.entry key with
    | none => exact Nat.zero_le 1
    | some entry =>
      dsimp only
      split
      · exact Nat.le_refl 1
      · exact Nat.zero_le 1
  | _ => exact Nat.zero_le 1

/-- The lookups of a run are counted exactly if what was missed is, modulo `2^64`, nothing. -/
theorem counted_iff (db : Db cfg) (ops : List (Env × Op)) :
    (db.run ops).metrics.lookups =
        db.metrics.lookups + .ofNat (ops.map fun step => step.2.lookups).sum ↔
      U64.size ∣ tally next (fun db step => db.missed step.1 step.2) db ops := by
  have hbalance := balance_map U64.ofNatHom (q := fun db : Db cfg => db.metrics.lookups)
    (s := db) (fun db step => lookups_next db step) ops
  rw [tally_const, ← run_eq_runAll] at hbalance
  change (db.run ops).metrics.lookups + .ofNat _ = db.metrics.lookups + .ofNat _ at hbalance
  rw [← U64.ofNat_eq_zero, ← hbalance]
  exact UInt64.left_eq_add

/-- All along a run each lookup counts a hit or a miss, and each lookup of an absent or
expired key a miss, exactly if no lookup of the run but `GET` finds a live value of another
type than its own. -/
theorem lookups_counted_iff (db : Db cfg) (ops : List (Env × Op)) :
    ((∀ done todo, ops = done ++ todo → (db.run done).metrics.lookups =
          db.metrics.lookups + .ofNat (done.map fun step => step.2.lookups).sum) ∧
        ∀ done env key op todo, ops = done ++ (env, .on key op) :: todo → op.looksUp = true →
          (∀ entry, (db.run done).entry key = some entry →
            entry.isExpired env.clock.now = true) →
          (db.run (done ++ [(env, .on key op)])).metrics.hits = (db.run done).metrics.hits ∧
            (db.run (done ++ [(env, .on key op)])).metrics.misses =
              (db.run done).metrics.misses + 1) ↔
      ∀ done env key op todo, ops = done ++ (env, .on key op) :: todo → op.looksUp = true →
        ∀ entry, (db.run done).entry key = some entry →
          entry.isExpired env.clock.now = false → op.counts entry.data = true := by
  refine Iff.trans ?_ (tally_on_eq_zero missed_eq_zero missed_other db ops)
  constructor
  · rintro ⟨hcounted, -⟩
    refine tally_eq_zero_of_dvd (n := U64.size) (by decide)
      (fun db step => missed_le_one db step.1 step.2) ops fun done todo hops => ?_
    exact (counted_iff db done).mp (hcounted done todo hops)
  · intro h
    refine ⟨?_, fun done env key op todo _ hop hvacant => ?_⟩
    · rintro done todo rfl
      rw [tally_append] at h
      rw [counted_iff, Nat.eq_zero_of_add_eq_zero_right h]
      exact Nat.dvd_zero _
    · rw [run_append]
      exact miss_performKey hop hvacant

/-- `SET k v` and `HGET k f`: the lookup is counted neither as a hit nor as a miss. -/
theorem hget_not_counted :
    let env : Env := { clock := { now := 0, millis := 0 }, draws := fun _ _ => (0, 0) }
    let before := (empty : Db (.standard 0 List.length)).run [(env, .on [107] (.set [118] none))]
    let after := before.run [(env, .on [107] (.hget [102]))]
    before.metrics.hits + before.metrics.misses = 0 ∧
      after.metrics.hits + after.metrics.misses = 0 := by
  dsimp only
  decide +kernel

end Db

end InMemoryCache
