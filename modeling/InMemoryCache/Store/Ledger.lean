-- SUMMARY: The number of stored entries against what was inserted, removed, evicted and expired.
import InMemoryCache.Lib.Ledger
import InMemoryCache.Store.Evict
import Mathlib.Data.UInt
import Mathlib.Tactic.Abel

/-!
# The ledger of entries

Every entry in the store was inserted, and every entry that left it was deleted, emptied,
evicted or found expired. `GET`, the pops and the sweeper count the expired entries they
remove; the pushes, `HDEL`, `SREM` and `EXPIRE` remove them without counting, and
`ledger_balances_iff` says that nothing else breaks the ledger. The counters wrap, so that
the ledger is kept in `u64`s.
-/

namespace InMemoryCache

open Lib

/-! ## Entries of the ledger -/

namespace KeyOp

/-- The operations that take elements out of a collection, and the key with the last one. -/
def shrinks : KeyOp → Bool
  | .lpop | .rpop | .hdel _ | .srem _ => true
  | _ => false

/-- The operations that remove an expired entry and do not count it. -/
def dropsUncounted : KeyOp → Bool
  | .lpush _ | .rpush _ | .hset _ | .sadd _ | .hdel _ | .srem _ | .expire _ => true
  | _ => false

/-- 1 if an entry was inserted where none was stored. A push removes an expired entry before
it inserts its own; `set` writes over it. -/
def insertion (op : KeyOp) (now : Instant) (before after : Option CacheEntry) : Nat :=
  match before, after with
  | none, some _ => 1
  | some old, some _ => if op.pushes && old.isExpired now then 1 else 0
  | _, none => 0

/-- 1 if a live collection was emptied and removed. -/
def emptying (op : KeyOp) (now : Instant) (before after : Option CacheEntry) : Nat :=
  match before, after with
  | some old, none => if op.shrinks && !old.isExpired now then 1 else 0
  | _, _ => 0

/-- 1 if an expired entry was removed: it is gone, or a push has put its own in its place. -/
def expiration (op : KeyOp) (now : Instant) (before after : Option CacheEntry) : Nat :=
  match before, after with
  | some old, none => if old.isExpired now then 1 else 0
  | some old, some _ => if op.pushes && old.isExpired now then 1 else 0
  | none, _ => 0

/-- 1 if an expired entry was removed and not counted. -/
def uncounted (op : KeyOp) (now : Instant) (before : Option CacheEntry) : Nat :=
  match before with
  | some old => if op.dropsUncounted && old.isExpired now then 1 else 0
  | none => 0

end KeyOp

/-! ## Operations on one key -/

/-- What `n` adds to a counter. -/
def U64.ofNatHom : Nat →+ UInt64 where
  toFun := UInt64.ofNat
  map_zero' := rfl
  map_add' := UInt64.ofNat_add

theorem U64.ofNat_eq_zero {n : Nat} : UInt64.ofNat n = 0 ↔ U64.size ∣ n := by
  rw [← UInt64.toNat_inj, UInt64.toNat_ofNat', UInt64.toNat_zero, Nat.dvd_iff_mod_eq_zero]
  rfl

/-- From `m` to `m'`, neither an expiration nor an eviction was counted. -/
structure Metrics.Quiet (m m' : Metrics) : Prop where
  expired : m'.expiredKeys = m.expiredKeys
  evicted : m'.evictedKeys = m.evictedKeys

namespace Cell

/-- The books of an operation on one key balance. -/
structure Entered (op : KeyOp) (now : Instant) (c c' : Cell) : Prop where
  held : c'.held + (op.emptying now c.slot c'.slot + op.expiration now c.slot c'.slot) =
    c.held + op.insertion now c.slot c'.slot
  expired : c'.metrics.expiredKeys + .ofNat (op.uncounted now c.slot) =
    c.metrics.expiredKeys + .ofNat (op.expiration now c.slot c'.slot)
  evicted : c'.metrics.evictedKeys = c.metrics.evictedKeys

variable {op : KeyOp} {key : Bytes} {clock : Clock} {c c' : Cell} {entry entry' : CacheEntry}

/-- Nothing was there, and nothing is. -/
theorem entered_absent (h : c.slot = none) (h' : c'.slot = none)
    (hm : c.metrics.Quiet c'.metrics) : Entered op clock.now c c' where
  held := by simp [Cell.held, KeyOp.emptying, KeyOp.expiration, KeyOp.insertion, h, h']
  expired := by simp [KeyOp.uncounted, KeyOp.expiration, h, hm.expired]
  evicted := hm.evicted

/-- A new entry where none was stored. -/
theorem entered_new (h : c.slot = none) (h' : c'.slot = some entry')
    (hm : c.metrics.Quiet c'.metrics) : Entered op clock.now c c' where
  held := by simp [Cell.held, KeyOp.emptying, KeyOp.expiration, KeyOp.insertion, h, h']
  expired := by simp [KeyOp.uncounted, KeyOp.expiration, h, hm.expired]
  evicted := hm.evicted

/-- An entry stays. -/
theorem entered_kept (h : c.slot = some entry) (h' : c'.slot = some entry')
    (hm : c.metrics.Quiet c'.metrics)
    (hop : entry.isExpired clock.now = true → op.pushes = false ∧ op.dropsUncounted = false) :
    Entered op clock.now c c' where
  held := by simp [Cell.held, KeyOp.emptying, KeyOp.expiration, KeyOp.insertion, h, h']
  expired := by
    cases hexp : entry.isExpired clock.now with
    | false => simp [KeyOp.uncounted, KeyOp.expiration, h, h', hexp, hm.expired]
    | true => simp [KeyOp.uncounted, KeyOp.expiration, h, h', hop hexp, hm.expired]
  evicted := hm.evicted

/-- A live entry stays. -/
theorem entered_live (h : c.slot = some entry) (h' : c'.slot = some entry')
    (hm : c.metrics.Quiet c'.metrics) (hexp : entry.isExpired clock.now = false) :
    Entered op clock.now c c' := by
  refine entered_kept h h' hm fun htrue => ?_
  rw [hexp] at htrue
  cases htrue

/-- A live collection is emptied. -/
theorem entered_emptied (h : c.slot = some entry) (h' : c'.slot = none)
    (hm : c.metrics.Quiet c'.metrics) (hexp : entry.isExpired clock.now = false)
    (hop : op.shrinks = true) : Entered op clock.now c c' where
  held := by
    simp [Cell.held, KeyOp.emptying, KeyOp.expiration, KeyOp.insertion, h, h', hexp, hop]
  expired := by simp [KeyOp.uncounted, KeyOp.expiration, h, h', hexp, hm.expired]
  evicted := hm.evicted

/-- An expired entry is removed, and counted. -/
theorem entered_counted (h : c.slot = some entry) (h' : c'.slot = none)
    (hexpired : c'.metrics.expiredKeys = c.metrics.expiredKeys + 1)
    (hevicted : c'.metrics.evictedKeys = c.metrics.evictedKeys)
    (hexp : entry.isExpired clock.now = true) (hop : op.dropsUncounted = false) :
    Entered op clock.now c c' where
  held := by simp [Cell.held, KeyOp.emptying, KeyOp.expiration, KeyOp.insertion, h, h', hexp]
  expired := by simp [KeyOp.uncounted, KeyOp.expiration, h, h', hexp, hexpired, hop]
  evicted := hevicted

/-- An expired entry is removed by an operation that does not count it. -/
theorem entered_dropped (h : c.slot = some entry) (h' : c'.slot = none)
    (hm : c.metrics.Quiet c'.metrics) (hexp : entry.isExpired clock.now = true)
    (hop : op.dropsUncounted = true) : Entered op clock.now c c' where
  held := by simp [Cell.held, KeyOp.emptying, KeyOp.expiration, KeyOp.insertion, h, h', hexp]
  expired := by simp [KeyOp.uncounted, KeyOp.expiration, h, h', hexp, hm.expired, hop]
  evicted := hm.evicted

/-- An expired entry is removed, not counted, and replaced by a new one. -/
theorem entered_replaced (h : c.slot = some entry) (h' : c'.slot = some entry')
    (hm : c.metrics.Quiet c'.metrics) (hexp : entry.isExpired clock.now = true)
    (hpush : op.pushes = true) (hop : op.dropsUncounted = true) :
    Entered op clock.now c c' where
  held := by
    simp [Cell.held, KeyOp.emptying, KeyOp.expiration, KeyOp.insertion, h, h', hexp, hpush]
  expired := by simp [KeyOp.uncounted, KeyOp.expiration, h, h', hexp, hpush, hop, hm.expired]
  evicted := hm.evicted

theorem entered_lookup {absent : ρ} {read : DataType → Option (ρ × Bool)}
    (hop : op.pushes = false ∧ op.dropsUncounted = false) :
    Entered op clock.now c (lookup absent read clock c).2 := by
  rw [lookup]
  cases hslot : c.slot with
  | none => exact entered_absent hslot hslot ⟨rfl, rfl⟩
  | some entry =>
    dsimp only
    split
    · exact entered_kept hslot hslot ⟨rfl, rfl⟩ fun _ => hop
    · split
      · dsimp only
        split <;> exact entered_kept hslot rfl ⟨rfl, rfl⟩ fun _ => hop
      · exact entered_kept hslot hslot ⟨rfl, rfl⟩ fun _ => hop

theorem getLive_eq : ∃ c', (getLive entry clock c).2 = c' ∧
    c'.slot = some { entry with lastAccessed := clock.millis } ∧
    c'.metrics = c.metrics.recordHit := by
  rw [getLive]
  split <;> exact ⟨_, rfl, rfl, rfl⟩

theorem entered_get : Entered .get clock.now c (get key clock c).2 := by
  rw [get, getRead]
  cases hslot : c.slot with
  | none => exact entered_absent hslot hslot ⟨rfl, rfl⟩
  | some entry =>
    cases hexp : entry.isExpired clock.now with
    | true =>
      simp only [hexp, if_true, getWrite, hslot]
      exact entered_counted hslot rfl rfl rfl hexp rfl
    | false =>
      simp only [hexp, Bool.false_eq_true, if_false]
      obtain ⟨c', hc', hslot', hmetrics⟩ := @getLive_eq clock c entry
      rw [hc']
      exact entered_live hslot hslot' (hmetrics ▸ ⟨rfl, rfl⟩) hexp

theorem entered_remaining {unit : Duration → Nat}
    (hop : op.pushes = false ∧ op.dropsUncounted = false) :
    Entered op clock.now c (remaining unit clock c).2 := by
  have hsame : Entered op clock.now c c := by
    cases hslot : c.slot with
    | none => exact entered_absent hslot hslot ⟨rfl, rfl⟩
    | some entry => exact entered_kept hslot hslot ⟨rfl, rfl⟩ fun _ => hop
  rw [remaining]
  split
  · exact hsame
  · split
    · split <;> exact hsame
    · exact hsame

theorem entered_set {value : Bytes} {expiresAt expiresAt' : Option Instant} {v : Bytes} :
    Entered (.set v expiresAt') clock.now c (set key value expiresAt clock c) := by
  rw [set]
  cases hslot : c.slot with
  | none => exact entered_new hslot rfl ⟨rfl, rfl⟩
  | some old => exact entered_kept hslot rfl ⟨rfl, rfl⟩ fun _ => ⟨rfl, rfl⟩

theorem metrics_evictExpired : (c.evictExpired key clock).metrics = c.metrics := by
  rw [evictExpired]
  split
  · split <;> rfl
  · rfl

/-- A push leaves an entry under its key, and does not touch the counts. -/
theorem upsert_spec {empty : DataType} {edit : DataType → Option (Edit Nat)} :
    (∃ entry', (upsert empty edit key clock c).2.slot = some entry') ∧
      (upsert empty edit key clock c).2.metrics = c.metrics := by
  have hmetrics : (c.evictExpired key clock).metrics = c.metrics := metrics_evictExpired
  rw [upsert]
  generalize c.evictExpired key clock = d at hmetrics
  rw [orInsert]
  cases hslot : d.slot with
  | none =>
    dsimp only
    split
    · exact ⟨⟨_, rfl⟩, hmetrics⟩
    · exact ⟨⟨_, rfl⟩, hmetrics⟩
  | some entry =>
    dsimp only
    split
    · exact ⟨⟨_, rfl⟩, hmetrics⟩
    · exact ⟨⟨_, hslot⟩, hmetrics⟩

theorem entered_upsert {empty : DataType} {edit : DataType → Option (Edit Nat)}
    (hpush : op.pushes = true) (hop : op.dropsUncounted = true) :
    Entered op clock.now c (upsert empty edit key clock c).2 := by
  obtain ⟨⟨entry', hslot'⟩, hmetrics⟩ := @upsert_spec key clock c empty edit
  have hm : c.metrics.Quiet (upsert empty edit key clock c).2.metrics :=
    hmetrics ▸ ⟨rfl, rfl⟩
  cases hslot : c.slot with
  | none => exact entered_new hslot hslot' hm
  | some entry =>
    cases hexp : entry.isExpired clock.now with
    | true => exact entered_replaced hslot hslot' hm hexp hpush hop
    | false => exact entered_live hslot hslot' hm hexp

/-- Taking elements out leaves the entry or removes it. -/
theorem entered_shrinkTo {e : Edit ρ} {d : Cell} (hslot : c.slot = some entry)
    (hexp : entry.isExpired clock.now = false) (hop : op.shrinks = true)
    (hm : c.metrics.Quiet d.metrics) :
    Entered op clock.now c (shrinkTo key entry e clock d) := by
  rw [shrinkTo]
  split
  · exact entered_emptied hslot rfl hm hexp hop
  · exact entered_live hslot rfl hm hexp

theorem entered_pop {edit : DataType → Option (Edit (Option Bytes))} (hop : op.shrinks = true)
    (hcounts : op.dropsUncounted = false) :
    Entered op clock.now c (pop edit key clock c).2 := by
  rw [pop]
  cases hslot : c.slot with
  | none => exact entered_absent hslot hslot ⟨rfl, rfl⟩
  | some entry =>
    dsimp only
    cases hexp : entry.isExpired clock.now with
    | true => exact entered_counted hslot rfl rfl rfl hexp hcounts
    | false =>
      rw [if_neg Bool.false_ne_true]
      split
      · dsimp only
        split <;> exact entered_shrinkTo hslot hexp hop ⟨rfl, rfl⟩
      · exact entered_live hslot hslot ⟨rfl, rfl⟩ hexp

theorem entered_removal {edit : DataType → Option (Edit Nat)} (hop : op.shrinks = true)
    (hdrops : op.dropsUncounted = true) :
    Entered op clock.now c (removal edit key clock c).2 := by
  rw [removal]
  cases hslot : c.slot with
  | none => exact entered_absent hslot hslot ⟨rfl, rfl⟩
  | some entry =>
    dsimp only
    cases hexp : entry.isExpired clock.now with
    | true => exact entered_dropped hslot rfl ⟨rfl, rfl⟩ hexp hdrops
    | false =>
      rw [if_neg Bool.false_ne_true]
      split
      · exact entered_shrinkTo hslot hexp hop ⟨rfl, rfl⟩
      · exact entered_live hslot hslot ⟨rfl, rfl⟩ hexp

theorem entered_expire {duration d : Duration} :
    Entered (.expire d) clock.now c (expire key duration clock c).2 := by
  rw [expire]
  cases hslot : c.slot with
  | none => exact entered_absent hslot hslot ⟨rfl, rfl⟩
  | some entry =>
    dsimp only
    cases hexp : entry.isExpired clock.now with
    | true => exact entered_dropped hslot rfl ⟨rfl, rfl⟩ hexp rfl
    | false =>
      rw [if_neg Bool.false_ne_true]
      split
      · exact entered_live hslot rfl ⟨rfl, rfl⟩ hexp
      · exact entered_live hslot hslot ⟨rfl, rfl⟩ hexp

end Cell

/-- The books of every operation on one key balance. -/
theorem KeyOp.entered_onCell (op : KeyOp) (key : Bytes) (clock : Clock) (c : Cell) :
    Cell.Entered op clock.now c (op.onCell key clock c).2 := by
  cases op with
  | get => exact Cell.entered_get
  | set value expiresAt => exact Cell.entered_set
  | lpush elements => exact Cell.entered_upsert rfl rfl
  | rpush elements => exact Cell.entered_upsert rfl rfl
  | hset fields => exact Cell.entered_upsert rfl rfl
  | sadd members => exact Cell.entered_upsert rfl rfl
  | lpop => exact Cell.entered_pop rfl rfl
  | rpop => exact Cell.entered_pop rfl rfl
  | hdel fields => exact Cell.entered_removal rfl rfl
  | srem members => exact Cell.entered_removal rfl rfl
  | lrange start stop => exact Cell.entered_lookup ⟨rfl, rfl⟩
  | hget field => exact Cell.entered_lookup ⟨rfl, rfl⟩
  | hgetall => exact Cell.entered_lookup ⟨rfl, rfl⟩
  | smembers => exact Cell.entered_lookup ⟨rfl, rfl⟩
  | sismember member => exact Cell.entered_lookup ⟨rfl, rfl⟩
  | expire duration => exact Cell.entered_expire
  | ttl => exact Cell.entered_remaining ⟨rfl, rfl⟩
  | pttl => exact Cell.entered_remaining ⟨rfl, rfl⟩

/-! ## The store -/

namespace Db

variable {cfg : Config}

theorem len_del (db : Db cfg) (keys : List Bytes) :
    (db.del keys).2.len + (db.del keys).1 = db.len ∧ (db.del keys).2.metrics = db.metrics := by
  induction keys generalizing db with
  | nil => exact ⟨rfl, rfl⟩
  | cons key keys ih =>
    obtain ⟨hhead, hmetrics⟩ := db.len_lockedAt (getShardIndex cfg key) key (removes_del key)
    obtain ⟨hrest, hmetrics'⟩ := ih (db.locked key (Cell.del key)).2
    rw [locked] at hrest hmetrics'
    refine ⟨?_, hmetrics'.trans hmetrics⟩
    simp only [del, locked]
    omega

theorem len_purgeKeys (i : Fin cfg.numShards) (now : Instant) (keys : List Bytes) (db : Db cfg) :
    (purgeKeys i now keys db).2.len + (purgeKeys i now keys db).1 = db.len ∧
      (purgeKeys i now keys db).2.metrics = db.metrics := by
  induction keys generalizing db with
  | nil => exact ⟨rfl, rfl⟩
  | cons key keys ih =>
    obtain ⟨hhead, hmetrics⟩ := db.len_lockedAt i key (removes_purge key now)
    obtain ⟨hrest, hmetrics'⟩ := ih (db.lockedAt i key (Cell.purge key now)).2
    refine ⟨?_, hmetrics'.trans hmetrics⟩
    simp only [purgeKeys]
    omega

/-- The sweeper counts each entry it removes, once. -/
theorem purgeRemove_counts (db : Db cfg) (i : Fin cfg.numShards) (now : Instant)
    (keys : List Bytes) :
    ∃ n, (db.purgeRemove i now keys).len + n = db.len ∧
      (db.purgeRemove i now keys).metrics = db.metrics.recordExpiration n := by
  obtain ⟨hlen, hmetrics⟩ := len_purgeKeys i now keys db
  refine ⟨_, hlen, ?_⟩
  show (purgeKeys i now keys db).2.metrics.recordExpiration _ = _
  rw [hmetrics]

/-- From `db` to `db'` entries were evicted, and each was counted once. -/
def Evicted (db db' : Db cfg) : Prop :=
  ∃ n, db'.len + n = db.len ∧ db'.metrics = db.metrics.recordEviction n

theorem evicted_refl (db : Db cfg) : Evicted db db :=
  ⟨0, rfl, (Metrics.recordEviction_zero _).symm⟩

theorem Evicted.trans {a b c : Db cfg} (h : Evicted a b) (h' : Evicted b c) : Evicted a c := by
  obtain ⟨n, hlen, hmetrics⟩ := h
  obtain ⟨m, hlen', hmetrics'⟩ := h'
  refine ⟨n + m, by omega, ?_⟩
  rw [hmetrics', hmetrics, Metrics.recordEviction_add]

/-- The evictor counts the entry it removes. -/
theorem evicted_evictLruStep (sampleSize : Nat) (draws : Nat → Nat × Nat) (db : Db cfg) :
    Evicted db (db.evictLruStep sampleSize draws).2 := by
  rcases evictLruStep_cases db sampleSize draws with
    ⟨-, hfail⟩ | ⟨-, i, key, entry, db', hstep, -, -, hevicts⟩
  · rw [hfail]
    exact evicted_refl db
  · rw [hstep]
    exact ⟨1, hevicts.len, hevicts.counted⟩

theorem evicted_reserved (db : Db cfg) (key : Bytes) (env : Env) (op : KeyOp) :
    Evicted db (db.reserved key env op) :=
  reserved_keeps (fun draws hs => hs.trans (evicted_evictLruStep lruSampleSize draws _))
    (evicted_refl db) key env op

/-! ## Steps -/

/-- The entries that a step inserts where none was stored. -/
def insertions (db : Db cfg) (env : Env) : Op → Nat
  | .on key op =>
    op.insertion env.clock.now ((db.reserved key env op).entry key)
      ((db.performKey key env op).2.entry key)
  | _ => 0

/-- The entries that `del` removes. -/
def deletions (db : Db cfg) : Op → Nat
  | .del keys => (db.del keys).1
  | _ => 0

/-- The live collections that `lpop`, `rpop`, `hdel` and `srem` empty and remove. -/
def emptyings (db : Db cfg) (env : Env) : Op → Nat
  | .on key op =>
    op.emptying env.clock.now ((db.reserved key env op).entry key)
      ((db.performKey key env op).2.entry key)
  | _ => 0

/-- The entries that an eviction step, or the reservation of a `set`, removes. -/
def evictions (db : Db cfg) (env : Env) : Op → Nat
  | .on key op => db.len - (db.reserved key env op).len
  | .evict sampleSize draws => db.len - (db.evictLruStep sampleSize draws).2.len
  | _ => 0

/-- The expired entries that the sweeper, or an operation on their key, removes. -/
def expirations (db : Db cfg) (env : Env) : Op → Nat
  | .on key op =>
    op.expiration env.clock.now ((db.reserved key env op).entry key)
      ((db.performKey key env op).2.entry key)
  | .purge sampleSize shard draws =>
    db.len - (db.purgeExpiredStep sampleSize env.clock.now shard draws).2.len
  | _ => 0

/-- The expired entries that an operation on their key removes without counting them. -/
def uncounted (db : Db cfg) (env : Env) : Op → Nat
  | .on key op => op.uncounted env.clock.now ((db.reserved key env op).entry key)
  | _ => 0

theorem reserved_of_dropsUncounted {db : Db cfg} {key : Bytes} {env : Env} {op : KeyOp}
    (h : op.dropsUncounted = true) : db.reserved key env op = db := by
  cases op with
  | set value expiresAt => cases h
  | _ => rfl

/-- Only an operation that does not count them, on an expired entry, loses one. -/
theorem uncounted_eq_zero (db : Db cfg) (env : Env) (key : Bytes) (op : KeyOp) :
    db.uncounted env (.on key op) = 0 ↔ (op.dropsUncounted = true →
      ∀ entry, db.entry key = some entry → entry.isExpired env.clock.now = false) := by
  simp only [uncounted]
  cases hdrops : op.dropsUncounted with
  | false => cases (db.reserved key env op).entry key <;> simp [KeyOp.uncounted, hdrops]
  | true =>
    rw [reserved_of_dropsUncounted hdrops]
    cases db.entry key <;> simp [KeyOp.uncounted, hdrops]

theorem uncounted_other (db : Db cfg) (env : Env) (op : Op) (h : ∀ key kop, op ≠ .on key kop) :
    db.uncounted env op = 0 := by
  cases op with
  | on key op => exact absurd rfl (h key op)
  | _ => rfl

/-- The books of a step balance. -/
structure Booked (db : Db cfg) (env : Env) (op : Op) (db' : Db cfg) : Prop where
  len : db'.len + (db.deletions op + db.emptyings env op + db.evictions env op +
    db.expirations env op) = db.len + db.insertions env op
  expired : db'.metrics.expiredKeys + .ofNat (db.uncounted env op) =
    db.metrics.expiredKeys + .ofNat (db.expirations env op)
  evicted : db'.metrics.evictedKeys = db.metrics.evictedKeys + .ofNat (db.evictions env op)

theorem booked_performKey (db : Db cfg) (env : Env) (key : Bytes) (op : KeyOp) :
    Booked db env (.on key op) (db.performKey key env op).2 := by
  obtain ⟨n, hlen, hmetrics⟩ := db.evicted_reserved key env op
  have hafter : (db.performKey key env op).2 = (db.reserved key env op).putCellAt
      (getShardIndex cfg key) key (op.onCell key env.clock
        ((db.reserved key env op).cellAt (getShardIndex cfg key) key)).2 :=
    congrArg Prod.snd (performKey_eq db key env op)
  have hcell := op.entered_onCell key env.clock
    ((db.reserved key env op).cellAt (getShardIndex cfg key) key)
  have hput := (db.reserved key env op).len_putCellAt (getShardIndex cfg key) key
    (op.onCell key env.clock ((db.reserved key env op).cellAt (getShardIndex cfg key) key)).2
  have hslot : (db.performKey key env op).2.entry key = (op.onCell key env.clock
      ((db.reserved key env op).cellAt (getShardIndex cfg key) key)).2.slot := by
    rw [hafter, entry_putCellAt]
  obtain ⟨hheld, hexpired, hevicted⟩ := hcell
  rw [← hslot, slot_cellAt] at hheld hexpired
  rw [metrics_cellAt, hmetrics] at hexpired hevicted
  rw [← hafter] at hput
  refine ⟨?_, ?_, ?_⟩
  · simp only [deletions, emptyings, evictions, expirations, insertions, entry] at *
    omega
  · rw [hafter, metrics_putCellAt]
    simp only [uncounted, expirations, entry] at *
    exact hexpired
  · have hevictions : db.evictions env (.on key op) = n := by
      simp only [evictions]
      omega
    rw [hafter, metrics_putCellAt, hevicted, hevictions]
    rfl

/-- A step that evicts nothing and finds nothing expired. -/
theorem booked_quiet {db db' : Db cfg} {env : Env} {op : Op}
    (hlen : db'.len + db.deletions op = db.len) (hmetrics : db'.metrics = db.metrics)
    (hop : db.evictions env op = 0 ∧ db.expirations env op = 0 ∧ db.emptyings env op = 0 ∧
      db.insertions env op = 0 ∧ db.uncounted env op = 0) : Booked db env op db' := by
  obtain ⟨hevictions, hexpirations, hemptyings, hinsertions, huncounted⟩ := hop
  constructor
  · omega
  · simp [hmetrics, huncounted, hexpirations]
  · simp [hmetrics, hevictions]

theorem booked_perform (db : Db cfg) (env : Env) (op : Op) :
    Booked db env op (db.perform env op).2 := by
  cases op with
  | on key op => exact db.booked_performKey env key op
  | del keys =>
    obtain ⟨hlen, hmetrics⟩ := db.len_del keys
    exact booked_quiet hlen hmetrics ⟨rfl, rfl, rfl, rfl, rfl⟩
  | keys pattern => exact booked_quiet rfl rfl ⟨rfl, rfl, rfl, rfl, rfl⟩
  | purge sampleSize shard draws =>
    obtain ⟨n, hlen, hmetrics⟩ := db.purgeRemove_counts (drawShard cfg shard) env.clock.now
      (db.purgeSample (drawShard cfg shard) env.clock.now sampleSize draws).2
    change (db.perform env (.purge sampleSize shard draws)).2.len + n = db.len at hlen
    change (db.perform env (.purge sampleSize shard draws)).2.metrics = _ at hmetrics
    have hexpirations : db.expirations env (.purge sampleSize shard draws) = n := by
      show db.len - (db.perform env (.purge sampleSize shard draws)).2.len = n
      omega
    constructor
    · rw [hexpirations]
      simp only [deletions, emptyings, evictions, insertions]
      omega
    · rw [hexpirations, hmetrics]
      simp [uncounted, Metrics.recordExpiration]
    · rw [hmetrics]
      simp [evictions, Metrics.recordExpiration]
  | evict sampleSize draws =>
    obtain ⟨n, hlen, hmetrics⟩ := evicted_evictLruStep sampleSize draws db
    change (db.perform env (.evict sampleSize draws)).2.len + n = db.len at hlen
    change (db.perform env (.evict sampleSize draws)).2.metrics = _ at hmetrics
    have hevictions : db.evictions env (.evict sampleSize draws) = n := by
      show db.len - (db.perform env (.evict sampleSize draws)).2.len = n
      omega
    constructor
    · rw [hevictions]
      simp only [deletions, emptyings, expirations, insertions]
      omega
    · rw [hmetrics]
      simp [uncounted, expirations, Metrics.recordEviction]
    · rw [hevictions, hmetrics]
      simp [Metrics.recordEviction]

/-! ## Runs -/

/-- The store after one step of a run. -/
def next (db : Db cfg) (step : Env × Op) : Db cfg := (db.perform step.1 step.2).2

theorem booked_next (db : Db cfg) (step : Env × Op) : Booked db step.1 step.2 (next db step) :=
  booked_perform db step.1 step.2

theorem run_eq_runAll (db : Db cfg) (ops : List (Env × Op)) : db.run ops = runAll next db ops := by
  induction ops generalizing db with
  | nil => rfl
  | cons step ops ih => exact ih _

/-- What the steps of a run from the empty store count. -/
def total (cfg : Config) (count : Db cfg → Env → Op → Nat) (ops : List (Env × Op)) : Nat :=
  tally next (fun db step => count db step.1 step.2) empty ops

/-- A run counts nothing of what only operations on a single key count, exactly if none of
these does. -/
theorem tally_on_eq_zero {count : Db cfg → Env → Op → Nat}
    {ok : Db cfg → Env → Bytes → KeyOp → Prop}
    (hon : ∀ db env key op, count db env (.on key op) = 0 ↔ ok db env key op)
    (hother : ∀ db env op, (∀ key kop, op ≠ .on key kop) → count db env op = 0)
    (db : Db cfg) (ops : List (Env × Op)) :
    tally next (fun db step => count db step.1 step.2) db ops = 0 ↔
      ∀ done env key op todo, ops = done ++ (env, .on key op) :: todo →
        ok (db.run done) env key op := by
  rw [tally_eq_zero, allowed_iff]
  constructor
  · intro h done env key op todo hops
    have hstep := h done (env, .on key op) todo hops
    rw [← run_eq_runAll] at hstep
    exact (hon _ env key op).mp hstep
  · rintro h done ⟨env, op⟩ todo hops
    rw [← run_eq_runAll]
    cases op with
    | on key op => exact (hon _ env key op).mpr (h done env key op todo hops)
    | _ => exact hother _ env _ fun _ _ h => (by cases h)

theorem len_empty : (empty : Db cfg).len = 0 := by
  rw [len, List.sum_eq_zero]
  intro n hn
  obtain ⟨i, -, rfl⟩ := List.mem_map.mp hn
  rfl

/-- The books of a run balance. -/
theorem booked_run (ops : List (Env × Op)) :
    let db := (empty : Db cfg).run ops
    db.len + (total cfg (fun db _ => db.deletions) ops + total cfg emptyings ops +
        total cfg evictions ops + total cfg expirations ops) = total cfg insertions ops ∧
      db.metrics.expiredKeys + .ofNat (total cfg uncounted ops) =
        .ofNat (total cfg expirations ops) ∧
      db.metrics.evictedKeys = .ofNat (total cfg evictions ops) := by
  have hlen : (runAll next (empty : Db cfg) ops).len + tally next (fun db step =>
      db.deletions step.2 + db.emptyings step.1 step.2 + db.evictions step.1 step.2 +
        db.expirations step.1 step.2) empty ops =
      (empty : Db cfg).len + total cfg insertions ops :=
    balance (fun db step => (booked_next db step).len) ops
  have hexpired := balance_map U64.ofNatHom (q := fun db : Db cfg => db.metrics.expiredKeys)
    (s := empty) (fun db step => (booked_next db step).expired) ops
  have hevicted := growth_map U64.ofNatHom (q := fun db : Db cfg => db.metrics.evictedKeys)
    (s := empty) (fun db step => (booked_next db step).evicted) ops
  have hzero : (empty : Db cfg).len = 0 := len_empty
  simp only [tally_add, hzero, Nat.zero_add] at hlen
  simp only [← run_eq_runAll] at hlen hexpired hevicted
  refine ⟨hlen, hexpired.trans (UInt64.zero_add _), hevicted.trans (UInt64.zero_add _)⟩

/-- After the run `ops` from the empty store the counters say what it did: `len` is what was
inserted less what was deleted, emptied, evicted and expired, with each eviction and each
removal of an expired entry counted once. The counters wrap, and so does the equation. -/
structure Balances (cfg : Config) (ops : List (Env × Op)) : Prop where
  len : UInt64.ofNat ((empty : Db cfg).run ops).len = .ofNat (total cfg insertions ops) -
    .ofNat (total cfg (fun db _ => db.deletions) ops) - .ofNat (total cfg emptyings ops) -
    ((empty : Db cfg).run ops).metrics.evictedKeys -
    ((empty : Db cfg).run ops).metrics.expiredKeys
  expired : ((empty : Db cfg).run ops).metrics.expiredKeys = .ofNat (total cfg expirations ops)
  evicted : ((empty : Db cfg).run ops).metrics.evictedKeys = .ofNat (total cfg evictions ops)

/-- While the counters have not wrapped, the ledger balances in numbers. -/
theorem Balances.exact {ops : List (Env × Op)} (h : Balances cfg ops)
    (hexpirations : total cfg expirations ops < U64.size)
    (hevictions : total cfg evictions ops < U64.size) :
    let db := (empty : Db cfg).run ops
    (db.len : Int) = total cfg insertions ops - total cfg (fun db _ => db.deletions) ops -
        total cfg emptyings ops - db.metrics.evictedKeys.toNat - db.metrics.expiredKeys.toNat ∧
      db.metrics.expiredKeys.toNat = total cfg expirations ops ∧
      db.metrics.evictedKeys.toNat = total cfg evictions ops := by
  intro db
  obtain ⟨hlen, -, -⟩ := @booked_run cfg ops
  have hexpired : db.metrics.expiredKeys.toNat = total cfg expirations ops := by
    rw [h.expired]
    exact UInt64.toNat_ofNat_of_lt hexpirations
  have hevicted : db.metrics.evictedKeys.toNat = total cfg evictions ops := by
    rw [h.evicted]
    exact UInt64.toNat_ofNat_of_lt hevictions
  refine ⟨?_, hexpired, hevicted⟩
  rw [hexpired, hevicted]
  simp only [db]
  omega

/-- The ledger balances exactly if what was lost is, modulo `2^64`, nothing. -/
theorem balances_iff (ops : List (Env × Op)) :
    Balances cfg ops ↔ U64.size ∣ total cfg uncounted ops := by
  obtain ⟨hlen, hexpired, hevicted⟩ := @booked_run cfg ops
  rw [← U64.ofNat_eq_zero]
  constructor
  · intro h
    rw [h.expired] at hexpired
    exact UInt64.add_eq_left.mp hexpired
  · intro hlost
    rw [hlost, UInt64.add_zero] at hexpired
    refine ⟨?_, hexpired, hevicted⟩
    rw [hexpired, hevicted, ← hlen]
    simp only [UInt64.ofNat_add]
    abel

theorem uncounted_le_one (db : Db cfg) (env : Env) (op : Op) : db.uncounted env op ≤ 1 := by
  cases op with
  | on key op =>
    simp only [uncounted, KeyOp.uncounted]
    cases (db.reserved key env op).entry key with
    | none => exact Nat.zero_le 1
    | some entry =>
      dsimp only
      split
      · exact Nat.le_refl 1
      · exact Nat.zero_le 1
  | _ => exact Nat.zero_le 1

/-- The ledger balances all along a run exactly if no step of the run is an `LPUSH`, `RPUSH`,
`HSET`, `SADD`, `HDEL`, `SREM` or `EXPIRE` that finds an expired entry. -/
theorem ledger_balances_iff (ops : List (Env × Op)) :
    (∀ done todo, ops = done ++ todo → Balances cfg done) ↔
      ∀ done env key op todo, ops = done ++ (env, .on key op) :: todo →
        op.dropsUncounted = true → ∀ entry, ((empty : Db cfg).run done).entry key = some entry →
          entry.isExpired env.clock.now = false := by
  refine Iff.trans ?_ (tally_on_eq_zero uncounted_eq_zero uncounted_other empty ops)
  constructor
  · intro h
    refine tally_eq_zero_of_dvd (n := U64.size) (by decide)
      (fun db step => uncounted_le_one db step.1 step.2) ops fun done todo hops => ?_
    exact (balances_iff done).mp (h done todo hops)
  · rintro h done todo rfl
    rw [tally_append] at h
    rw [balances_iff, total, Nat.eq_zero_of_add_eq_zero_right h]
    exact Nat.dvd_zero _

/-- `SET k v` with a deadline of 1, and `HDEL k f` at 2: the string is gone, and neither its
expiration nor any other removal was counted. -/
theorem hdel_not_balanced :
    let env (now : Instant) : Env :=
      { clock := { now := now, millis := 0 }, draws := fun _ _ => (0, 0) }
    let cfg := Config.standard 0 List.length
    let ops := [(env 0, .on [107] (.set [118] (some 1))), (env 2, .on [107] (.hdel [[102]]))]
    let db := (empty : Db cfg).run ops
    (db.len : Int) ≠ total cfg insertions ops - total cfg (fun db _ => db.deletions) ops -
        total cfg emptyings ops - db.metrics.evictedKeys.toNat - db.metrics.expiredKeys.toNat ∧
      db.len = 0 ∧ total cfg insertions ops = 1 ∧ db.metrics.expiredKeys = 0 ∧
      total cfg expirations ops = 1 := by
  dsimp only
  decide +kernel

end Db

end InMemoryCache
