-- SUMMARY: The sharded store, its methods, the sweeper and the evictor.
import InMemoryCache.Glob
import InMemoryCache.Store.Cell
import Mathlib.Logic.Function.Basic

/-!
# The store

`Db` holds the shards and the two shared atomics. A method that works on one key locks
the key's shard and runs the operation of that name on the cell under the key. The
configuration and the hash function of `get_shard_index` are parameters, and the random
numbers an operation draws are arguments, so a statement for all of them covers every
outcome.
-/

namespace InMemoryCache

open Lib

structure Config where
  numShards : Nat
  numShards_pos : 0 < numShards
  /-- 0 means unlimited. -/
  maxmemory : Nat
  /-- The 64-bit hash of a key. -/
  hash : Bytes → Nat

/-- A store with `DEFAULT_NUM_SHARDS` shards. -/
def Config.standard (maxmemory : Nat) (hash : Bytes → Nat) : Config where
  numShards := 64
  numShards_pos := by decide
  maxmemory := maxmemory
  hash := hash

structure Db (cfg : Config) where
  shards : Fin cfg.numShards → Table Bytes CacheEntry
  memory : Memory
  metrics : Metrics

/-- What a method takes from outside: its clock readings, and the random draws of the
evictions it may need, by round and sample (a shard and a key of that shard). -/
structure Env where
  clock : Clock
  draws : Nat → Nat → Nat × Nat

/-- `DEFAULT_LRU_SAMPLE_SIZE` -/
def lruSampleSize : Nat := 8

namespace Db

variable {cfg : Config}

def empty : Db cfg := { shards := fun _ => ∅, memory := .zero, metrics := .zero }

def getShardIndex (cfg : Config) (key : Bytes) : Fin cfg.numShards :=
  ⟨cfg.hash key % cfg.numShards, Nat.mod_lt _ cfg.numShards_pos⟩

/-- `fastrand::usize(..num_shards)` -/
def drawShard (cfg : Config) (r : Nat) : Fin cfg.numShards :=
  ⟨r % cfg.numShards, Nat.mod_lt _ cfg.numShards_pos⟩

/-- The entry stored under `key` in the key's shard. -/
def entry (db : Db cfg) (key : Bytes) : Option CacheEntry :=
  (db.shards (getShardIndex cfg key)).get? key

/-- `current_memory` -/
def currentMemory (db : Db cfg) : Nat := db.memory.load

/-- `len` -/
def len (db : Db cfg) : Nat := ((List.finRange cfg.numShards).map fun i => (db.shards i).size).sum

/-- The sum of `size_bytes` over all stored entries. -/
def totalSize (db : Db cfg) : Nat :=
  ((List.finRange cfg.numShards).map fun i =>
    (db.shards i).sumBy fun key entry => entry.sizeBytes key).sum

-- ---------------------------------------------------------------------------
-- Locking
-- ---------------------------------------------------------------------------

def cellAt (db : Db cfg) (i : Fin cfg.numShards) (key : Bytes) : Cell where
  slot := (db.shards i).get? key
  memory := db.memory
  metrics := db.metrics

def putCellAt (db : Db cfg) (i : Fin cfg.numShards) (key : Bytes) (c : Cell) : Db cfg where
  shards := Function.update db.shards i ((db.shards i).overwrite key c.slot)
  memory := c.memory
  metrics := c.metrics

/-- Run `f` on the cell of `key` in shard `i`, holding the shard's lock. -/
def lockedAt (db : Db cfg) (i : Fin cfg.numShards) (key : Bytes) (f : Cell → α × Cell) :
    α × Db cfg :=
  let (a, c) := f (db.cellAt i key)
  (a, db.putCellAt i key c)

/-- Run `f` on the cell of `key`, holding the lock of the key's shard. -/
def locked (db : Db cfg) (key : Bytes) (f : Cell → α × Cell) : α × Db cfg :=
  db.lockedAt (getShardIndex cfg key) key f

-- ---------------------------------------------------------------------------
-- Eviction
-- ---------------------------------------------------------------------------

/-- The sampling loop of `evict_lru_step`: the candidate accessed longest ago, and when. -/
def sampleLru (db : Db cfg) (draws : Nat → Nat × Nat) :
    Nat → Option (Fin cfg.numShards × Bytes) × Nat
  | 0 => (none, U64.size - 1)
  | j + 1 =>
    let (oldestKey, oldestTime) := sampleLru db draws j
    let i := drawShard cfg (draws j).1
    let keys := (db.shards i).keys
    match keys[(draws j).2 % keys.length]? with
    | none => (oldestKey, oldestTime)
    | some candidate =>
      match (db.shards i).get? candidate with
      | none => (oldestKey, oldestTime)
      | some entry =>
        if entry.lastAccessed < oldestTime then (some (i, candidate), entry.lastAccessed)
        else (oldestKey, oldestTime)

/-- `evict_lru_step` -/
def evictLruStep (sampleSize : Nat) (draws : Nat → Nat × Nat) (db : Db cfg) : Bool × Db cfg :=
  match (db.sampleLru draws sampleSize).1 with
  | none => (false, db)
  | some (i, key) =>
    let (removed, db) := db.lockedAt i key (Cell.del key)
    if removed = 1 then (true, { db with metrics := db.metrics.recordEviction 1 }) else (false, db)

/-- The loop of `ensure_capacity`; the sum wraps as `usize` addition does. -/
def ensureCapacityLoop (neededBytes : Nat) : Nat → (Nat → Nat → Nat × Nat) → Db cfg → Db cfg
  | 0, _, db => db
  | fuel + 1, draws, db =>
    if (db.currentMemory + neededBytes) % U64.size > cfg.maxmemory then
      match db.evictLruStep lruSampleSize (draws 0) with
      | (true, db) => ensureCapacityLoop neededBytes fuel (fun k => draws (k + 1)) db
      | (false, db) => db
    else db

/-- `ensure_capacity`. Every round but the last removes an entry, so there are at most
`len + 1` of them. -/
def ensureCapacity (neededBytes : Nat) (draws : Nat → Nat → Nat × Nat) (db : Db cfg) : Db cfg :=
  if cfg.maxmemory > 0 then ensureCapacityLoop neededBytes (db.len + 1) draws db else db

-- ---------------------------------------------------------------------------
-- Operations on one key
-- ---------------------------------------------------------------------------

section Methods

variable (db : Db cfg) (key : Bytes)

def get (env : Env) : Except String (Option Bytes) × Db cfg :=
  db.locked key (Cell.get key env.clock)

def set (value : Bytes) (expiresAt : Option Instant) (env : Env) : Db cfg :=
  let newEntry := CacheEntry.new (.string value) expiresAt env.clock.millis
  ((db.ensureCapacity (newEntry.sizeBytes key) env.draws).locked key
    fun c => ((), Cell.set key value expiresAt env.clock c)).2

def lpush (elements : List Bytes) (env : Env) : Except String Nat × Db cfg :=
  db.locked key (Cell.lpush key elements env.clock)

def rpush (elements : List Bytes) (env : Env) : Except String Nat × Db cfg :=
  db.locked key (Cell.rpush key elements env.clock)

def lpop (env : Env) : Except String (Option Bytes) × Db cfg :=
  db.locked key (Cell.lpop key env.clock)

def rpop (env : Env) : Except String (Option Bytes) × Db cfg :=
  db.locked key (Cell.rpop key env.clock)

def lrange (start stop : Int64) (env : Env) : Except String (List Bytes) × Db cfg :=
  db.locked key (Cell.lrange start.toInt stop.toInt env.clock)

def hset (fields : List (Bytes × Bytes)) (env : Env) : Except String Nat × Db cfg :=
  db.locked key (Cell.hset key fields env.clock)

def hget (field : Bytes) (env : Env) : Except String (Option Bytes) × Db cfg :=
  db.locked key (Cell.hget field env.clock)

def hdel (fields : List Bytes) (env : Env) : Except String Nat × Db cfg :=
  db.locked key (Cell.hdel key fields env.clock)

def hgetall (env : Env) : Except String (List (Bytes × Bytes)) × Db cfg :=
  db.locked key (Cell.hgetall env.clock)

def sadd (members : List Bytes) (env : Env) : Except String Nat × Db cfg :=
  db.locked key (Cell.sadd key members env.clock)

def smembers (env : Env) : Except String (List Bytes) × Db cfg :=
  db.locked key (Cell.smembers env.clock)

def srem (members : List Bytes) (env : Env) : Except String Nat × Db cfg :=
  db.locked key (Cell.srem key members env.clock)

def sismember (member : Bytes) (env : Env) : Except String Bool × Db cfg :=
  db.locked key (Cell.sismember member env.clock)

def expire (duration : Duration) (env : Env) : Option Bool × Db cfg :=
  db.locked key (Cell.expire key duration env.clock)

def ttl (env : Env) : Int64 × Db cfg := db.locked key (Cell.ttl env.clock)

def pttl (env : Env) : Int64 × Db cfg := db.locked key (Cell.pttl env.clock)

end Methods

-- ---------------------------------------------------------------------------
-- Operations on many keys
-- ---------------------------------------------------------------------------

/-- `del` -/
def del (db : Db cfg) : List Bytes → Nat × Db cfg
  | [] => (0, db)
  | key :: keys =>
    let (removed, db) := db.locked key (Cell.del key)
    let (more, db) := db.del keys
    (removed + more, db)

/-- The pattern test of `keys` and `scan`. -/
def matchesPattern (pattern key : Bytes) : Bool := pattern == [byte '*'] || globMatch pattern key

/-- `keys`: one shard after the other. -/
def keys (db : Db cfg) (pattern : Bytes) (now : Instant) : List Bytes :=
  (List.finRange cfg.numShards).flatMap fun i =>
    ((db.shards i).filter fun key entry =>
      !entry.isExpired now && matchesPattern pattern key).keys

/-- The sampling half of `purge_expired_step`, under the read lock: how many keys were
sampled and which of them were seen expired. -/
def purgeSample (db : Db cfg) (i : Fin cfg.numShards) (now : Instant) (sampleSize : Nat)
    (draws : Nat → Nat) : Nat × List Bytes :=
  let keys := (db.shards i).keys
  let n := min keys.length sampleSize
  (n, (List.range n).filterMap fun j => do
    let key ← keys[draws j % keys.length]?
    let entry ← (db.shards i).get? key
    if entry.isExpired now then some key else none)

/-- The removing loop of `purge_expired_step`. -/
def purgeKeys (i : Fin cfg.numShards) (now : Instant) : List Bytes → Db cfg → Nat × Db cfg
  | [], db => (0, db)
  | key :: keys, db =>
    let (removed, db) := db.lockedAt i key (Cell.purge key now)
    let (more, db) := purgeKeys i now keys db
    (removed + more, db)

/-- The removing half of `purge_expired_step`, under the write lock. -/
def purgeRemove (db : Db cfg) (i : Fin cfg.numShards) (now : Instant) (expiredKeys : List Bytes) :
    Db cfg :=
  let (actuallyRemoved, db) := purgeKeys i now expiredKeys db
  { db with metrics := db.metrics.recordExpiration actuallyRemoved }

/-- `purge_expired_step` -/
def purgeExpiredStep (sampleSize : Nat) (now : Instant) (shard : Nat) (draws : Nat → Nat)
    (db : Db cfg) : (Nat × Nat) × Db cfg :=
  let i := drawShard cfg shard
  let (sampled, expiredKeys) := db.purgeSample i now sampleSize draws
  ((sampled, expiredKeys.length), db.purgeRemove i now expiredKeys)

-- ---------------------------------------------------------------------------
-- SCAN
-- ---------------------------------------------------------------------------

/-- `eq_ignore_ascii_case` -/
def eqIgnoreAsciiCase (s t : String) : Bool :=
  s.toList.map Char.toLower == t.toList.map Char.toLower

def typeMatches (data : DataType) (filter : String) : Bool :=
  match data with
  | .string _ => eqIgnoreAsciiCase filter "string"
  | .list _ => eqIgnoreAsciiCase filter "list"
  | .set _ => eqIgnoreAsciiCase filter "set"
  | .hash _ => eqIgnoreAsciiCase filter "hash"

/-- Whether `scan` reports an entry. -/
def scanMatches (now : Instant) (pattern : Option Bytes) (typeFilter : Option String)
    (key : Bytes) (entry : CacheEntry) : Bool :=
  !entry.isExpired now && typeFilter.all (typeMatches entry.data) &&
    pattern.all (matchesPattern · key)

/-- The shards a scan visits from shard `i` on, `left` of them, with `budget` entries
still to look at: where it stops and what it reports. -/
def scanShards (db : Db cfg) (select : Bytes → CacheEntry → Bool) :
    Nat → Nat → Nat → Nat → (Nat × Nat) × List Bytes
  | 0, i, offset, _ => ((i, offset), [])
  | left + 1, i, offset, budget =>
    if h : i < cfg.numShards ∧ 0 < budget then
      let entries := (db.shards ⟨i, h.1⟩).entries
      let seen := (entries.drop offset).take budget
      let found := (seen.filter fun e => select e.1 e.2).map Prod.fst
      if offset + seen.length ≥ entries.length then
        let (stop, more) := scanShards db select left (i + 1) 0 (budget - seen.length)
        (stop, found ++ more)
      else ((i, offset + seen.length), found)
    else ((i, offset), [])

/-- `scan` -/
def scan (db : Db cfg) (cursor : Nat) (pattern : Option Bytes) (count : Nat)
    (typeFilter : Option String) (now : Instant) : Nat × List Bytes :=
  let shardIdx := cursor >>> 32
  let offset := cursor % 2 ^ 32
  if shardIdx ≥ cfg.numShards then (0, [])
  else
    let targetScan := if count = 0 then 10 else count
    let ((i, offset), matched) := db.scanShards (scanMatches now pattern typeFilter)
      (cfg.numShards - shardIdx) shardIdx offset targetScan
    (if i ≥ cfg.numShards then 0 else (i <<< 32 % U64.size) ||| offset, matched)

end Db

end InMemoryCache
