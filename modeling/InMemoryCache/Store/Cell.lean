-- SUMMARY: The operations on one key, as they run under the lock of the key's shard.
import InMemoryCache.Store.Value

/-!
# Operations on one key

While an operation holds its shard's lock it works on the entry under one key and on
the two shared atomics, the memory counter and the metrics. `Cell` is that view. The
operations come in families (writes that create, pops, removals, lookups); each is
one definition, and the source's functions are its instances.
-/

namespace InMemoryCache

-- ---------------------------------------------------------------------------
-- Entries
-- ---------------------------------------------------------------------------

/-- `ESTIMATED_ENTRY_OVERHEAD` -/
def entryOverhead : Nat := 64

/-- `WRONG_TYPE_ERR` -/
def wrongTypeErr : String := "WRONGTYPE Operation against a key holding the wrong kind of value"

structure CacheEntry where
  data : DataType
  expiresAt : Option Instant
  lastAccessed : Nat
  deriving DecidableEq, Repr

namespace CacheEntry

def new (data : DataType) (expiresAt : Option Instant) (nowMillis : Nat) : CacheEntry :=
  { data := data, expiresAt := expiresAt, lastAccessed := nowMillis }

def isExpired (entry : CacheEntry) (now : Instant) : Bool :=
  match entry.expiresAt with
  | some exp => decide (now ≥ exp)
  | none => false

def sizeBytes (entry : CacheEntry) (key : Bytes) : Nat :=
  key.length + entry.data.size + entryOverhead

end CacheEntry

-- ---------------------------------------------------------------------------
-- The shared counters
-- ---------------------------------------------------------------------------

/-- The `AtomicUsize` behind `current_memory`. `total` is what was added less what was
subtracted; the atomic holds it modulo `2^64`. `wrapped` records that some
`sub_memory` took it below zero. -/
structure Memory where
  total : Int
  wrapped : Bool
  deriving DecidableEq, Repr

namespace Memory

def zero : Memory := { total := 0, wrapped := false }

/-- `current_memory.load` -/
def load (m : Memory) : Nat := (m.total % (U64.size : Int)).toNat

def add (m : Memory) (n : Nat) : Memory := { m with total := m.total + n }

def sub (m : Memory) (n : Nat) : Memory where
  total := m.total - n
  wrapped := m.wrapped || decide (m.total < n)

def apply (m : Memory) : Delta → Memory
  | .add n => m.add n
  | .sub n => m.sub n

def applyAll (m : Memory) (ds : List Delta) : Memory := ds.foldl apply m

end Memory

/-- The counters of `Metrics` that the store writes: each an `AtomicU64`, whose `fetch_add`
wraps. -/
structure Metrics where
  hits : UInt64
  misses : UInt64
  evictedKeys : UInt64
  expiredKeys : UInt64
  deriving DecidableEq, Repr

namespace Metrics

def zero : Metrics := { hits := 0, misses := 0, evictedKeys := 0, expiredKeys := 0 }

def recordHit (m : Metrics) : Metrics := { m with hits := m.hits + 1 }
def recordMiss (m : Metrics) : Metrics := { m with misses := m.misses + 1 }
def recordEviction (m : Metrics) (n : Nat) : Metrics :=
  { m with evictedKeys := m.evictedKeys + .ofNat n }
def recordExpiration (m : Metrics) (n : Nat) : Metrics :=
  { m with expiredKeys := m.expiredKeys + .ofNat n }

theorem recordEviction_zero (m : Metrics) : m.recordEviction 0 = m := by
  simp [recordEviction]

theorem recordEviction_add (m : Metrics) (n k : Nat) :
    (m.recordEviction n).recordEviction k = m.recordEviction (n + k) := by
  simp [recordEviction, UInt64.add_assoc]

theorem recordExpiration_zero (m : Metrics) : m.recordExpiration 0 = m := by
  simp [recordExpiration]

theorem recordExpiration_add (m : Metrics) (n k : Nat) :
    (m.recordExpiration n).recordExpiration k = m.recordExpiration (n + k) := by
  simp [recordExpiration, UInt64.add_assoc]

/-- The lookups that were counted. -/
def lookups (m : Metrics) : UInt64 := m.hits + m.misses

theorem lookups_recordHit (m : Metrics) : m.recordHit.lookups = m.lookups + 1 := by
  simp only [lookups, recordHit]
  rw [UInt64.add_assoc, UInt64.add_comm 1, UInt64.add_assoc]

theorem lookups_recordMiss (m : Metrics) : m.recordMiss.lookups = m.lookups + 1 :=
  (UInt64.add_assoc ..).symm

end Metrics

/-- What an operation reads from the clock: the instant deadlines are tested against,
and the milliseconds since the start that it stamps on the entry. -/
structure Clock where
  now : Instant
  millis : Nat
  deriving DecidableEq, Repr

-- ---------------------------------------------------------------------------
-- Cells
-- ---------------------------------------------------------------------------

/-- The entry under one key of a locked shard, with the shared counters. -/
structure Cell where
  slot : Option CacheEntry
  memory : Memory
  metrics : Metrics
  deriving DecidableEq, Repr

namespace Cell

def put (c : Cell) (entry : CacheEntry) : Cell := { c with slot := some entry }
def update (c : Cell) (ds : List Delta) : Cell := { c with memory := c.memory.applyAll ds }
def recordHit (c : Cell) : Cell := { c with metrics := c.metrics.recordHit }
def recordMiss (c : Cell) : Cell := { c with metrics := c.metrics.recordMiss }
def recordExpiration (c : Cell) (n : Nat) : Cell :=
  { c with metrics := c.metrics.recordExpiration n }

/-- Remove the entry and subtract its size. -/
def remove (c : Cell) (key : Bytes) (entry : CacheEntry) : Cell :=
  { c with slot := none, memory := c.memory.sub (entry.sizeBytes key) }

/-! ## Lookups -/

/-- What the read-locked lookups share. `read` gives the result and whether it counts
as a hit, and `absent` is the result for a missing or expired entry. -/
def lookup (absent : ρ) (read : DataType → Option (ρ × Bool)) (clock : Clock) (c : Cell) :
    Except String ρ × Cell :=
  match c.slot with
  | none => (.ok absent, c.recordMiss)
  | some entry =>
    if entry.isExpired clock.now then (.ok absent, c.recordMiss)
    else match read entry.data with
      | some (r, hit) =>
        let c := c.put { entry with lastAccessed := clock.millis }
        (.ok r, if hit then c.recordHit else c.recordMiss)
      | none => (.error wrongTypeErr, c)

def readRange (start stop : Int) : DataType → Option (List Bytes × Bool)
  | .list list => some (listRange list start stop, true)
  | _ => none

def readField (field : Bytes) : DataType → Option (Option Bytes × Bool)
  | .hash map => some (map.get? field, (map.get? field).isSome)
  | _ => none

def readPairs : DataType → Option (List (Bytes × Bytes) × Bool)
  | .hash map => some (map.entries, true)
  | _ => none

def readMembers : DataType → Option (List Bytes × Bool)
  | .set set => some (set.keys, true)
  | _ => none

def readMember (member : Bytes) : DataType → Option (Bool × Bool)
  | .set set => some (set.contains member, set.contains member)
  | _ => none

def lrange (start stop : Int) (clock : Clock) : Cell → Except String (List Bytes) × Cell :=
  lookup [] (readRange start stop) clock

def hget (field : Bytes) (clock : Clock) : Cell → Except String (Option Bytes) × Cell :=
  lookup none (readField field) clock

def hgetall (clock : Clock) : Cell → Except String (List (Bytes × Bytes)) × Cell :=
  lookup [] readPairs clock

def smembers (clock : Clock) : Cell → Except String (List Bytes) × Cell :=
  lookup [] readMembers clock

def sismember (member : Bytes) (clock : Clock) : Cell → Except String Bool × Cell :=
  lookup false (readMember member) clock

/-- The answer of `get` on a live entry; unlike the other lookups it counts a hit
also when the type is wrong. -/
def getLive (entry : CacheEntry) (clock : Clock) (c : Cell) :
    Except String (Option Bytes) × Cell :=
  let c := (c.put { entry with lastAccessed := clock.millis }).recordHit
  match entry.data with
  | .string b => (.ok (some b), c)
  | _ => (.error wrongTypeErr, c)

/-- `get` under the read lock: no answer if the entry is expired. -/
def getRead (clock : Clock) (c : Cell) : Option (Except String (Option Bytes)) × Cell :=
  match c.slot with
  | none => (some (.ok none), c.recordMiss)
  | some entry =>
    if entry.isExpired clock.now then (none, c)
    else
      let (r, c) := getLive entry clock c
      (some r, c)

/-- `get` under the write lock: passive eviction, after a second look. -/
def getWrite (key : Bytes) (clock : Clock) (c : Cell) : Except String (Option Bytes) × Cell :=
  match c.slot with
  | none => (.ok none, c.recordMiss)
  | some entry =>
    if entry.isExpired clock.now then
      (.ok none, ((c.remove key entry).recordExpiration 1).recordMiss)
    else getLive entry clock c

def get (key : Bytes) (clock : Clock) (c : Cell) : Except String (Option Bytes) × Cell :=
  match getRead clock c with
  | (some r, c) => (r, c)
  | (none, c) => getWrite key clock c

/-- What `ttl` and `pttl` share: `unit` counts a duration. -/
def remaining (unit : Duration → Nat) (clock : Clock) (c : Cell) : Int64 × Cell :=
  match c.slot with
  | none => (-2, c)
  | some entry =>
    match entry.expiresAt with
    | some exp => if clock.now ≥ exp then (-2, c) else (Int64.ofNat (unit (exp - clock.now)), c)
    | none => (-1, c)

def ttl (clock : Clock) : Cell → Int64 × Cell := remaining Duration.asSecs clock

def pttl (clock : Clock) : Cell → Int64 × Cell := remaining Duration.asMillis clock

/-! ## Writes that create -/

/-- The passive eviction of the pushing commands, which counts no expiration. -/
def evictExpired (key : Bytes) (clock : Clock) (c : Cell) : Cell :=
  match c.slot with
  | some entry => if entry.isExpired clock.now then c.remove key entry else c
  | none => c

/-- `entry(key).or_insert_with(..)`; the new entry is not added to the counter. -/
def orInsert (empty : DataType) (clock : Clock) (c : Cell) : CacheEntry × Cell :=
  match c.slot with
  | some entry => (entry, c)
  | none =>
    let entry := CacheEntry.new empty none clock.millis
    (entry, c.put entry)

/-- What `lpush`, `rpush`, `hset` and `sadd` share. -/
def upsert (empty : DataType) (edit : DataType → Option (Edit Nat)) (key : Bytes) (clock : Clock)
    (c : Cell) : Except String Nat × Cell :=
  let (entry, c) := (c.evictExpired key clock).orInsert empty clock
  match edit entry.data with
  | some e =>
    (.ok e.result, (c.put { entry with data := e.data, lastAccessed := clock.millis }).update e.deltas)
  | none => (.error wrongTypeErr, c)

def lpush (key : Bytes) (elements : List Bytes) : Clock → Cell → Except String Nat × Cell :=
  upsert (.list []) (editLpush elements) key

def rpush (key : Bytes) (elements : List Bytes) : Clock → Cell → Except String Nat × Cell :=
  upsert (.list []) (editRpush elements) key

def hset (key : Bytes) (fields : List (Bytes × Bytes)) : Clock → Cell → Except String Nat × Cell :=
  upsert (.hash ∅) (editHset fields) key

def sadd (key : Bytes) (members : List Bytes) : Clock → Cell → Except String Nat × Cell :=
  upsert (.set ∅) (editSadd members) key

/-- `set` under the lock, after the memory limit was enforced. -/
def set (key value : Bytes) (expiresAt : Option Instant) (clock : Clock) (c : Cell) : Cell :=
  let newEntry := CacheEntry.new (.string value) expiresAt clock.millis
  let newSize := newEntry.sizeBytes key
  match c.slot with
  | some old => (c.put newEntry).update [Delta.resize (old.sizeBytes key) newSize]
  | none => (c.put newEntry).update [.add newSize]

/-! ## Writes that shrink -/

/-- Store the shrunk value, or remove the entry once nothing is left in it. -/
def shrinkTo (key : Bytes) (entry : CacheEntry) (e : Edit ρ) (clock : Clock) (c : Cell) : Cell :=
  let c := c.update e.deltas
  if e.data.isEmpty then c.remove key { entry with data := e.data }
  else c.put { entry with data := e.data, lastAccessed := clock.millis }

/-- What `lpop` and `rpop` share. -/
def pop (edit : DataType → Option (Edit (Option Bytes))) (key : Bytes) (clock : Clock) (c : Cell) :
    Except String (Option Bytes) × Cell :=
  match c.slot with
  | none => (.ok none, c.recordMiss)
  | some entry =>
    if entry.isExpired clock.now then
      (.ok none, ((c.remove key entry).recordExpiration 1).recordMiss)
    else match edit entry.data with
      | some e =>
        let c := if e.result.isSome then c.recordHit else c.recordMiss
        (.ok e.result, c.shrinkTo key entry e clock)
      | none => (.error wrongTypeErr, c)

def lpop (key : Bytes) : Clock → Cell → Except String (Option Bytes) × Cell := pop editLpop key

def rpop (key : Bytes) : Clock → Cell → Except String (Option Bytes) × Cell := pop editRpop key

/-- What `hdel` and `srem` share. -/
def removal (edit : DataType → Option (Edit Nat)) (key : Bytes) (clock : Clock) (c : Cell) :
    Except String Nat × Cell :=
  match c.slot with
  | none => (.ok 0, c)
  | some entry =>
    if entry.isExpired clock.now then (.ok 0, c.remove key entry)
    else match edit entry.data with
      | some e => (.ok e.result, c.shrinkTo key entry e clock)
      | none => (.error wrongTypeErr, c)

def hdel (key : Bytes) (fields : List Bytes) : Clock → Cell → Except String Nat × Cell :=
  removal (editHdel fields) key

def srem (key : Bytes) (members : List Bytes) : Clock → Cell → Except String Nat × Cell :=
  removal (editSrem members) key

/-! ## Operations on any type -/

/-- `del` on one of its keys. -/
def del (key : Bytes) (c : Cell) : Nat × Cell :=
  match c.slot with
  | some entry => (1, c.remove key entry)
  | none => (0, c)

/-- `expire`; no answer if `now + duration` panics, which leaves the entry as it was. -/
def expire (key : Bytes) (duration : Duration) (clock : Clock) (c : Cell) : Option Bool × Cell :=
  match c.slot with
  | none => (some false, c)
  | some entry =>
    if entry.isExpired clock.now then (some false, c.remove key entry)
    else match Instant.add clock.now duration with
      | some deadline => (some true, c.put { entry with expiresAt := some deadline })
      | none => (none, c)

/-- The sweeper's second look at a sampled key. -/
def purge (key : Bytes) (now : Instant) (c : Cell) : Nat × Cell :=
  match c.slot with
  | some entry => if entry.isExpired now then (1, c.remove key entry) else (0, c)
  | none => (0, c)

end Cell

end InMemoryCache
