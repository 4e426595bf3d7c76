-- SUMMARY: Sequences of store operations, and the frame laws of a locked operation.
import InMemoryCache.Store.Db

/-!
# Runs

`Op` names the public operations of `Db` with their arguments, `Db.perform` calls the
method of that name, and a run performs one operation after the other. Every
operation on a single key is a function of the cell under that key (`KeyOp.onCell`);
the frame laws say that nothing but that cell changes.
-/

namespace InMemoryCache

open Lib

/-- The operations on a single key. -/
inductive KeyOp where
  | get
  | set (value : Bytes) (expiresAt : Option Instant)
  | lpush (elements : List Bytes)
  | rpush (elements : List Bytes)
  | lpop
  | rpop
  | lrange (start stop : Int64)
  | hset (fields : List (Bytes × Bytes))
  | hget (field : Bytes)
  | hdel (fields : List Bytes)
  | hgetall
  | sadd (members : List Bytes)
  | smembers
  | srem (members : List Bytes)
  | sismember (member : Bytes)
  | expire (duration : Duration)
  | ttl
  | pttl
  deriving DecidableEq, Repr

inductive Op where
  | on (key : Bytes) (op : KeyOp)
  | del (keys : List Bytes)
  | keys (pattern : Bytes)
  | purge (sampleSize shard : Nat) (draws : Nat → Nat)
  | evict (sampleSize : Nat) (draws : Nat → Nat × Nat)

/-- What a method returns. -/
inductive Answer where
  | done
  | value (r : Except String (Option Bytes))
  | count (r : Except String Nat)
  | items (r : Except String (List Bytes))
  | members (r : Except String (List Bytes))
  | pairs (r : Except String (List (Bytes × Bytes)))
  | found (r : Except String Bool)
  | expired (r : Option Bool)
  | time (i : Int64)
  | sampled (r : Nat × Nat)
  | evicted (r : Bool)

/-- A family member's result under its own kind of answer. -/
def answer (wrap : ρ → Answer) (x : ρ × σ) : Answer × σ := (wrap x.1, x.2)

namespace Db

variable {cfg : Config}

/-- Call the method that `op` names. -/
def performKey (db : Db cfg) (key : Bytes) (env : Env) : KeyOp → Answer × Db cfg
  | .get => answer .value (db.get key env)
  | .set value expiresAt => (.done, db.set key value expiresAt env)
  | .lpush elements => answer .count (db.lpush key elements env)
  | .rpush elements => answer .count (db.rpush key elements env)
  | .lpop => answer .value (db.lpop key env)
  | .rpop => answer .value (db.rpop key env)
  | .lrange start stop => answer .items (db.lrange key start stop env)
  | .hset fields => answer .count (db.hset key fields env)
  | .hget field => answer .value (db.hget key field env)
  | .hdel fields => answer .count (db.hdel key fields env)
  | .hgetall => answer .pairs (db.hgetall key env)
  | .sadd members => answer .count (db.sadd key members env)
  | .smembers => answer .members (db.smembers key env)
  | .srem members => answer .count (db.srem key members env)
  | .sismember member => answer .found (db.sismember key member env)
  | .expire duration => answer .expired (db.expire key duration env)
  | .ttl => answer .time (db.ttl key env)
  | .pttl => answer .time (db.pttl key env)

def perform (db : Db cfg) (env : Env) : Op → Answer × Db cfg
  | .on key op => db.performKey key env op
  | .del keys => answer (fun n => .count (.ok n)) (db.del keys)
  | .keys pattern => (.members (.ok (db.keys pattern env.clock.now)), db)
  | .purge sampleSize shard draws =>
    answer .sampled (db.purgeExpiredStep sampleSize env.clock.now shard draws)
  | .evict sampleSize draws => answer .evicted (db.evictLruStep sampleSize draws)

/-- Perform operations one after the other, each in its own environment. -/
def run (db : Db cfg) : List (Env × Op) → Db cfg
  | [] => db
  | (env, op) :: ops => (db.perform env op).2.run ops

theorem run_append (db : Db cfg) (ops ops' : List (Env × Op)) :
    db.run (ops ++ ops') = (db.run ops).run ops' := by
  induction ops generalizing db with
  | nil => rfl
  | cons step ops ih => exact ih _

end Db

/-- What an operation does to the cell under its key. -/
def KeyOp.onCell (key : Bytes) (clock : Clock) (c : Cell) : KeyOp → Answer × Cell
  | .get => answer .value (Cell.get key clock c)
  | .set value expiresAt => (.done, Cell.set key value expiresAt clock c)
  | .lpush elements => answer .count (Cell.lpush key elements clock c)
  | .rpush elements => answer .count (Cell.rpush key elements clock c)
  | .lpop => answer .value (Cell.lpop key clock c)
  | .rpop => answer .value (Cell.rpop key clock c)
  | .lrange start stop => answer .items (Cell.lrange start.toInt stop.toInt clock c)
  | .hset fields => answer .count (Cell.hset key fields clock c)
  | .hget field => answer .value (Cell.hget field clock c)
  | .hdel fields => answer .count (Cell.hdel key fields clock c)
  | .hgetall => answer .pairs (Cell.hgetall clock c)
  | .sadd members => answer .count (Cell.sadd key members clock c)
  | .smembers => answer .members (Cell.smembers clock c)
  | .srem members => answer .count (Cell.srem key members clock c)
  | .sismember member => answer .found (Cell.sismember member clock c)
  | .expire duration => answer .expired (Cell.expire key duration clock c)
  | .ttl => answer .time (Cell.ttl clock c)
  | .pttl => answer .time (Cell.pttl clock c)

namespace Db

variable {cfg : Config}

/-- The store an operation finds once the memory limit was enforced; only `set`
enforces it. -/
def reserved (db : Db cfg) (key : Bytes) (env : Env) : KeyOp → Db cfg
  | .set value expiresAt =>
    let newEntry := CacheEntry.new (.string value) expiresAt env.clock.millis
    db.ensureCapacity (newEntry.sizeBytes key) env.draws
  | _ => db

theorem performKey_eq (db : Db cfg) (key : Bytes) (env : Env) (op : KeyOp) :
    db.performKey key env op =
      (db.reserved key env op).locked key fun c => op.onCell key env.clock c := by
  cases op <;> rfl

/-! ## The eviction rules -/

section Eviction

variable {P : Db cfg → Prop} {db : Db cfg}

/-- An eviction step keeps what the removal of an entry and the counting of it keep. -/
theorem evictLruStep_keeps
    (hremove : ∀ {s} (i : Fin cfg.numShards) key, P s → P (s.lockedAt i key (Cell.del key)).2)
    (hmetrics : ∀ {s} (m : Metrics), P s → P { s with metrics := m })
    (h : P db) (sampleSize : Nat) (draws : Nat → Nat × Nat) :
    P (db.evictLruStep sampleSize draws).2 := by
  rw [evictLruStep]
  split
  · exact h
  · rename_i i key _
    dsimp only
    split
    · exact hmetrics _ (hremove i key h)
    · exact hremove i key h

/-- The loop that makes room keeps what an eviction step keeps. By induction on the number of
rounds it may take. -/
theorem ensureCapacityLoop_keeps
    (hstep : ∀ {s} draws, P s → P (s.evictLruStep lruSampleSize draws).2) (h : P db)
    (neededBytes fuel : Nat) (draws : Nat → Nat → Nat × Nat) :
    P (ensureCapacityLoop neededBytes fuel draws db) := by
  induction fuel generalizing db draws with
  | zero => exact h
  | succ fuel ih =>
    have hafter := hstep (draws 0) h
    rw [ensureCapacityLoop]
    split
    · split
      · rename_i db' hevict
        rw [hevict] at hafter
        exact ih hafter _
      · rename_i db' hevict
        rw [hevict] at hafter
        exact hafter
    · exact h

/-- An operation finds a store in which what an eviction step keeps still holds. -/
theorem reserved_keeps (hstep : ∀ {s} draws, P s → P (s.evictLruStep lruSampleSize draws).2)
    (h : P db) (key : Bytes) (env : Env) (op : KeyOp) : P (db.reserved key env op) := by
  cases op with
  | set value expiresAt =>
    show P (ensureCapacity _ _ db)
    rw [ensureCapacity]
    split
    · exact ensureCapacityLoop_keeps hstep h _ _ _
    · exact h
  | _ => exact h

end Eviction

/-! ## Frame laws -/

section Frame

variable (db : Db cfg) (i : Fin cfg.numShards) (key : Bytes) (c : Cell)

@[simp] theorem memory_putCellAt : (db.putCellAt i key c).memory = c.memory := rfl
@[simp] theorem metrics_putCellAt : (db.putCellAt i key c).metrics = c.metrics := rfl
@[simp] theorem memory_cellAt : (db.cellAt i key).memory = db.memory := rfl
@[simp] theorem metrics_cellAt : (db.cellAt i key).metrics = db.metrics := rfl
@[simp] theorem slot_cellAt : (db.cellAt i key).slot = (db.shards i).get? key := rfl

theorem shards_putCellAt (j : Fin cfg.numShards) :
    (db.putCellAt i key c).shards j =
      if j = i then (db.shards i).overwrite key c.slot else db.shards j := by
  simp only [putCellAt, Function.update_apply]

/-- Only the cell under the key changes. -/
theorem get?_putCellAt (j : Fin cfg.numShards) (k : Bytes) :
    ((db.putCellAt i key c).shards j).get? k =
      if j = i ∧ k = key then c.slot else (db.shards j).get? k := by
  rw [shards_putCellAt]
  by_cases hj : j = i
  · subst hj
    rw [if_pos rfl, Table.get?_overwrite]
    simp
  · rw [if_neg hj, if_neg fun h => hj h.1]

theorem others_putCellAt (db : Db cfg) {key : Bytes} (c : Cell) (i : Fin cfg.numShards) (k : Bytes)
    (hik : ¬ (i = getShardIndex cfg key ∧ k = key)) :
    ((db.putCellAt (getShardIndex cfg key) key c).shards i).get? k = (db.shards i).get? k := by
  rw [get?_putCellAt, if_neg hik]

/-- The entry under the key is the one the cell holds. -/
theorem entry_putCellAt (db : Db cfg) (key : Bytes) (c : Cell) :
    (db.putCellAt (getShardIndex cfg key) key c).entry key = c.slot := by
  rw [entry, get?_putCellAt, if_pos ⟨rfl, rfl⟩]

theorem entry_locked (db : Db cfg) (key : Bytes) (f : Cell → α × Cell) :
    (db.locked key f).2.entry key = (f (db.cellAt (getShardIndex cfg key) key)).2.slot :=
  entry_putCellAt db key _

theorem entry_lockedAt_ne (db : Db cfg) {i : Fin cfg.numShards} {key k : Bytes} (hk : key ≠ k)
    (f : Cell → α × Cell) : (db.lockedAt i k f).2.entry key = db.entry key := by
  show ((db.putCellAt i k _).shards _).get? key = _
  rw [get?_putCellAt, if_neg fun h => hk h.2]
  rfl

theorem sum_map_update {n : Nat} (w : Fin n → Nat) {i : Fin n} (x : Nat) {l : List (Fin n)}
    (hl : l.Nodup) (hi : i ∈ l) :
    (l.map (Function.update w i x)).sum + w i = (l.map w).sum + x := by
  induction l with
  | nil => cases hi
  | cons j l ih =>
    rw [List.nodup_cons] at hl
    rw [List.map_cons, List.map_cons, List.sum_cons, List.sum_cons]
    rcases List.mem_cons.mp hi with rfl | hi
    · have hrest : l.map (Function.update w i x) = l.map w :=
        List.map_congr_left fun k hk => Function.update_of_ne (ne_of_mem_of_not_mem hk hl.1) x w
      rw [hrest, Function.update_self]
      omega
    · have hj : j ≠ i := (ne_of_mem_of_not_mem hi hl.1).symm
      have h := ih hl.2 hi
      rw [Function.update_of_ne hj]
      omega

/-- Summed over the shards, a weight changes by what it changes in the one written. -/
theorem sum_shards_putCellAt (w : Table Bytes CacheEntry → Nat) :
    ((List.finRange cfg.numShards).map fun j => w ((db.putCellAt i key c).shards j)).sum +
        w (db.shards i) =
      ((List.finRange cfg.numShards).map fun j => w (db.shards j)).sum +
        w ((db.shards i).overwrite key c.slot) := by
  have h := sum_map_update (fun j => w (db.shards j)) (w ((db.shards i).overwrite key c.slot))
    (List.nodup_finRange cfg.numShards) (List.mem_finRange i)
  have hw : (fun j => w ((db.putCellAt i key c).shards j)) =
      Function.update (fun j => w (db.shards j)) i (w ((db.shards i).overwrite key c.slot)) := by
    funext j
    rw [shards_putCellAt, Function.update_apply]
    split <;> rfl
  rw [hw]
  exact h

theorem putCellAt_cellAt : db.putCellAt i key (db.cellAt i key) = db := by
  rw [putCellAt, slot_cellAt, Table.overwrite_get?, Function.update_eq_self]
  rfl

end Frame

end Db

/-! ## The number of entries -/

/-- 1 if there is an entry under the key. -/
def Cell.held (c : Cell) : Nat := c.slot.elim 0 fun _ => 1

namespace Db

variable {cfg : Config}

/-- A locked operation changes the number of entries by what it changes in its cell. -/
theorem len_putCellAt (db : Db cfg) (i : Fin cfg.numShards) (key : Bytes) (c : Cell) :
    (db.putCellAt i key c).len + (db.cellAt i key).held = db.len + c.held := by
  have hshards := db.sum_shards_putCellAt i key c Table.size
  have hshard := Table.sumBy_overwrite (fun _ _ => 1) (db.shards i) key c.slot
  rw [← Table.size_eq_sumBy, ← Table.size_eq_sumBy] at hshard
  simp only [len, Cell.held, slot_cellAt]
  omega

/-- A removal reports what it takes out, and counts nothing. -/
def Removes (x : Cell → Nat × Cell) : Prop :=
  ∀ c, (x c).2.held + (x c).1 = c.held ∧ (x c).2.metrics = c.metrics

theorem held_remove {key : Bytes} {c : Cell} {entry : CacheEntry} (h : c.slot = some entry) :
    (c.remove key entry).held + 1 = c.held := by
  rw [Cell.held, Cell.held, h]
  rfl

theorem removes_del (key : Bytes) : Removes (Cell.del key) := by
  intro c
  rw [Cell.del]
  cases hslot : c.slot with
  | none => exact ⟨rfl, rfl⟩
  | some entry => exact ⟨held_remove hslot, rfl⟩

theorem removes_purge (key : Bytes) (now : Instant) : Removes (Cell.purge key now) := by
  intro c
  rw [Cell.purge]
  cases hslot : c.slot with
  | none => exact ⟨rfl, rfl⟩
  | some entry =>
    dsimp only
    split
    · exact ⟨held_remove hslot, rfl⟩
    · exact ⟨rfl, rfl⟩

theorem len_lockedAt (db : Db cfg) (i : Fin cfg.numShards) (key : Bytes) {f : Cell → Nat × Cell}
    (hf : Removes f) : (db.lockedAt i key f).2.len + (db.lockedAt i key f).1 = db.len ∧
      (db.lockedAt i key f).2.metrics = db.metrics := by
  obtain ⟨hheld, hmetrics⟩ := hf (db.cellAt i key)
  have hput := db.len_putCellAt i key (f (db.cellAt i key)).2
  refine ⟨?_, hmetrics⟩
  show (db.putCellAt i key (f (db.cellAt i key)).2).len + (f (db.cellAt i key)).1 = _
  omega

end Db

end InMemoryCache
