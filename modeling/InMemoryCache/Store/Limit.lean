-- SUMMARY: When the collection writes, which reserve no memory, stay within the memory limit.
import InMemoryCache.Store.Accounting
import InMemoryCache.Store.Collections
import InMemoryCache.Store.Invariant

/-!
# The memory limit

`ensure_capacity` makes room before bytes are added, and of the writes that add bytes only
`set` calls it. A collection write grows its entry by what its arguments bring and their
fields or members did not hold before, and by the key and the overhead of the entry if it
creates one. It stays within the limit exactly if that growth fits (`limit_binds_iff`).
-/

namespace InMemoryCache

open Lib

/-! ## Growth -/

theorem listSize_reverse (l : List Bytes) : listSize l.reverse = listSize l := by
  rw [listSize, listSize, List.map_reverse, List.sum_reverse]

namespace KeyOp

def fieldSize (field value : Bytes) : Nat := field.length + value.length + 32

def memberSize (member : Bytes) (_ : Unit) : Nat := member.length + 16

/-- The bytes that the arguments of a collection write bring, of each field the last value. -/
def incoming : KeyOp → Nat
  | .lpush elements | .rpush elements => listSize elements
  | .hset fields => Table.lastWeight fieldSize fields
  | .sadd members => Table.lastWeight memberSize (members.map fun m => (m, ()))
  | _ => 0

/-- The bytes that stand under the same fields or members. -/
def replaced : KeyOp → DataType → Nat
  | .hset fields, .hash map => Table.weightUnder fieldSize map (fields.map Prod.fst)
  | .sadd members, .set s => Table.weightUnder memberSize s members
  | _, _ => 0

/-- The type of collection that a write expects. -/
def accepts : KeyOp → DataType → Bool
  | .lpush _, .list _ | .rpush _, .list _ => true
  | .hset _, .hash _ => true
  | .sadd _, .set _ => true
  | _, _ => false

/-- The collection that a write creates. -/
def emptied : KeyOp → DataType
  | .hset _ => .hash ∅
  | .sadd _ => .set ∅
  | _ => .list []

/-- What a write does to the collection. -/
def edit : KeyOp → DataType → Option (Edit Nat)
  | .lpush elements => editLpush elements
  | .rpush elements => editRpush elements
  | .hset fields => editHset fields
  | .sadd members => editSadd members
  | _ => fun _ => none

theorem onCell_of_pushes {op : KeyOp} (hop : op.pushes = true) (key : Bytes) (clock : Clock)
    (c : Cell) : (op.onCell key clock c).2 = (Cell.upsert op.emptied op.edit key clock c).2 := by
  cases op with
  | lpush elements => rfl
  | rpush elements => rfl
  | hset fields => rfl
  | sadd members => rfl
  | _ => cases hop

theorem isSome_edit {op : KeyOp} (hop : op.pushes = true) (d : DataType) :
    (op.edit d).isSome = op.accepts d := by
  cases op with
  | lpush elements => cases d <;> rfl
  | rpush elements => cases d <;> rfl
  | hset fields => cases d <;> rfl
  | sadd members => cases d <;> rfl
  | _ => cases hop

/-- A write trades what stands under its fields or members for what its arguments bring. -/
theorem size_edit {op : KeyOp} {d : DataType} {e : Edit Nat} (h : op.edit d = some e) :
    e.data.size + op.replaced d = d.size + op.incoming := by
  cases op with
  | lpush elements =>
    cases d with
    | list list =>
      cases h
      show listSize (pushFront list 0 elements).1 + 0 = listSize list + listSize elements
      rw [pushFront_eq, listSize_append, listSize_reverse, Nat.add_zero, Nat.add_comm]
    | _ => cases h
  | rpush elements =>
    cases d with
    | list list =>
      cases h
      show listSize (pushBack list 0 elements).1 + 0 = listSize list + listSize elements
      rw [pushBack_eq, listSize_append, Nat.add_zero]
    | _ => cases h
  | hset fields =>
    cases d with
    | hash map =>
      cases h
      show hashSize (insertFields map fields).2.1 + _ = hashSize map + _
      rw [(insertFields_spec map fields).1]
      exact Table.sumBy_insertAll fieldSize map fields
    | _ => cases h
  | sadd members =>
    cases d with
    | set s =>
      cases h
      show setSize (insertMembers s members).2.1 + _ = setSize s + _
      have hkeys : (members.map fun m => (m, ())).map Prod.fst = members := by
        rw [List.map_map]
        exact List.map_id members
      have hsum := Table.sumBy_insertAll memberSize s (members.map fun m => (m, ()))
      rw [hkeys] at hsum
      rw [(insertMembers_spec s members).1]
      exact hsum
    | _ => cases h
  | _ => cases h

/-- The collection that a write creates holds what the arguments bring. -/
theorem exists_edit_emptied {op : KeyOp} (hop : op.pushes = true) :
    ∃ e, op.edit op.emptied = some e ∧ e.data.size = op.incoming := by
  have haccepts : op.accepts op.emptied = true ∧ op.replaced op.emptied = 0 ∧
      op.emptied.size = 0 := by
    cases op with
    | lpush elements => exact ⟨rfl, rfl, rfl⟩
    | rpush elements => exact ⟨rfl, rfl, rfl⟩
    | hset fields => exact ⟨rfl, Table.weightUnder_empty _ _, rfl⟩
    | sadd members => exact ⟨rfl, Table.weightUnder_empty _ _, rfl⟩
    | _ => cases hop
  obtain ⟨haccepts, hreplaced, hempty⟩ := haccepts
  rw [← isSome_edit hop] at haccepts
  obtain ⟨e, he⟩ := Option.isSome_iff_exists.mp haccepts
  have hsize := size_edit he
  rw [hreplaced, hempty, Nat.add_zero, Nat.zero_add] at hsize
  exact ⟨e, he, hsize⟩

end KeyOp

namespace Cell

variable {key : Bytes} {clock : Clock} {c : Cell} {empty : DataType}
  {edit : DataType → Option (Edit Nat)}

/-- A write to a key without a live entry leaves a new one. -/
theorem weight_upsert_vacant (h : c.vacant clock = true) {e : Edit Nat} (he : edit empty = some e) :
    (upsert empty edit key clock c).2.weight key = key.length + e.data.size + entryOverhead := by
  have hnone : (c.evictExpired key clock).slot = none := slot_evictExpired_of_vacant h
  have hnew : edit (CacheEntry.new empty none clock.millis).data = some e := he
  rw [upsert, orInsert, hnone]
  dsimp only
  rw [hnew]
  rfl

theorem evictExpired_of_live {entry : CacheEntry} (h : c.slot = some entry)
    (hexp : entry.isExpired clock.now = false) : c.evictExpired key clock = c := by
  rw [evictExpired, h]
  exact if_neg (Bool.eq_false_iff.mp hexp)

/-- A write to a live entry edits its value, if it has the right type. -/
theorem weight_upsert_live {entry : CacheEntry} (h : c.slot = some entry)
    (hexp : entry.isExpired clock.now = false) :
    (upsert empty edit key clock c).2.weight key = key.length +
      ((edit entry.data).elim entry.data.size fun e => e.data.size) + entryOverhead := by
  rw [upsert, evictExpired_of_live h hexp, orInsert, h]
  dsimp only
  cases edit entry.data with
  | none => exact weight_some h
  | some e => rfl

end Cell

/-! ## The store -/

namespace Db

variable {cfg : Config}

/-- The bytes a collection write adds and those it replaces. Without a live entry it adds a
whole one, and replaces the expired one if there is any; a live entry of another type it
leaves alone. -/
def exchange (db : Db cfg) (env : Env) (key : Bytes) (op : KeyOp) : Nat × Nat :=
  match db.entry key with
  | none => (key.length + op.incoming + entryOverhead, 0)
  | some entry =>
    if entry.isExpired env.clock.now then
      (key.length + op.incoming + entryOverhead, entry.sizeBytes key)
    else if op.accepts entry.data then (op.incoming, op.replaced entry.data)
    else (0, 0)

/-- There is room for what a collection write adds, less what it replaces. -/
def Fits (db : Db cfg) (env : Env) (key : Bytes) (op : KeyOp) : Prop :=
  db.totalSize + (db.exchange env key op).1 ≤ cfg.maxmemory + (db.exchange env key op).2

instance (db : Db cfg) (env : Env) (key : Bytes) (op : KeyOp) : Decidable (db.Fits env key op) :=
  inferInstanceAs (Decidable (_ ≤ _))

/-- No other key is stored. -/
def Only (db : Db cfg) (key : Bytes) : Prop := ∀ i k, (db.shards i).get? k ≠ none → k = key

theorem only_locked (db : Db cfg) (key : Bytes) (f : Cell → α × Cell) :
    (db.locked key f).2.Only key ↔ db.Only key := by
  have hother : ∀ i k, k ≠ key →
      ((db.locked key f).2.shards i).get? k = (db.shards i).get? k := by
    intro i k hk
    show ((db.putCellAt _ key _).shards i).get? k = _
    rw [get?_putCellAt, if_neg fun hik => hk hik.2]
  constructor
  · intro h i k hne
    by_contra hk
    exact hk (h i k (by rwa [hother i k hk]))
  · intro h i k hne
    by_contra hk
    exact hk (h i k (by rwa [← hother i k hk]))

/-- A collection write stays within the limit exactly if what it adds fits. -/
theorem totalSize_le_iff {db : Db cfg} (h : db.totalSize ≤ cfg.maxmemory) (env : Env)
    (key : Bytes) {op : KeyOp} (hop : op.pushes = true) :
    (db.performKey key env op).2.totalSize ≤ cfg.maxmemory ↔ db.Fits env key op := by
  -- the other entries weigh the same before and after, so the one under the key decides
  obtain ⟨others, hbefore, hafter⟩ := exists_others db (getShardIndex cfg key) key
  rw [performKey_eq, reserved_of_pushes hop]
  show (db.putCellAt _ key (op.onCell key env.clock (db.cellAt _ key)).2).totalSize ≤ _ ↔ _
  rw [hafter, KeyOp.onCell_of_pushes hop, Fits, exchange]
  obtain ⟨e, he, hsize⟩ := KeyOp.exists_edit_emptied hop
  have hvacant : (db.cellAt (getShardIndex cfg key) key).vacant env.clock = true →
      (Cell.upsert op.emptied op.edit key env.clock
        (db.cellAt (getShardIndex cfg key) key)).2.weight key =
        key.length + op.incoming + entryOverhead := fun hc =>
    hsize ▸ Cell.weight_upsert_vacant hc he
  cases hslot : db.entry key with
  | none =>
    have hcell : (db.cellAt (getShardIndex cfg key) key).slot = none := hslot
    rw [hvacant (by rw [Cell.vacant, hcell]; rfl)]
    rw [Cell.weight_none hcell] at hbefore
    dsimp only
    omega
  | some entry =>
    have hcell : (db.cellAt (getShardIndex cfg key) key).slot = some entry := hslot
    rw [Cell.weight_some hcell] at hbefore
    dsimp only
    cases hexp : entry.isExpired env.clock.now with
    | true =>
      rw [hvacant (by rw [Cell.vacant, hcell]; exact hexp), if_pos rfl]
      omega
    | false =>
      rw [Cell.weight_upsert_live hcell hexp, if_neg Bool.false_ne_true, ← KeyOp.isSome_edit hop]
      rw [CacheEntry.sizeBytes] at hbefore
      cases hedit : op.edit entry.data with
      | none =>
        simp only [Option.elim_none, Option.isSome_none, Bool.false_eq_true, if_false]
        omega
      | some e =>
        have hgrowth := KeyOp.size_edit hedit
        simp only [Option.elim_some, Option.isSome_some, if_true]
        omega

/-- In every reachable store within the limit, a collection write leaves the store within the
limit, or its key the only one, exactly if what it adds fits or there is no other key. -/
theorem limit_binds_iff (done : List (Env × Op)) (env : Env) (key : Bytes) (op : KeyOp)
    (hop : op.pushes = true)
    (h : ((empty : Db cfg).run done).totalSize ≤ cfg.maxmemory) :
    let before := (empty : Db cfg).run done
    let after := (empty : Db cfg).run (done ++ [(env, .on key op)])
    after.totalSize ≤ cfg.maxmemory ∨ after.Only key ↔ before.Fits env key op ∨ before.Only key := by
  intro before after
  have hafter : after = (before.performKey key env op).2 := run_append _ _ _
  have honly : after.Only key ↔ before.Only key := by
    rw [hafter, performKey_eq, reserved_of_pushes hop]
    exact only_locked before key _
  rw [honly, hafter, totalSize_le_iff h env key hop]

/-- A set is created next to a string, and there is room for it. -/
theorem limit_binds_iff_roomy :
    let env : Env := { clock := { now := 0, millis := 0 }, draws := fun _ _ => (0, 0) }
    let after := (empty : Db (.standard 200 List.length)).run
      [(env, .on [97] (.set [118] none)), (env, .on [98] (.sadd [[120], [120]]))]
    after.totalSize ≤ 200 ∨ after.Only [98] := by
  intro env
  exact (limit_binds_iff [(env, .on [97] (.set [118] none))] env [98] (.sadd [[120], [120]]) rfl
    (by decide +kernel)).mpr (.inl (by decide +kernel))

/-- With a limit of 100 bytes, `LPUSH bb x` leaves 149 bytes in the store and does not evict
the other key, which holds 66 of them. -/
theorem lpush_exceeds_limit :
    let env : Env := { clock := { now := 0, millis := 0 }, draws := fun _ _ => (0, 0) }
    let before := (empty : Db (.standard 100 List.length)).run [(env, .on [97] (.set [118] none))]
    let after := (before.performKey [98, 98] env (.lpush [[120]])).2
    before.totalSize = 66 ∧ after.totalSize = 149 ∧ ¬ after.Only [98, 98] := by
  refine ⟨by decide +kernel, by decide +kernel, fun h => ?_⟩
  have hother := h (getShardIndex _ [97]) [97] (by decide +kernel)
  exact absurd hother (by decide)

end Db

end InMemoryCache
