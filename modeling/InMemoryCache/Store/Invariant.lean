-- SUMMARY: In every reachable store each key is in its own shard and no collection is empty.
import InMemoryCache.Store.Refinement

/-!
# The representation invariant

`Wellformed` says that every key is stored only where `get_shard_index` puts it and that
no stored collection is empty. A push creates an empty collection first and fills it
afterwards, so it needs an element to push; whatever shrinks a collection removes the
key with the last element; the sweeper and the evictor only remove.
-/

namespace InMemoryCache

open Lib

/-! ## Pushes fill -/

/-- A command's value part that never leaves an empty collection. -/
def FillingEdits (f : DataType → Option (Edit ρ)) : Prop :=
  ∀ d e, f d = some e → e.data.isEmpty = false

theorem pushFront_eq (els list : List Bytes) (added : Nat) :
    (pushFront list added els).1 = els.reverse ++ list := by
  induction els generalizing list added with
  | nil => rfl
  | cons el els ih =>
    rw [pushFront, ih, List.reverse_cons, List.append_assoc]
    rfl

theorem pushBack_eq (els list : List Bytes) (added : Nat) :
    (pushBack list added els).1 = list ++ els := by
  induction els generalizing list added with
  | nil => exact (List.append_nil list).symm
  | cons el els ih =>
    rw [pushBack, ih, List.append_assoc]
    rfl

theorem filling_editPush {push : List Bytes → Nat → List Bytes → List Bytes × Nat}
    {els : List Bytes} (hpush : ∀ list, (push list 0 els).1 ≠ []) :
    FillingEdits (editPush push els) := by
  intro d e h
  cases d with
  | list list =>
    cases h
    exact List.isEmpty_eq_false_iff.mpr (hpush list)
  | _ => cases h

theorem filling_editLpush {els : List Bytes} (h : els ≠ []) : FillingEdits (editLpush els) :=
  filling_editPush fun list => by
    rw [pushFront_eq]
    exact List.append_ne_nil_of_left_ne_nil (List.reverse_ne_nil_iff.mpr h) list

theorem filling_editRpush {els : List Bytes} (h : els ≠ []) : FillingEdits (editRpush els) :=
  filling_editPush fun list => by
    rw [pushBack_eq]
    exact List.append_ne_nil_of_right_ne_nil list h

theorem isEmpty_of_get? {t : Table α β} [DecidableEq α] {k : α} {v : β} (h : t.get? k = some v) :
    t.isEmpty = false := by
  rw [Bool.eq_false_iff]
  intro hempty
  rw [Table.isEmpty_iff_get?.mp hempty k] at h
  cases h

theorem isEmpty_insert [DecidableEq α] (t : Table α β) (k : α) (v : β) :
    (t.insert k v).isEmpty = false :=
  isEmpty_of_get? ((Table.get?_insert t k k v).trans (if_pos rfl))

theorem isEmpty_insertFields (map : Table Bytes Bytes) (fields : List (Bytes × Bytes))
    (h : map.isEmpty = false ∨ fields ≠ []) :
    (insertFields map fields).2.1.isEmpty = false := by
  induction fields generalizing map with
  | nil => exact h.resolve_right fun hne => hne rfl
  | cons kv fields ih =>
    have hrest := ih (map.insert kv.1 kv.2) (.inl (isEmpty_insert map kv.1 kv.2))
    rw [insertFields]
    dsimp only
    split <;> exact hrest

theorem isEmpty_insertMembers (set : Table Bytes Unit) (members : List Bytes)
    (h : set.isEmpty = false ∨ members ≠ []) :
    (insertMembers set members).2.1.isEmpty = false := by
  induction members generalizing set with
  | nil => exact h.resolve_right fun hne => hne rfl
  | cons m members ih =>
    rw [insertMembers]
    split
    · rename_i hcontains
      obtain ⟨v, hv⟩ := Option.isSome_iff_exists.mp hcontains
      exact ih set (.inl (isEmpty_of_get? hv))
    · exact ih (set.insert m ()) (.inl (isEmpty_insert set m ()))

theorem filling_editHset {fields : List (Bytes × Bytes)} (h : fields ≠ []) :
    FillingEdits (editHset fields) := by
  intro d e he
  cases d with
  | hash map =>
    cases he
    exact isEmpty_insertFields map fields (.inr h)
  | _ => cases he

theorem filling_editSadd {members : List Bytes} (h : members ≠ []) :
    FillingEdits (editSadd members) := by
  intro d e he
  cases d with
  | set set =>
    cases he
    exact isEmpty_insertMembers set members (.inr h)
  | _ => cases he

/-! ## Operations on one key -/

/-- The pushing operations have something to push. -/
def KeyOp.HasArguments : KeyOp → Prop
  | .lpush elements | .rpush elements => elements ≠ []
  | .hset fields => fields ≠ []
  | .sadd members => members ≠ []
  | _ => True

namespace Cell

/-- The entry under the key, if any, is no empty collection. -/
def Filled (c : Cell) : Prop := ∀ entry, c.slot = some entry → entry.data.isEmpty = false

variable {key : Bytes} {clock : Clock} {c : Cell} {entry : CacheEntry}

theorem filled_none (h : c.slot = none) : c.Filled := fun entry hentry => by
  rw [h] at hentry
  cases hentry

theorem filled_some (h : c.slot = some entry) (hdata : entry.data.isEmpty = false) : c.Filled := by
  intro entry' hentry'
  rw [h, Option.some.injEq] at hentry'
  rwa [← hentry']

theorem filled_lookup {absent : ρ} {read : DataType → Option (ρ × Bool)} (hc : c.Filled) :
    (lookup absent read clock c).2.Filled := by
  rw [lookup]
  cases hslot : c.slot with
  | none => exact filled_none hslot
  | some entry =>
    dsimp only
    split
    · exact filled_some hslot (hc entry hslot)
    · split
      · dsimp only
        split <;> exact filled_some rfl (hc entry hslot)
      · exact hc

theorem filled_getLive (hdata : entry.data.isEmpty = false) :
    (getLive entry clock c).2.Filled := by
  rw [getLive]
  split <;> exact filled_some rfl hdata

theorem filled_get (hc : c.Filled) : (get key clock c).2.Filled := by
  rw [get, getRead]
  cases hslot : c.slot with
  | none => exact filled_none hslot
  | some entry =>
    cases hexp : entry.isExpired clock.now with
    | true =>
      simp only [hexp, if_true, getWrite, hslot]
      exact filled_none rfl
    | false =>
      simp only [hexp, Bool.false_eq_true, if_false]
      exact filled_getLive (hc entry hslot)

theorem filled_remaining {unit : Duration → Nat} (hc : c.Filled) :
    (remaining unit clock c).2.Filled := by
  rw [remaining]
  cases c.slot with
  | none => exact hc
  | some entry =>
    dsimp only
    split
    · split <;> exact hc
    · exact hc

theorem filled_evictExpired (hc : c.Filled) : (c.evictExpired key clock).Filled := by
  rw [evictExpired]
  split
  · split
    · exact filled_none rfl
    · exact hc
  · exact hc

/-- What was empty before the push is not empty after it. -/
theorem filled_upsert {empty : DataType} {edit : DataType → Option (Edit Nat)}
    (hedit : FillingEdits edit) (htype : (edit empty).isSome) (hc : c.Filled) :
    (upsert empty edit key clock c).2.Filled := by
  have hevict : (c.evictExpired key clock).Filled := filled_evictExpired hc
  rw [upsert]
  generalize c.evictExpired key clock = d at hevict
  rw [orInsert]
  cases hslot : d.slot with
  | none =>
    obtain ⟨e, he⟩ := Option.isSome_iff_exists.mp htype
    have hnew : edit (CacheEntry.new empty none clock.millis).data = some e := he
    dsimp only
    rw [hnew]
    exact filled_some rfl (hedit _ _ he)
  | some entry =>
    dsimp only
    cases he : edit entry.data with
    | none => exact hevict
    | some e => exact filled_some rfl (hedit _ _ he)

theorem filled_set {value : Bytes} {expiresAt : Option Instant} :
    (set key value expiresAt clock c).Filled := by
  rw [set]
  cases c.slot <;> exact filled_some rfl rfl

/-- The last element takes the key with it. -/
theorem filled_shrinkTo {e : Edit ρ} : (shrinkTo key entry e clock c).Filled := by
  rw [shrinkTo]
  split
  · exact filled_none rfl
  · rename_i hdata
    exact filled_some rfl (Bool.eq_false_iff.mpr hdata)

theorem filled_pop {edit : DataType → Option (Edit (Option Bytes))} (hc : c.Filled) :
    (pop edit key clock c).2.Filled := by
  rw [pop]
  split
  · exact hc
  · split
    · exact filled_none rfl
    · split
      · exact filled_shrinkTo
      · exact hc

theorem filled_removal {edit : DataType → Option (Edit Nat)} (hc : c.Filled) :
    (removal edit key clock c).2.Filled := by
  rw [removal]
  split
  · exact hc
  · split
    · exact filled_none rfl
    · split
      · exact filled_shrinkTo
      · exact hc

theorem filled_expire {duration : Duration} (hc : c.Filled) :
    (expire key duration clock c).2.Filled := by
  rw [expire]
  split
  · exact hc
  · rename_i entry hslot
    split
    · exact filled_none rfl
    · split
      · exact filled_some rfl (hc entry hslot)
      · exact hc

end Cell

/-- Every operation on a key leaves no empty collection under it. -/
theorem KeyOp.filled_onCell {key : Bytes} {clock : Clock} {c : Cell} {op : KeyOp}
    (hop : op.HasArguments) (hc : c.Filled) : (op.onCell key clock c).2.Filled := by
  cases op with
  | get => exact Cell.filled_get hc
  | set value expiresAt => exact Cell.filled_set
  | lpush els => exact Cell.filled_upsert (filling_editLpush hop) rfl hc
  | rpush els => exact Cell.filled_upsert (filling_editRpush hop) rfl hc
  | hset fields => exact Cell.filled_upsert (filling_editHset hop) rfl hc
  | sadd members => exact Cell.filled_upsert (filling_editSadd hop) rfl hc
  | lpop => exact Cell.filled_pop hc
  | rpop => exact Cell.filled_pop hc
  | hdel fields => exact Cell.filled_removal hc
  | srem members => exact Cell.filled_removal hc
  | lrange start stop => exact Cell.filled_lookup hc
  | hget field => exact Cell.filled_lookup hc
  | hgetall => exact Cell.filled_lookup hc
  | smembers => exact Cell.filled_lookup hc
  | sismember member => exact Cell.filled_lookup hc
  | expire duration => exact Cell.filled_expire hc
  | ttl => exact Cell.filled_remaining hc
  | pttl => exact Cell.filled_remaining hc

/-! ## What removals keep -/

namespace Db

variable {cfg : Config}

/-- A property of what is stored that outlives the removal of any one entry. -/
structure Kept (P : Db cfg → Prop) : Prop where
  shards : ∀ {db db' : Db cfg}, P db → db'.shards = db.shards → P db'
  remove : ∀ {db : Db cfg} (i : Fin cfg.numShards) (key : Bytes), P db →
    P (db.lockedAt i key (Cell.del key)).2
  purge : ∀ {db : Db cfg} (i : Fin cfg.numShards) (key : Bytes) (now : Instant), P db →
    P (db.lockedAt i key (Cell.purge key now)).2

namespace Kept

variable {P : Db cfg → Prop} {db : Db cfg}

theorem evictLruStep (hP : Kept P) (h : P db) (sampleSize : Nat) (draws : Nat → Nat × Nat) :
    P (db.evictLruStep sampleSize draws).2 :=
  evictLruStep_keeps hP.remove (fun _ hs => hP.shards hs rfl) h sampleSize draws

theorem reserved (hP : Kept P) (h : P db) (key : Bytes) (env : Env) (op : KeyOp) :
    P (db.reserved key env op) :=
  reserved_keeps (P := P) (fun draws hs => hP.evictLruStep hs lruSampleSize draws) h key env op

theorem del (hP : Kept P) (h : P db) (keys : List Bytes) : P (db.del keys).2 := by
  induction keys generalizing db with
  | nil => exact h
  | cons key keys ih => exact ih (hP.remove (getShardIndex cfg key) key h)

/-- The removing half of the sweeper, whatever keys it was given. -/
theorem purgeRemove (hP : Kept P) (h : P db) (i : Fin cfg.numShards) (now : Instant)
    (keys : List Bytes) : P (db.purgeRemove i now keys) := by
  have hkeys : P (purgeKeys i now keys db).2 := by
    induction keys generalizing db with
    | nil => exact h
    | cons key keys ih => exact ih (hP.purge i key now h)
  exact hP.shards hkeys rfl

theorem purgeExpiredStep (hP : Kept P) (h : P db) (sampleSize : Nat) (now : Instant) (shard : Nat)
    (draws : Nat → Nat) : P (db.purgeExpiredStep sampleSize now shard draws).2 :=
  hP.purgeRemove h _ now _

end Kept

/-! ## The invariant -/

/-- No stored collection is empty. -/
def Filled (db : Db cfg) : Prop :=
  ∀ i key entry, (db.shards i).get? key = some entry → entry.data.isEmpty = false

/-- Every key is in its own shard, and no collection is empty. -/
structure Wellformed (db : Db cfg) : Prop where
  placed : db.Placed
  filled : db.Filled

theorem wellformed_empty : (empty : Db cfg).Wellformed where
  placed := placed_empty
  filled _ _ _ h := by cases h

theorem Filled.lockedAt {db : Db cfg} (h : db.Filled) {i : Fin cfg.numShards} {key : Bytes}
    {f : Cell → α × Cell} (hf : (db.cellAt i key).Filled → (f (db.cellAt i key)).2.Filled) :
    (db.lockedAt i key f).2.Filled := by
  intro j k entry hentry
  change ((db.putCellAt i key (f (db.cellAt i key)).2).shards j).get? k = some entry at hentry
  rw [get?_putCellAt] at hentry
  split at hentry
  · exact hf (fun entry hentry => h i key entry hentry) entry hentry
  · exact h j k entry hentry

theorem filled_purge {key : Bytes} {now : Instant} {c : Cell} (hc : c.Filled) :
    (Cell.purge key now c).2.Filled := by
  rcases @slot_purge key now c with hnone | hsame
  · exact Cell.filled_none hnone
  · intro entry hentry
    exact hc entry (hsame ▸ hentry)

theorem kept_placed : Kept (Placed : Db cfg → Prop) where
  shards h hshards := by rwa [Placed, hshards]
  remove i key h := h.lockedAt (.inr slot_del)
  purge i key now h := h.purgeLocked i key now

theorem kept_wellformed : Kept (Wellformed : Db cfg → Prop) where
  shards h hshards :=
    ⟨kept_placed.shards h.placed hshards, by rw [Filled, hshards]; exact h.filled⟩
  remove i key h :=
    ⟨kept_placed.remove i key h.placed, h.filled.lockedAt fun _ => Cell.filled_none slot_del⟩
  purge i key now h := ⟨kept_placed.purge i key now h.placed, h.filled.lockedAt filled_purge⟩

theorem Wellformed.performKey {db : Db cfg} (h : db.Wellformed) (key : Bytes) (env : Env)
    {op : KeyOp} (hop : op.HasArguments) : (db.performKey key env op).2.Wellformed := by
  rw [performKey_eq]
  have hreserved := kept_wellformed.reserved h key env op
  exact ⟨hreserved.placed.locked key _, hreserved.filled.lockedAt (KeyOp.filled_onCell hop)⟩

theorem Placed.perform {db : Db cfg} (h : db.Placed) (env : Env) (op : Op) :
    (db.perform env op).2.Placed := by
  cases op with
  | on key op =>
    show (db.performKey key env op).2.Placed
    rw [performKey_eq]
    exact (kept_placed.reserved h key env op).locked key _
  | del keys => exact kept_placed.del h keys
  | keys pattern => exact h
  | purge sampleSize shard draws => exact kept_placed.purgeExpiredStep h sampleSize _ shard draws
  | evict sampleSize draws => exact kept_placed.evictLruStep h sampleSize draws

theorem placed_run (ops : List (Env × Op)) : ((empty : Db cfg).run ops).Placed := by
  have hrun : ∀ db : Db cfg, db.Placed → (db.run ops).Placed := by
    induction ops with
    | nil => exact fun _ h => h
    | cons step ops ih => exact fun db h => ih _ (h.perform step.1 step.2)
  exact hrun empty placed_empty

end Db

end InMemoryCache
