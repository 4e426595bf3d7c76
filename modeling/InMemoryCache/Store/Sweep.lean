-- SUMMARY: The active sweeper removes expired entries only, whatever runs between its two looks.
import InMemoryCache.Store.Accounting

/-!
# The active sweeper

`purge_expired_step` samples a shard under the read lock and removes under the write
lock, and anything may run in between. The second look decides: of the sampled keys those
are removed whose entry, as it then is, had expired when the sampling began, each once and
at the size it then has.
-/

namespace InMemoryCache

open Lib

namespace Db

variable {cfg : Config}

/-- The expired entries of shard `i` under `keys`. -/
def due (db : Db cfg) (i : Fin cfg.numShards) (now : Instant) (keys : List Bytes) :
    Table Bytes CacheEntry :=
  ((db.shards i).filter fun _ entry => entry.isExpired now).restrict keys

/-- The sum of `size_bytes` over the entries of a table. -/
def sizeOf (t : Table Bytes CacheEntry) : Nat := t.sumBy fun key entry => entry.sizeBytes key

/-- The store `after` is `before` without the entries of shard `i` that are in `gone`. -/
structure Swept (i : Fin cfg.numShards) (gone : Table Bytes CacheEntry) (before after : Db cfg) :
    Prop where
  entries : ∀ j key, (after.shards j).get? key =
    if j = i ∧ gone.contains key = true then none else (before.shards j).get? key
  memory : after.memory.total = before.memory.total - sizeOf gone

section

variable {db : Db cfg} {i : Fin cfg.numShards} {now : Instant} {key : Bytes} {keys : List Bytes}

theorem get?_due {entry : CacheEntry} : (db.due i now keys).get? key = some entry ↔
    key ∈ keys ∧ (db.shards i).get? key = some entry ∧ entry.isExpired now = true := by
  rw [due, Table.get?_restrict_eq_some, Table.get?_filter, Option.filter_eq_some_iff]

/-- The second look at a key without an expired entry changes nothing. -/
theorem lockedAt_purge_of_none
    (h : ((db.shards i).filter fun _ entry => entry.isExpired now).get? key = none) :
    db.lockedAt i key (Cell.purge key now) = (0, db) := by
  have hpurge : Cell.purge key now (db.cellAt i key) = (0, db.cellAt i key) := by
    rw [Cell.purge, slot_cellAt]
    cases hslot : (db.shards i).get? key with
    | none => rfl
    | some entry =>
      rw [Table.get?_filter, hslot, Option.filter_eq_none_iff] at h
      exact if_neg (h entry rfl)
  rw [lockedAt, hpurge]
  dsimp only
  rw [putCellAt_cellAt]

/-- The second look at an expired entry removes it. -/
theorem lockedAt_purge_of_some {entry : CacheEntry}
    (h : ((db.shards i).filter fun _ entry => entry.isExpired now).get? key = some entry) :
    db.lockedAt i key (Cell.purge key now) =
      (1, db.putCellAt i key ((db.cellAt i key).remove key entry)) := by
  rw [Table.get?_filter, Option.filter_eq_some_iff] at h
  have hpurge : Cell.purge key now (db.cellAt i key) =
      (1, (db.cellAt i key).remove key entry) := by
    rw [Cell.purge, slot_cellAt, h.1]
    exact if_pos h.2
  rw [lockedAt, hpurge]

/-- Once an entry is removed, the others under the keys are left to remove. -/
theorem due_putCellAt_remove (entry : CacheEntry) :
    (db.putCellAt i key ((db.cellAt i key).remove key entry)).due i now keys =
      (db.due i now (key :: keys)).erase key := by
  have hshard : (db.putCellAt i key ((db.cellAt i key).remove key entry)).shards i =
      (db.shards i).erase key := by
    rw [shards_putCellAt, if_pos rfl]
    rfl
  rw [due, due, hshard, Table.filter_erase, Table.erase_restrict]

/-- Removing one entry and sweeping the others sweeps them all. -/
theorem Swept.remove {after : Db cfg} {gone : Table Bytes CacheEntry} {entry : CacheEntry}
    (hget : gone.get? key = some entry)
    (h : Swept i (gone.erase key) (db.putCellAt i key ((db.cellAt i key).remove key entry)) after) :
    Swept i gone db after where
  entries j k := by
    rw [h.entries, get?_putCellAt, Table.contains, Table.contains, Table.get?_erase]
    by_cases hk : k = key
    · subst hk
      by_cases hj : j = i
      · simp [hj, hget, Cell.remove]
      · simp [hj]
    · simp [hk]
  memory := by
    have hsize := Table.sumBy_erase (fun key (entry : CacheEntry) => entry.sizeBytes key) gone key
    rw [hget, Option.elim_some] at hsize
    rw [h.memory, memory_putCellAt]
    show db.memory.total - entry.sizeBytes key - _ = _
    rw [sizeOf, sizeOf]
    omega

end

/-- The removing loop takes out what is due under the keys it is given, and counts it. -/
theorem swept_purgeKeys (db : Db cfg) (i : Fin cfg.numShards) (now : Instant) (keys : List Bytes) :
    Swept i (db.due i now keys) db (purgeKeys i now keys db).2 ∧
      (purgeKeys i now keys db).2.metrics = db.metrics ∧
      (purgeKeys i now keys db).1 = (db.due i now keys).size := by
  induction keys generalizing db with
  | nil =>
    rw [due, Table.restrict_nil]
    exact ⟨⟨fun j key => (if_neg nofun).symm, (Int.sub_zero _).symm⟩, rfl, rfl⟩
  | cons key keys ih =>
    rw [purgeKeys]
    cases hdue : ((db.shards i).filter fun _ entry => entry.isExpired now).get? key with
    | none =>
      -- nothing to remove: replaced, moved to a later deadline, deleted, or sampled before
      rw [lockedAt_purge_of_none hdue, due, Table.restrict_cons_of_none hdue]
      obtain ⟨hswept, hmetrics, hcount⟩ := ih db
      exact ⟨hswept, hmetrics, (Nat.zero_add _).trans hcount⟩
    | some entry =>
      rw [lockedAt_purge_of_some hdue]
      dsimp only
      obtain ⟨hswept, hmetrics, hcount⟩ :=
        ih (db.putCellAt i key ((db.cellAt i key).remove key entry))
      rw [due_putCellAt_remove] at hswept hcount
      -- the rest of the loop removes what is due without this entry
      have hget : (db.due i now (key :: keys)).get? key = some entry :=
        Table.get?_restrict_eq_some.mpr ⟨List.mem_cons_self, hdue⟩
      have hone := Table.sumBy_erase (fun _ _ => 1) (db.due i now (key :: keys)) key
      rw [hget, Option.elim_some] at hone
      refine ⟨hswept.remove hget, hmetrics, ?_⟩
      rw [Table.size_eq_sumBy] at hcount ⊢
      omega

/-- The removing half, from the store it finds. -/
theorem purgeRemove_spec (db : Db cfg) (i : Fin cfg.numShards) (now : Instant) (keys : List Bytes) :
    Swept i (db.due i now keys) db (db.purgeRemove i now keys) ∧
      (db.purgeRemove i now keys).metrics = db.metrics.recordExpiration (db.due i now keys).size := by
  obtain ⟨hswept, hmetrics, hcount⟩ := swept_purgeKeys db i now keys
  refine ⟨⟨hswept.entries, hswept.memory⟩, ?_⟩
  show (purgeKeys i now keys db).2.metrics.recordExpiration (purgeKeys i now keys db).1 = _
  rw [hmetrics, hcount]

theorem le_of_isExpired {entry : CacheEntry} {now : Instant} (h : entry.isExpired now = true) :
    ∃ deadline, entry.expiresAt = some deadline ∧ deadline ≤ now := by
  rw [CacheEntry.isExpired] at h
  split at h
  · rename_i deadline hdeadline
    exact ⟨deadline, hdeadline, of_decide_eq_true h⟩
  · cases h

/-- Whatever operations run between the sampling at `now` and the removal, what goes is what
was sampled and has a deadline of `now` or before when it is removed. The counter drops by
what these entries weigh then, and each is counted once, however often it was sampled. -/
theorem sweep_removes_due (db : Db cfg) (i : Fin cfg.numShards) (now : Instant) (sampleSize : Nat)
    (draws : Nat → Nat) (ops : List (Env × Op)) :
    let sampled := (db.purgeSample i now sampleSize draws).2
    let before := db.run ops
    let after := before.purgeRemove i now sampled
    let gone := before.due i now sampled
    (∀ key entry, gone.get? key = some entry ↔
        key ∈ sampled ∧ (before.shards i).get? key = some entry ∧ entry.isExpired now = true) ∧
      (∀ key entry, gone.get? key = some entry →
        ∃ deadline, entry.expiresAt = some deadline ∧ deadline ≤ now) ∧
      (∀ j key, (after.shards j).get? key =
        if j = i ∧ gone.contains key = true then none else (before.shards j).get? key) ∧
      after.memory.total = before.memory.total - sizeOf gone ∧
      (after.currentMemory + sizeOf gone) % U64.size = before.currentMemory ∧
      (sizeOf gone ≤ before.currentMemory →
        after.currentMemory + sizeOf gone = before.currentMemory) ∧
      after.metrics = before.metrics.recordExpiration gone.size := by
  intro sampled before after gone
  obtain ⟨hswept, hmetrics⟩ := purgeRemove_spec before i now sampled
  have hload := Memory.load_of_total_eq hswept.memory
  have hgone : ∀ key entry, gone.get? key = some entry →
      ∃ deadline, entry.expiresAt = some deadline ∧ deadline ≤ now :=
    fun key entry hget => le_of_isExpired (get?_due.mp hget).2.2
  exact ⟨fun key entry => get?_due, hgone, hswept.entries, hswept.memory, hload.1, hload.2, hmetrics⟩

end Db

end InMemoryCache
