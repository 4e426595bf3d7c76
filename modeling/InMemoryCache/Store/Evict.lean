-- SUMMARY: What one eviction step samples, what it removes, and when it gives up.
import InMemoryCache.Lib.Least
import InMemoryCache.Store.Accounting

/-!
# The eviction step

`evict_lru_step` samples a key of each shard it draws, skipping empty shards, keeps the one
accessed longest ago, and removes that key from the shard it was seen in. It fails exactly
if nothing that was sampled is older than the time it starts with, the largest `u64`.
-/

namespace InMemoryCache

open Lib

namespace Db

variable {cfg : Config}

/-! ## Samples -/

/-- What a draw samples: a shard, a key of it, and the entry under the key. -/
def sampleAt (db : Db cfg) (draw : Nat × Nat) :
    Option (Fin cfg.numShards × Bytes × CacheEntry) := do
  let i := drawShard cfg draw.1
  let keys := (db.shards i).keys
  let key ← keys[draw.2 % keys.length]?
  let entry ← (db.shards i).get? key
  pure (i, key, entry)

/-- One of the first `n` draws samples the entry under `key` in shard `i`. -/
def Sampled (db : Db cfg) (draws : Nat → Nat × Nat) (n : Nat) (i : Fin cfg.numShards)
    (key : Bytes) (entry : CacheEntry) : Prop :=
  ∃ j < n, db.sampleAt (draws j) = some (i, key, entry)

section

variable {db : Db cfg} {draws : Nat → Nat × Nat} {draw : Nat × Nat} {n : Nat}
  {i : Fin cfg.numShards} {key : Bytes} {entry : CacheEntry}

theorem get?_of_sampleAt (h : db.sampleAt draw = some (i, key, entry)) :
    (db.shards i).get? key = some entry := by
  obtain ⟨k, -, h⟩ := Option.bind_eq_some_iff.mp h
  obtain ⟨e, he, h⟩ := Option.bind_eq_some_iff.mp h
  cases h
  exact he

/-- A draw samples nothing exactly if its shard is empty. -/
theorem sampleAt_eq_none :
    db.sampleAt draw = none ↔ (db.shards (drawShard cfg draw.1)).size = 0 := by
  have hlength : (db.shards (drawShard cfg draw.1)).keys.length =
      (db.shards (drawShard cfg draw.1)).size := List.length_map ..
  rw [← hlength, sampleAt]
  constructor
  · intro h
    by_contra hpos
    have hlt := Nat.mod_lt draw.2 (Nat.pos_of_ne_zero hpos)
    have hkey := List.getElem?_eq_getElem hlt
    obtain ⟨e, he⟩ := Table.mem_keys.mp (List.getElem_mem hlt)
    rw [hkey] at h
    dsimp only [Option.bind_eq_bind, Option.bind_some] at h
    rw [he] at h
    cases h
  · intro h
    rw [List.length_eq_zero_iff.mp h]
    rfl

theorem Sampled.get? (h : db.Sampled draws n i key entry) :
    (db.shards i).get? key = some entry := by
  obtain ⟨j, -, hj⟩ := h
  exact get?_of_sampleAt hj

/-- Something is sampled exactly if one of the shards drawn is not empty. -/
theorem exists_sampled : (∃ i key entry, db.Sampled draws n i key entry) ↔
    ∃ j < n, (db.shards (drawShard cfg (draws j).1)).size ≠ 0 := by
  constructor
  · rintro ⟨i, key, entry, j, hj, h⟩
    refine ⟨j, hj, fun hsize => ?_⟩
    rw [sampleAt_eq_none.mpr hsize] at h
    cases h
  · rintro ⟨j, hj, hsize⟩
    obtain ⟨s, hs⟩ := Option.ne_none_iff_exists'.mp (mt sampleAt_eq_none.mp hsize)
    exact ⟨s.1, s.2.1, s.2.2, j, hj, hs⟩

/-! ## The candidate -/

/-- The sample of the first `n` draws that was accessed longest ago, and when. -/
def oldest (db : Db cfg) (draws : Nat → Nat × Nat) (n : Nat) :
    Option (Fin cfg.numShards × Bytes × CacheEntry) × Nat :=
  least (fun s => s.2.2.lastAccessed) (U64.size - 1) (fun j => db.sampleAt (draws j)) n

/-- The sampling loop keeps the shard and the key of that sample. -/
theorem sampleLru_eq (db : Db cfg) (draws : Nat → Nat × Nat) (n : Nat) :
    db.sampleLru draws n =
      ((db.oldest draws n).1.map fun s => (s.1, s.2.1), (db.oldest draws n).2) := by
  induction n with
  | zero => rfl
  | succ n ih =>
    rw [sampleLru, ih, oldest, oldest, least, sampleAt]
    dsimp only
    cases (db.shards (drawShard cfg (draws n).1)).keys[(draws n).2 %
        (db.shards (drawShard cfg (draws n).1)).keys.length]? with
    | none => rfl
    | some key =>
      dsimp only [Option.bind_eq_bind, Option.bind_some]
      cases (db.shards (drawShard cfg (draws n).1)).get? key with
      | none => rfl
      | some entry =>
        dsimp only [Option.bind_some, Option.pure_def]
        split <;> rfl

end

/-! ## The step -/

/-- The store `after` is `before` without the entry under `key` in shard `i`, which was counted
as an eviction. -/
structure Evicts (i : Fin cfg.numShards) (key : Bytes) (entry : CacheEntry)
    (before after : Db cfg) : Prop where
  stored : (before.shards i).get? key = some entry
  entries : ∀ j k, (after.shards j).get? k =
    if j = i ∧ k = key then none else (before.shards j).get? k
  len : after.len + 1 = before.len
  size : after.totalSize + entry.sizeBytes key = before.totalSize
  memory : after.memory.total = before.memory.total - entry.sizeBytes key
  counted : after.metrics = before.metrics.recordEviction 1

/-- Nothing that was sampled is old enough. -/
def Hopeless (db : Db cfg) (sampleSize : Nat) (draws : Nat → Nat × Nat) : Prop :=
  ∀ i key entry, db.Sampled draws sampleSize i key entry → U64.size - 1 ≤ entry.lastAccessed

/-- Removing a stored entry and counting it is an eviction. -/
theorem evicts_del {db : Db cfg} {i : Fin cfg.numShards} {key : Bytes} {entry : CacheEntry}
    (h : (db.shards i).get? key = some entry) :
    (db.lockedAt i key (Cell.del key)).1 = 1 ∧
      Evicts i key entry db
        { (db.lockedAt i key (Cell.del key)).2 with
          metrics := (db.lockedAt i key (Cell.del key)).2.metrics.recordEviction 1 } := by
  have hdel : Cell.del key (db.cellAt i key) = (1, (db.cellAt i key).remove key entry) := by
    rw [Cell.del, slot_cellAt, h]
  have hlocked : db.lockedAt i key (Cell.del key) =
      (1, db.putCellAt i key ((db.cellAt i key).remove key entry)) := by
    rw [lockedAt, hdel]
  obtain ⟨hlen, hmetrics⟩ := db.len_lockedAt i key (removes_del key)
  obtain ⟨others, hbefore, hafter⟩ := exists_others db i key
  rw [hlocked] at hlen hmetrics ⊢
  rw [Cell.weight_some (c := db.cellAt i key) h] at hbefore
  refine ⟨rfl, h, fun j k => ?_, hlen, ?_, rfl, ?_⟩
  · exact get?_putCellAt db i key _ j k
  · show (db.putCellAt i key ((db.cellAt i key).remove key entry)).totalSize + _ = _
    rw [hafter, Cell.weight_none (c := (db.cellAt i key).remove key entry) rfl]
    omega
  · exact congrArg (Metrics.recordEviction · 1) hmetrics

/-- A step gives up and changes nothing, or it removes what was accessed longest ago among
what it sampled. -/
theorem evictLruStep_cases (db : Db cfg) (sampleSize : Nat) (draws : Nat → Nat × Nat) :
    (db.Hopeless sampleSize draws ∧ db.evictLruStep sampleSize draws = (false, db)) ∨
      ¬ db.Hopeless sampleSize draws ∧ ∃ i key entry db',
        db.evictLruStep sampleSize draws = (true, db') ∧
          db.Sampled draws sampleSize i key entry ∧
          (∀ i' key' entry', db.Sampled draws sampleSize i' key' entry' →
            entry.lastAccessed ≤ entry'.lastAccessed) ∧
          Evicts i key entry db db' := by
  have hleast : Least (fun s => s.2.2.lastAccessed) (U64.size - 1) (fun j => db.sampleAt (draws j))
      sampleSize (db.oldest draws sampleSize).1 (db.oldest draws sampleSize).2 :=
    least_spec _ _ _ _
  rw [evictLruStep, sampleLru_eq]
  cases hbest : (db.oldest draws sampleSize).1 with
  | none =>
    refine .inl ⟨fun i key entry h => ?_, rfl⟩
    obtain ⟨j, hj, hsample⟩ := h
    rw [← hleast.start hbest]
    exact hleast.least hj hsample
  | some best =>
    obtain ⟨i, key, entry⟩ := best
    obtain ⟨htime, hkey, hentry⟩ := hleast.found hbest
    replace hentry : db.Sampled draws sampleSize i key entry := hentry
    obtain ⟨hremoved, hevicts⟩ := evicts_del hentry.get?
    rw [← hkey] at htime
    refine .inr ⟨fun h => ?_, i, key, entry, _, if_pos hremoved, hentry, ?_, hevicts⟩
    · exact absurd (h i key entry hentry) (Nat.not_le_of_lt htime)
    · rintro i' key' entry' ⟨j, hj, hsample⟩
      exact hkey.trans_le (hleast.least hj hsample)

/-- With all access times below the largest `u64`, a step fails only on empty shards. -/
theorem hopeless_iff {db : Db cfg} (sampleSize : Nat) (draws : Nat → Nat × Nat)
    (h : ∀ i key entry, (db.shards i).get? key = some entry →
      entry.lastAccessed < U64.size - 1) :
    db.Hopeless sampleSize draws ↔
      ∀ j < sampleSize, (db.shards (drawShard cfg (draws j).1)).size = 0 := by
  constructor
  · intro hhopeless j hj
    by_contra hsize
    obtain ⟨i, key, entry, hentry⟩ := exists_sampled.mpr ⟨j, hj, hsize⟩
    exact absurd (hhopeless i key entry hentry) (Nat.not_le_of_lt (h i key entry hentry.get?))
  · intro hempty i key entry hentry
    obtain ⟨j, hj, hsize⟩ := exists_sampled.mp ⟨i, key, entry, hentry⟩
    exact absurd (hempty j hj) hsize

/-- An eviction step changes nothing and returns `false`, or it removes one entry, which none
of the entries it sampled precedes in access time, subtracts its size, counts it and returns
`true`. It returns `true` whenever a shard it drew is not empty. -/
theorem evictLruStep_spec (db : Db cfg) (sampleSize : Nat) (draws : Nat → Nat × Nat)
    (h : ∀ i key entry, (db.shards i).get? key = some entry →
      entry.lastAccessed < U64.size - 1) :
    (db.evictLruStep sampleSize draws = (false, db) ∨
        ∃ i key entry db', db.evictLruStep sampleSize draws = (true, db') ∧
          db.Sampled draws sampleSize i key entry ∧
          (∀ i' key' entry', db.Sampled draws sampleSize i' key' entry' →
            entry.lastAccessed ≤ entry'.lastAccessed) ∧
          Evicts i key entry db db' ∧
          (db'.currentMemory + entry.sizeBytes key) % U64.size = db.currentMemory ∧
          (entry.sizeBytes key ≤ db.currentMemory →
            db'.currentMemory + entry.sizeBytes key = db.currentMemory)) ∧
      ((∃ j < sampleSize, (db.shards (drawShard cfg (draws j).1)).size ≠ 0) →
        (db.evictLruStep sampleSize draws).1 = true) := by
  have hnonempty : (∃ j < sampleSize, (db.shards (drawShard cfg (draws j).1)).size ≠ 0) →
      ¬ db.Hopeless sampleSize draws := by
    rintro ⟨j, hj, hsize⟩ hhopeless
    exact hsize ((hopeless_iff sampleSize draws h).mp hhopeless j hj)
  rcases evictLruStep_cases db sampleSize draws with
    ⟨hhopeless, hfail⟩ | ⟨-, i, key, entry, db', hstep, hentry, hleast, hevicts⟩
  · exact ⟨.inl hfail, fun hsome => absurd hhopeless (hnonempty hsome)⟩
  · have hload := Memory.load_of_total_eq hevicts.memory
    refine ⟨.inr ⟨i, key, entry, db', hstep, hentry, hleast, hevicts, hload.1, hload.2⟩,
      fun _ => ?_⟩
    rw [hstep]

/-- Draws that hit an empty shard, a key and one accessed before it. -/
theorem evictLruStep_spec_two :
    let env : Nat → Env := fun t =>
      { clock := { now := t, millis := t }, draws := fun _ _ => (0, 0) }
    let db := (empty : Db (.standard 0 List.length)).run
      [(env 5, .on [97] (.set [118] none)), (env 3, .on [98, 98] (.set [118] none))]
    let draws : Nat → Nat × Nat := fun j => (j, 0)
    (db.evictLruStep 3 draws).1 = true ∧ ((db.evictLruStep 3 draws).2.entry [97]).isSome ∧
      (db.evictLruStep 3 draws).2.entry [98, 98] = none := by
  intro env db draws
  have hentries : ∀ i, ∀ e ∈ (db.shards i).entries, e.2.lastAccessed < U64.size - 1 := by
    decide +kernel
  have h : ∀ i key entry, (db.shards i).get? key = some entry →
      entry.lastAccessed < U64.size - 1 :=
    fun i key entry hget => hentries i (key, entry) (Table.get?_eq_some.mp hget)
  refine ⟨(evictLruStep_spec db 3 draws h).2 ⟨1, by decide, by decide +kernel⟩, ?_, ?_⟩
  · decide +kernel
  · decide +kernel

end Db

end InMemoryCache
