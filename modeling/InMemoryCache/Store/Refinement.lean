-- SUMMARY: The sharded, lazily expiring store answers as one eagerly swept map does.
import InMemoryCache.Store.Keyspace

/-!
# Refinement of a flat map

The abstract store is a single map from keys to items that drops every expired item
before each operation. `Simulates` relates it to the sharded store: each key is stored
in its own shard only, and the two show the same item under every key. Steps keep the
relation and give the same answers, up to the order in which collections are listed.
-/

namespace InMemoryCache

open Lib Leased

namespace Db

variable {cfg : Config}

/-! ## Placement -/

/-- Every key is stored in the shard `get_shard_index` assigns to it, and in no other. -/
def Placed (db : Db cfg) : Prop :=
  ∀ i key, (db.shards i).get? key ≠ none → i = getShardIndex cfg key

theorem placed_empty : (empty : Db cfg).Placed := fun _ _ h => absurd rfl h

theorem Placed.lockedAt {db : Db cfg} (h : db.Placed) {i : Fin cfg.numShards} {key : Bytes}
    {f : Cell → α × Cell} (hf : i = getShardIndex cfg key ∨ (f (db.cellAt i key)).2.slot = none) :
    (db.lockedAt i key f).2.Placed := by
  intro j k hne
  change ((db.putCellAt i key (f (db.cellAt i key)).2).shards j).get? k ≠ none at hne
  rw [get?_putCellAt] at hne
  split at hne
  · rename_i hjk
    rcases hf with hi | hnone
    · rw [hjk.1, hjk.2, hi]
    · exact absurd hnone hne
  · exact h j k hne

theorem Placed.locked {db : Db cfg} (h : db.Placed) (key : Bytes) (f : Cell → α × Cell) :
    (db.locked key f).2.Placed := h.lockedAt (.inl rfl)

theorem slot_del {key : Bytes} {c : Cell} : (Cell.del key c).2.slot = none := by
  rw [Cell.del]
  cases hslot : c.slot with
  | none => exact hslot
  | some entry => rfl

/-- The sweeper's second look empties the slot or leaves it. -/
theorem slot_purge {key : Bytes} {now : Instant} {c : Cell} :
    (Cell.purge key now c).2.slot = none ∨ (Cell.purge key now c).2.slot = c.slot := by
  rw [Cell.purge]
  split
  · split
    · exact .inl rfl
    · exact .inr rfl
  · exact .inr rfl

theorem Placed.purgeLocked {db : Db cfg} (h : db.Placed) (i : Fin cfg.numShards) (key : Bytes)
    (now : Instant) : (db.lockedAt i key (Cell.purge key now)).2.Placed := by
  refine h.lockedAt ?_
  rcases @slot_purge key now (db.cellAt i key) with hnone | hsame
  · exact .inr hnone
  · by_cases hslot : (db.shards i).get? key = none
    · exact .inr (hsame.trans hslot)
    · exact .inl (h i key hslot)

/-! ## The visible keyspace -/

/-- What a client sees under a key. -/
def item (db : Db cfg) (now : Instant) (key : Bytes) : Option Item :=
  visible now ((db.entry key).map CacheEntry.item)

theorem item_locked (db : Db cfg) (key : Bytes) (f : Cell → α × Cell) (now : Instant) (k : Bytes) :
    (db.locked key f).2.item now k =
      if k = key then (f (db.cellAt (getShardIndex cfg key) key)).2.item now else db.item now k := by
  have hput := db.get?_putCellAt (getShardIndex cfg key) key
    (f (db.cellAt (getShardIndex cfg key) key)).2 (getShardIndex cfg k) k
  simp only [item, entry, locked, lockedAt]
  rw [hput]
  by_cases hk : k = key
  · subst hk
    rw [if_pos ⟨rfl, rfl⟩, if_pos rfl, Cell.item]
  · rw [if_neg fun hjk => hk hjk.2, if_neg hk]

/-- Purging one sampled key leaves what is visible at that time. -/
theorem item_purgeLocked {db : Db cfg} (i : Fin cfg.numShards) (key : Bytes)
    (now : Instant) (k : Bytes) :
    (db.lockedAt i key (Cell.purge key now)).2.item now k = db.item now k := by
  have hput := db.get?_putCellAt i key (Cell.purge key now (db.cellAt i key)).2
    (getShardIndex cfg k) k
  simp only [item, entry, lockedAt]
  rw [hput]
  split
  · rename_i hjk
    obtain ⟨rfl, rfl⟩ := hjk
    rw [Cell.purge, slot_cellAt]
    cases hslot : (db.shards (getShardIndex cfg k)).get? k with
    | none => simp [hslot]
    | some entry =>
      dsimp only
      cases hexp : entry.isExpired now with
      | true =>
        rw [if_pos rfl, Option.map_some, visible_of_not_live (by simp [hexp])]
        rfl
      | false => simp [hslot]
  · rfl

theorem purgeKeys_spec {db : Db cfg} (h : db.Placed) (i : Fin cfg.numShards) (now : Instant)
    (keys : List Bytes) :
    (purgeKeys i now keys db).2.Placed ∧
      ∀ k, (purgeKeys i now keys db).2.item now k = db.item now k := by
  induction keys generalizing db with
  | nil => exact ⟨h, fun _ => rfl⟩
  | cons key keys ih =>
    obtain ⟨hplaced, hitem⟩ := ih (h.purgeLocked i key now)
    exact ⟨hplaced, fun k => (hitem k).trans (item_purgeLocked i key now k)⟩

/-- The keys of the entries that `select` picks, one shard after the other. -/
def listed (db : Db cfg) (select : Bytes → CacheEntry → Bool) : List Bytes :=
  (List.finRange cfg.numShards).flatMap fun i => ((db.shards i).filter select).keys

theorem mem_keys_filter {db : Db cfg} {select : Bytes → CacheEntry → Bool} {i : Fin cfg.numShards}
    {key : Bytes} : key ∈ ((db.shards i).filter select).keys ↔
      ∃ entry, (db.shards i).get? key = some entry ∧ select key entry = true := by
  rw [Table.mem_keys]
  exact exists_congr fun entry => by rw [Table.get?_filter, Option.filter_eq_some_iff]

theorem mem_listed {db : Db cfg} (h : db.Placed) (select : Bytes → CacheEntry → Bool)
    (key : Bytes) :
    key ∈ db.listed select ↔ ∃ entry, db.entry key = some entry ∧ select key entry = true := by
  rw [listed, List.mem_flatMap]
  constructor
  · rintro ⟨i, -, hkey⟩
    obtain ⟨entry, hget, hselect⟩ := mem_keys_filter.mp hkey
    have hi := h i key (by rw [hget]; exact Option.some_ne_none entry)
    exact ⟨entry, by rw [Db.entry, ← hi, hget], hselect⟩
  · rintro ⟨entry, hentry, hselect⟩
    exact ⟨getShardIndex cfg key, List.mem_finRange _, mem_keys_filter.mpr ⟨entry, hentry, hselect⟩⟩

theorem nodup_listed {db : Db cfg} (h : db.Placed) (select : Bytes → CacheEntry → Bool) :
    (db.listed select).Nodup := by
  rw [listed, List.nodup_flatMap]
  refine ⟨fun i _ => Table.nodup_keys _, ?_⟩
  refine (List.nodup_finRange _).imp fun {i j} hne => ?_
  intro key hi hj
  have hshard : ∀ i, key ∈ ((db.shards i).filter select).keys → i = getShardIndex cfg key := by
    intro i hi
    obtain ⟨entry, hget, -⟩ := mem_keys_filter.mp hi
    exact h i key (by rw [hget]; exact Option.some_ne_none entry)
  exact hne ((hshard i hi).trans (hshard j hj).symm)

/-- `keys` lists the visible keys that match. -/
theorem mem_keys {db : Db cfg} (h : db.Placed) (pattern : Bytes) (now : Instant) (key : Bytes) :
    key ∈ db.keys pattern now ↔
      (db.item now key).isSome = true ∧ matchesPattern pattern key = true := by
  refine (mem_listed h (fun key entry => !entry.isExpired now && matchesPattern pattern key)
    key).trans ?_
  rw [item]
  cases hentry : db.entry key with
  | none => simp
  | some entry =>
    rw [Option.map_some]
    cases hexp : entry.isExpired now with
    | true =>
      rw [visible_of_not_live (by simp [hexp])]
      simp [hexp]
    | false =>
      rw [visible_of_live (by simp [hexp])]
      simp [hexp]

theorem nodup_keys {db : Db cfg} (h : db.Placed) (pattern : Bytes) (now : Instant) :
    (db.keys pattern now).Nodup :=
  nodup_listed h fun key entry => !entry.isExpired now && matchesPattern pattern key

end Db

/-! ## The flat map -/

/-- One map from keys to items. -/
abbrev Flat := Table Bytes Item

namespace Flat

/-- The answers of a sequence of operations on one map from which every expired item is
removed before each of them. Sweeper steps do nothing to it. -/
def answers (m : Flat) : List (Env × Op) → List Answer
  | [] => []
  | (env, .on key op) :: ops =>
    let m := sweep env.clock.now m
    let (a, s) := op.onItem env.clock.now (m.get? key)
    a :: answers (m.overwrite key s) ops
  | (env, .keys pattern) :: ops =>
    let m := sweep env.clock.now m
    .members (.ok (m.keys.filter (Db.matchesPattern pattern))) :: answers m ops
  | _ :: ops => answers m ops

end Flat

/-- The background steps answer no client. -/
def Op.background : Op → Bool
  | .purge _ _ _ | .evict _ _ => true
  | _ => false

/-- The answers of a run, without those of the background steps. -/
def Db.answers (db : Db cfg) : List (Env × Op) → List Answer
  | [] => []
  | (env, op) :: ops =>
    let (a, db) := db.perform env op
    if op.background then db.answers ops else a :: db.answers ops

/-- Equal answers, up to the order in which a collection is listed. -/
def Answer.Same : Answer → Answer → Prop
  | .members (.ok l), .members (.ok l') => l.Perm l'
  | .pairs (.ok l), .pairs (.ok l') => l.Perm l'
  | a, b => a = b

theorem Answer.Same.refl (a : Answer) : a.Same a := by
  cases a with
  | members r =>
    cases r with
    | ok l => exact List.Perm.refl l
    | error e => rfl
  | pairs r =>
    cases r with
    | ok l => exact List.Perm.refl l
    | error e => rfl
  | _ => rfl

/-! ## The simulation -/

namespace Db

variable {cfg : Config}

/-- The sharded store and the flat map show the same items at a time. -/
structure Simulates (db : Db cfg) (m : Flat) (now : Instant) : Prop where
  placed : db.Placed
  item_eq : ∀ key, db.item now key = visible now (m.get? key)

theorem simulates_empty (now : Instant) : (empty : Db cfg).Simulates ∅ now :=
  ⟨placed_empty, fun _ => rfl⟩

variable {db : Db cfg} {m : Flat} {now : Instant}

/-- Time passes, and the flat map drops what has expired. -/
theorem Simulates.sweep {now' : Instant} (h : db.Simulates m now) (hle : now ≤ now') :
    db.Simulates (Leased.sweep now' m) now' := by
  refine ⟨h.placed, fun key => ?_⟩
  rw [get?_sweep, visible_visible le_rfl, ← visible_visible hle (m.get? key), ← h.item_eq key,
    item, item, visible_visible hle]

theorem Simulates.item_sweep {now' : Instant} (h : db.Simulates m now) (hle : now ≤ now')
    (key : Bytes) : db.item now' key = (Leased.sweep now' m).get? key := by
  rw [(h.sweep hle).item_eq key, get?_sweep, visible_visible le_rfl]

theorem reserved_of_unlimited (hmax : cfg.maxmemory = 0) (db : Db cfg) (key : Bytes) (env : Env)
    (op : KeyOp) : db.reserved key env op = db := by
  cases op with
  | set value expiresAt => simp [reserved, ensureCapacity, hmax]
  | _ => rfl

/-- One operation on a key: the same answer, and the relation is kept. -/
theorem Simulates.on (hmax : cfg.maxmemory = 0) {env : Env}
    (hle : now ≤ env.clock.now) (h : db.Simulates m now) (key : Bytes) (op : KeyOp) :
    (db.performKey key env op).1 =
        (op.onItem env.clock.now ((Leased.sweep env.clock.now m).get? key)).1 ∧
      (db.performKey key env op).2.Simulates
        ((Leased.sweep env.clock.now m).overwrite key
          (op.onItem env.clock.now ((Leased.sweep env.clock.now m).get? key)).2)
        env.clock.now := by
  have hagree := op.onCell_refines key env.clock (db.cellAt (getShardIndex cfg key) key)
  have hcell : (db.cellAt (getShardIndex cfg key) key).item env.clock.now =
      (Leased.sweep env.clock.now m).get? key := h.item_sweep hle key
  rw [hcell] at hagree
  rw [performKey_eq, reserved_of_unlimited hmax]
  refine ⟨hagree.result, h.placed.locked key _, fun k => ?_⟩
  rw [item_locked, Table.get?_overwrite]
  by_cases hk : k = key
  · rw [if_pos hk, if_pos hk]
    exact hagree.state
  · rw [if_neg hk, if_neg hk]
    exact (h.sweep hle).item_eq k

theorem Simulates.perm_keys {now' : Instant} (h : db.Simulates m now) (hle : now ≤ now')
    (pattern : Bytes) :
    (db.keys pattern now').Perm
      ((Leased.sweep now' m).keys.filter (matchesPattern pattern)) := by
  refine (List.perm_ext_iff_of_nodup (nodup_keys h.placed pattern now')
    ((Table.nodup_keys _).filter _)).mpr fun key => ?_
  rw [mem_keys h.placed, List.mem_filter, Table.mem_keys, h.item_sweep hle,
    Option.isSome_iff_exists]

theorem Simulates.purge {env : Env} (hle : now ≤ env.clock.now) (h : db.Simulates m now)
    (sampleSize shard : Nat) (draws : Nat → Nat) :
    (db.purgeExpiredStep sampleSize env.clock.now shard draws).2.Simulates m env.clock.now := by
  obtain ⟨hplaced, hitem⟩ := purgeKeys_spec h.placed (drawShard cfg shard) env.clock.now
    (db.purgeSample (drawShard cfg shard) env.clock.now sampleSize draws).2
  refine ⟨hplaced, fun key => (hitem key).trans ?_⟩
  rw [h.item_sweep hle, get?_sweep]

/-- The run lemma: from related stores, the same answers throughout. -/
theorem Simulates.answers (hmax : cfg.maxmemory = 0) (ops : List (Env × Op))
    (hops : ∀ x ∈ ops, (∀ keys, x.2 ≠ .del keys) ∧ ∀ n draws, x.2 ≠ .evict n draws)
    (hle : ∀ x ∈ ops, now ≤ x.1.clock.now)
    (hmono : ops.Pairwise fun x y => x.1.clock.now ≤ y.1.clock.now) (h : db.Simulates m now) :
    List.Forall₂ Answer.Same (db.answers ops) (Flat.answers m ops) := by
  induction ops generalizing db m now with
  | nil => exact .nil
  | cons x ops ih =>
    obtain ⟨env, op⟩ := x
    rw [List.forall_mem_cons] at hops hle
    obtain ⟨hlater, hrest⟩ := List.pairwise_cons.mp hmono
    cases op with
    | on key op =>
      obtain ⟨hanswer, hnext⟩ := h.on hmax hle.1 key op
      exact .cons (hanswer ▸ Answer.Same.refl _) (ih hops.2 hlater hrest hnext)
    | keys pattern =>
      exact .cons (h.perm_keys hle.1 pattern) (ih hops.2 hlater hrest (h.sweep hle.1))
    | purge sampleSize shard draws =>
      exact ih hops.2 hlater hrest (h.purge hle.1 sampleSize shard draws)
    | del keys => exact absurd rfl (hops.1.1 keys)
    | evict n draws => exact absurd rfl (hops.1.2 n draws)

/-- The sharded, lazily expiring store answers as one eagerly swept map does. -/
theorem answers_refine (hmax : cfg.maxmemory = 0) (ops : List (Env × Op))
    (hops : ∀ x ∈ ops, (∀ keys, x.2 ≠ .del keys) ∧ ∀ n draws, x.2 ≠ .evict n draws)
    (hmono : ops.Pairwise fun x y => x.1.clock.now ≤ y.1.clock.now) :
    List.Forall₂ Answer.Same ((empty : Db cfg).answers ops) (Flat.answers ∅ ops) :=
  Simulates.answers hmax ops hops (fun _ _ => Nat.zero_le _) hmono (simulates_empty 0)

/-- A list expires, is swept, and is pushed to again. -/
theorem answers_refine_expiry :
    let at_ (t : Nat) : Env := { clock := { now := t, millis := t }, draws := fun _ _ => (0, 0) }
    List.Forall₂ Answer.Same
      ((empty : Db (.standard 0 List.length)).answers
        [(at_ 0, .on [107] (.rpush [[97]])), (at_ 0, .on [107] (.expire 5)),
          (at_ 5, .purge 20 1 fun _ => 0), (at_ 5, .on [107] (.rpush [[98]])),
          (at_ 6, .keys [42])])
      (Flat.answers ∅
        [(at_ 0, .on [107] (.rpush [[97]])), (at_ 0, .on [107] (.expire 5)),
          (at_ 5, .purge 20 1 fun _ => 0), (at_ 5, .on [107] (.rpush [[98]])),
          (at_ 6, .keys [42])]) :=
  answers_refine rfl _ (by simp) (by decide)

end Db

end InMemoryCache
