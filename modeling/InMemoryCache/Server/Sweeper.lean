-- SUMMARY: One tick of the background sweeper, with the rounds it runs before it stops.
import InMemoryCache.Store.Refinement
import InMemoryCache.Store.Sweep
import InMemoryCache.Store.Ledger

/-!
# The sweeper's ticks

Every 100 milliseconds the sweeper runs up to 16 rounds. It goes on to the next round as long as
more than a quarter of what it sampled had expired. Every such round removes something, so that
a tick that runs alone over a store with few expired entries is short; and no client can tell
that it ran.
-/

namespace InMemoryCache

open Lib Leased

variable {cfg : Config}

/-- What a round reads from outside: the time, the shard it draws, and the draws of its sample. -/
structure Sampling where
  now : Instant
  shard : Nat
  draws : Nat → Nat

namespace Db

/-- One round: the loop breaks if nothing was sampled, or if at most a quarter of it had
expired. -/
def sweepRound (r : Sampling) (db : Db cfg) : Bool × Db cfg :=
  let ((sampled, expired), db) := db.purgeExpiredStep 20 r.now r.shard r.draws
  (decide (sampled = 0 ∨ expired * 4 ≤ sampled), db)

/-- The `for` loop of a tick, with `left` rounds to go: how many rounds were run. -/
def sweepRounds (rounds : Nat → Sampling) : Nat → Nat → Db cfg → Nat × Db cfg
  | 0, k, db => (k, db)
  | left + 1, k, db =>
    match db.sweepRound (rounds k) with
    | (true, db) => (k + 1, db)
    | (false, db) => sweepRounds rounds left (k + 1) db

/-- A tick of the sweeper. -/
def sweeperTick (rounds : Nat → Sampling) (db : Db cfg) : Nat × Db cfg :=
  sweepRounds rounds 16 0 db

section Round

variable {db : Db cfg}

theorem item_purgeKeys (i : Fin cfg.numShards) (now : Instant) (keys : List Bytes) (key : Bytes) :
    (purgeKeys i now keys db).2.item now key = db.item now key := by
  induction keys generalizing db with
  | nil => rfl
  | cons k keys ih => exact ih.trans (item_purgeLocked i k now key)

/-- A sampled key is stored, with an entry that has expired. -/
theorem exists_expired {i : Fin cfg.numShards} {now : Instant} {sampleSize : Nat}
    {draws : Nat → Nat} {key : Bytes} (h : key ∈ (db.purgeSample i now sampleSize draws).2) :
    ∃ entry, (db.shards i).get? key = some entry ∧ entry.isExpired now = true := by
  obtain ⟨j, -, hj⟩ := List.mem_filterMap.mp h
  obtain ⟨k, -, hk⟩ := Option.bind_eq_some_iff.mp hj
  obtain ⟨entry, hget, hexpired⟩ := Option.bind_eq_some_iff.mp hk
  rw [Option.ite_none_right_eq_some] at hexpired
  cases hexpired.2
  exact ⟨entry, hget, hexpired.1⟩

/-- A sweep that found something expired removes something. -/
theorem due_pos {i : Fin cfg.numShards} {now : Instant} {sampleSize : Nat} {draws : Nat → Nat}
    (h : (db.purgeSample i now sampleSize draws).2 ≠ []) :
    0 < (db.due i now (db.purgeSample i now sampleSize draws).2).size := by
  obtain ⟨key, hkey⟩ := List.exists_mem_of_ne_nil _ h
  obtain ⟨entry, hget, hexpired⟩ := exists_expired hkey
  have hdue := get?_due.mpr ⟨hkey, hget, hexpired⟩
  have hweight := Table.weight_le_sumBy (fun (_ : Bytes) (_ : CacheEntry) => 1)
    (db.due i now (db.purgeSample i now sampleSize draws).2) key
  rw [hdue, Option.elim_some, ← Table.size_eq_sumBy] at hweight
  exact hweight

/-- From `before` to `after`, `n` entries went that had expired by `now`, and each was counted. -/
structure Clears (n : Nat) (now : Instant) (before after : Db cfg) : Prop where
  len : after.len + n = before.len
  metrics : after.metrics = before.metrics.recordExpiration n
  item : ∀ later key, now ≤ later → after.item later key = before.item later key

theorem Clears.until {after : Db cfg} {n : Nat} {now now' : Instant} (h : Clears n now db after)
    (hle : now ≤ now') : Clears n now' db after where
  len := h.len
  metrics := h.metrics
  item later key hlater := h.item later key (hle.trans hlater)

theorem Clears.trans {middle after : Db cfg} {n m : Nat} {now : Instant}
    (h : Clears n now db middle) (h' : Clears m now middle after) :
    Clears (n + m) now db after where
  len := by
    have hlen := h.len
    have hlen' := h'.len
    omega
  metrics := by rw [h'.metrics, h.metrics, Metrics.recordExpiration_add]
  item later key hle := (h'.item later key hle).trans (h.item later key hle)

theorem clears_refl (now : Instant) (db : Db cfg) : Clears 0 now db db :=
  ⟨rfl, (Metrics.recordExpiration_zero _).symm, fun _ _ _ => rfl⟩

/-- A sweep clears what is due among the keys it is given. -/
theorem clears_purgeRemove (db : Db cfg) (i : Fin cfg.numShards) (now : Instant)
    (keys : List Bytes) : Clears (db.due i now keys).size now db (db.purgeRemove i now keys) where
  len := by
    rw [← (swept_purgeKeys db i now keys).2.2]
    exact (len_purgeKeys i now keys db).1
  metrics := (purgeRemove_spec db i now keys).2
  item _ _ hle := visible_congr hle (item_purgeKeys ..)

/-- A round clears, and the loop goes on only if it removed something. -/
theorem clears_sweepRound (r : Sampling) (db : Db cfg) :
    ∃ n, Clears n r.now db (db.sweepRound r).2 ∧ ((db.sweepRound r).1 = false → 0 < n) := by
  refine ⟨_, clears_purgeRemove db (drawShard cfg r.shard) r.now
    (db.purgeSample (drawShard cfg r.shard) r.now 20 r.draws).2, fun hgoes => ?_⟩
  refine due_pos fun hnone => ?_
  have hmore : ¬ ((db.purgeSample (drawShard cfg r.shard) r.now 20 r.draws).1 = 0 ∨
      (db.purgeSample (drawShard cfg r.shard) r.now 20 r.draws).2.length * 4 ≤
        (db.purgeSample (drawShard cfg r.shard) r.now 20 r.draws).1) := of_decide_eq_false hgoes
  rw [hnone] at hmore
  exact hmore (.inr (Nat.zero_le _))

end Round

-- ---------------------------------------------------------------------------
-- The loop
-- ---------------------------------------------------------------------------

variable {rounds : Nat → Sampling} {now : Instant}

/-- The store after the first rounds. -/
def afterRounds (rounds : Nat → Sampling) (db : Db cfg) : Nat → Db cfg
  | 0 => db
  | k + 1 => ((afterRounds rounds db k).sweepRound (rounds k)).2

/-- By induction on the rounds to go. The loop ends after one of its rounds, and went on after
each before it. -/
theorem sweepRounds_spec (left k : Nat) (db : Db cfg) :
    let loop := sweepRounds rounds left k (afterRounds rounds db k)
    loop.2 = afterRounds rounds db loop.1 ∧ k ≤ loop.1 ∧ loop.1 ≤ k + left ∧
      ∀ j, k ≤ j → j + 1 < loop.1 →
        ((afterRounds rounds db j).sweepRound (rounds j)).1 = false := by
  induction left generalizing k with
  | zero => exact ⟨rfl, Nat.le_refl k, Nat.le_refl k, fun j hkj (hj : j + 1 < k) => by omega⟩
  | succ left ih =>
    intro loop
    cases hsweep : (afterRounds rounds db k).sweepRound (rounds k) with
    | mk stops middle =>
      have hafter : afterRounds rounds db (k + 1) = middle := by rw [afterRounds, hsweep]
      cases stops with
      | true =>
        have hloop : loop = (k + 1, middle) := by simp only [loop, sweepRounds, hsweep]
        rw [hloop]
        exact ⟨hafter.symm, by omega, by omega, fun j hkj (hj : j + 1 < k + 1) => by omega⟩
      | false =>
        have hloop : loop = sweepRounds rounds left (k + 1) (afterRounds rounds db (k + 1)) := by
          simp only [loop, sweepRounds, hsweep, hafter]
        obtain ⟨hstore, hge, hle, hgoes⟩ := ih (k + 1)
        rw [hloop]
        refine ⟨hstore, by omega, by omega, fun j hkj hj => ?_⟩
        rcases Nat.eq_or_lt_of_le hkj with rfl | hlt
        · rw [hsweep]
        · exact hgoes j hlt hj

/-- What the rounds remove had expired by a time that none of them is past. -/
theorem clears_afterRounds (db : Db cfg) (k : Nat) (hnow : ∀ j < k, (rounds j).now ≤ now) :
    ∃ removed, Clears removed now db (afterRounds rounds db k) := by
  induction k with
  | zero => exact ⟨0, clears_refl now db⟩
  | succ k ih =>
    obtain ⟨removed, hclears⟩ := ih fun j hj => hnow j (Nat.lt_succ_of_lt hj)
    obtain ⟨n, hround, -⟩ := clears_sweepRound (rounds k) (afterRounds rounds db k)
    exact ⟨removed + n, hclears.trans (hround.until (hnow k (Nat.lt_succ_self k)))⟩

/-- A tick runs up to 16 rounds, one after the other, and each but the last removes an entry.
What a round removes had expired at its time and is counted in `expired_keys`, and nothing that
a client sees changes. -/
theorem sweeper_tick (hnow : ∀ k < 16, (rounds k).now ≤ now) (db : Db cfg) :
    let tick := db.sweeperTick rounds
    tick.1 ≤ 16 ∧ tick.2 = afterRounds rounds db tick.1 ∧
      (∀ k < tick.1, ∃ n, (k + 1 < tick.1 → 0 < n) ∧
        Clears n (rounds k).now (afterRounds rounds db k) (afterRounds rounds db (k + 1))) ∧
      ∃ removed, Clears removed now db tick.2 := by
  intro tick
  obtain ⟨hstore, -, hle, hgoes⟩ := @sweepRounds_spec cfg rounds 16 0 db
  change tick.2 = afterRounds rounds db tick.1 at hstore
  change tick.1 ≤ 0 + 16 at hle
  rw [Nat.zero_add] at hle
  refine ⟨hle, hstore, fun k _ => ?_, ?_⟩
  · obtain ⟨n, hclears, hpos⟩ := clears_sweepRound (rounds k) (afterRounds rounds db k)
    exact ⟨n, fun hk => hpos (hgoes k (Nat.zero_le k) hk), hclears⟩
  · rw [hstore]
    exact clears_afterRounds db tick.1 fun j hj => hnow j (hj.trans_le hle)

/-- A shard with two entries, of which one has expired: the first round samples and removes it,
and the second finds nothing. -/
theorem sweeper_tick_two_rounds :
    let cfg : Config :=
      { numShards := 1, numShards_pos := by decide, maxmemory := 0, hash := List.length }
    let env : Env := { clock := { now := 0, millis := 0 }, draws := fun _ _ => (0, 0) }
    let db : Db cfg := (empty : Db cfg).run
      [(env, .on [1] (.set [2] (some 5))), (env, .on [3] (.set [4] none))]
    let rounds : Nat → Sampling := fun k => { now := 7 + k, shard := 0, draws := fun j => j }
    let tick := db.sweeperTick rounds
    tick.1 = 2 ∧ db.len = 2 ∧ (afterRounds rounds db 1).len = 1 ∧
      tick.1 ≤ 16 ∧ tick.2 = afterRounds rounds db tick.1 ∧
      (∀ k < tick.1, ∃ n, (k + 1 < tick.1 → 0 < n) ∧
        Clears n (rounds k).now (afterRounds rounds db k) (afterRounds rounds db (k + 1))) ∧
      ∃ removed, Clears removed 22 db tick.2 := by
  intro cfg env db rounds
  refine ⟨by decide +kernel, by decide +kernel, by decide +kernel, ?_⟩
  exact sweeper_tick (fun k hk => (by omega : 7 + k ≤ 22)) db

end Db

end InMemoryCache
