-- SUMMARY: When making room for an entry succeeds, and when it evicts what it need not.
import InMemoryCache.Lib.Loop
import InMemoryCache.Store.Evict

/-!
# Making room

`ensure_capacity` evicts one entry a round until the bytes it is asked for fit, and gives up
after a round that evicts nothing. It leaves too little room in a store that is not empty
exactly if such a round samples nothing but empty shards, or the sum it compares with the
limit wraps; and a `SET` that found room exceeds the limit exactly if the counter has fallen
behind what is stored (`reserves_iff_supplied`). `set` asks for the whole size of the new
entry, also where it replaces one (`set_spares_iff`).
-/

namespace InMemoryCache

open Lib

namespace Db

variable {cfg : Config}

/-! ## Rounds -/

/-- The test of the loop; the sum wraps as `usize` addition does. -/
def OverLimit (db : Db cfg) (neededBytes : Nat) : Prop :=
  (db.currentMemory + neededBytes) % U64.size > cfg.maxmemory

instance (db : Db cfg) (neededBytes : Nat) : Decidable (db.OverLimit neededBytes) :=
  inferInstanceAs (Decidable (_ > _))

/-- The loop comes to its round `k` in the store `s`. -/
inductive Rounds (neededBytes : Nat) (draws : Nat → Nat → Nat × Nat) (db : Db cfg) :
    Nat → Db cfg → Prop
  | start : Rounds neededBytes draws db 0 db
  | next {k : Nat} {s s' : Db cfg} : Rounds neededBytes draws db k s → s.OverLimit neededBytes →
      s.evictLruStep lruSampleSize (draws k) = (true, s') → Rounds neededBytes draws db (k + 1) s'

/-- The loop ends in round `k`: the bytes fit, or nothing is evicted. -/
def Stops (neededBytes : Nat) (draws : Nat → Nat → Nat × Nat) (k : Nat) (s : Db cfg) : Prop :=
  ¬ s.OverLimit neededBytes ∨ s.Hopeless lruSampleSize (draws k)

section

variable {neededBytes : Nat} {draws : Nat → Nat → Nat × Nat} {db s s' : Db cfg} {k k' : Nat}

theorem evicts_of_step (h : s.evictLruStep lruSampleSize (draws k) = (true, s')) :
    ∃ i key entry, Evicts i key entry s s' := by
  rcases s.evictLruStep_cases lruSampleSize (draws k) with
    ⟨-, hfail⟩ | ⟨-, i, key, entry, s'', hstep, -, -, hevicts⟩
  · rw [h] at hfail
    cases hfail
  · rw [h] at hstep
    cases hstep
    exact ⟨i, key, entry, hevicts⟩

/-- What round `k` leaves to the next one; nothing if the loop ends in it. -/
def round (neededBytes : Nat) (draws : Nat → Nat → Nat × Nat) (k : Nat) (s : Db cfg) :
    Option (Db cfg) :=
  if s.OverLimit neededBytes then
    match s.evictLruStep lruSampleSize (draws k) with
    | (true, s') => some s'
    | (false, _) => none
  else none

theorem round_of_step (hover : s.OverLimit neededBytes)
    (hstep : s.evictLruStep lruSampleSize (draws k) = (true, s')) :
    round neededBytes draws k s = some s' := by
  rw [round, if_pos hover, hstep]

/-- The loop ends in a round exactly if it leaves nothing to the next. -/
theorem round_eq_none : round neededBytes draws k s = none ↔ Stops neededBytes draws k s := by
  rw [round]
  by_cases hover : s.OverLimit neededBytes
  · rw [if_pos hover]
    rcases s.evictLruStep_cases lruSampleSize (draws k) with
      ⟨hhopeless, hfail⟩ | ⟨hsome, i, key, entry, s', hstep, -⟩
    · rw [hfail]
      exact iff_of_true rfl (.inr hhopeless)
    · rw [hstep]
      exact iff_of_false (by intro h; cases h) (not_or.mpr ⟨not_not.mpr hover, hsome⟩)
  · rw [if_neg hover]
    exact iff_of_true rfl (.inl hover)

/-- Any other round evicts an entry. -/
theorem step_of_round (h : round neededBytes draws k s = some s') :
    s.OverLimit neededBytes ∧ s.evictLruStep lruSampleSize (draws k) = (true, s') := by
  rw [round] at h
  split at h
  · rename_i hover
    refine ⟨hover, ?_⟩
    split at h
    · rename_i hstep
      rw [hstep, Option.some.inj h]
    · cases h
  · cases h

theorem rounds_iff :
    Rounds neededBytes draws db k s ↔ Loop.Reaches (round neededBytes draws) db k s := by
  constructor
  · intro h
    induction h with
    | start => exact .start
    | next _ hover hstep ih => exact ih.next (round_of_step hover hstep)
  · intro h
    induction h with
    | start => exact .start
    | next _ hround ih =>
      obtain ⟨hover, hstep⟩ := step_of_round hround
      exact ih.next hover hstep

theorem ends_iff_stops : Loop.Ends (round neededBytes draws) db s ↔
    ∃ k, Rounds neededBytes draws db k s ∧ Stops neededBytes draws k s := by
  simp only [Loop.Ends, rounds_iff, round_eq_none]

/-- The loop of `ensure_capacity` is the bounded form of the loop. -/
theorem ensureCapacityLoop_eq_run (neededBytes fuel : Nat) (draws : Nat → Nat → Nat × Nat)
    (k : Nat) (s : Db cfg) : ensureCapacityLoop neededBytes fuel (fun j => draws (k + j)) s =
      Loop.run (round neededBytes draws) fuel k s := by
  induction fuel generalizing k s with
  | zero => rfl
  | succ fuel ih =>
    rw [ensureCapacityLoop, Loop.run, round, Nat.add_zero]
    by_cases hover : s.OverLimit neededBytes
    · rw [if_pos hover]
      refine (if_pos hover).trans ?_
      rcases s.evictLruStep_cases lruSampleSize (draws k) with
        ⟨-, hfail⟩ | ⟨-, i, key, entry, s', hstep, -⟩
      · rw [hfail]
      · rw [hstep]
        have hdraws : (fun j => draws (k + (j + 1))) = fun j => draws (k + 1 + j) := by
          funext j
          rw [Nat.add_assoc, Nat.add_comm 1 j]
        dsimp only
        rw [hdraws]
        exact ih (k + 1) s'
    · rw [if_neg hover]
      exact if_neg hover

/-- `ensure_capacity` ends, in the store in which its loop does: each round that goes on leaves
one entry less. -/
theorem ensureCapacity_ends (hmax : 0 < cfg.maxmemory) (neededBytes : Nat)
    (draws : Nat → Nat → Nat × Nat) (db : Db cfg) :
    Loop.Ends (round neededBytes draws) db (db.ensureCapacity neededBytes draws) := by
  have hround : ∀ {k} {s s' : Db cfg}, round neededBytes draws k s = some s' → s'.len < s.len := by
    intro k s s' h
    obtain ⟨i, key, entry, hevicts⟩ := evicts_of_step (step_of_round h).2
    exact Nat.lt_of_succ_le hevicts.len.le
  have hrun := ensureCapacityLoop_eq_run neededBytes (db.len + 1) draws 0 db
  simp only [Nat.zero_add] at hrun
  rw [ensureCapacity, if_pos hmax, hrun]
  exact Loop.ends_run hround .start (Nat.lt_succ_self db.len)

/-- What evictions keep holds in every round. -/
theorem Rounds.keeps {P : Db cfg → Prop}
    (hP : ∀ {i key entry s s'}, P s → Evicts i key entry s s' → P s') (h : P db)
    (hs : Rounds neededBytes draws db k s) : P s := by
  refine (rounds_iff.mp hs).keeps (P := P) (fun hs hround => ?_) h
  obtain ⟨i, key, entry, hevicts⟩ := evicts_of_step (step_of_round hround).2
  exact hP hs hevicts

/-! ## Enough room -/

/-- The bytes fit, or nothing is left to evict. -/
def Roomy (db : Db cfg) (neededBytes : Nat) : Prop :=
  db.currentMemory + neededBytes ≤ cfg.maxmemory ∨ db.len = 0

/-- In every round in which the bytes do not fit and something is stored, the sum does not
wrap below the limit, and the round samples an entry it can evict. -/
def Supplied (neededBytes : Nat) (draws : Nat → Nat → Nat × Nat) (db : Db cfg) : Prop :=
  ∀ k s, Rounds neededBytes draws db k s → s.len ≠ 0 →
    cfg.maxmemory < s.currentMemory + neededBytes →
      s.OverLimit neededBytes ∧ ¬ s.Hopeless lruSampleSize (draws k)

/-- The reservation leaves room exactly if every round that has to evict can. -/
theorem roomy_iff (hmax : 0 < cfg.maxmemory) :
    (db.ensureCapacity neededBytes draws).Roomy neededBytes ↔ Supplied neededBytes draws db := by
  have hends := ensureCapacity_ends hmax neededBytes draws db
  constructor
  · intro hroomy k' s hs hlen hover
    -- a round that cannot evict is the last one, and it leaves no room
    by_contra hnot
    have hstop' : Stops neededBytes draws k' s := by
      by_cases hwrap : s.OverLimit neededBytes
      · exact .inr (of_not_not fun hhopeless => hnot ⟨hwrap, hhopeless⟩)
      · exact .inl hwrap
    rw [hends.unique (ends_iff_stops.mpr ⟨k', hs, hstop'⟩)] at hroomy
    rcases hroomy with hfits | hempty
    · exact absurd hfits (Nat.not_le_of_lt hover)
    · exact hlen hempty
  · intro hsupplied
    by_contra hnot
    obtain ⟨hover, hlen⟩ := not_or.mp hnot
    obtain ⟨k, hrounds, hstop⟩ := ends_iff_stops.mp hends
    obtain ⟨hwrap, hhopeless⟩ := hsupplied k _ hrounds hlen (Nat.lt_of_not_le hover)
    exact hstop.elim (fun h => h hwrap) hhopeless

end

/-! ## The memory after a SET -/

theorem totalSize_of_len {db : Db cfg} (h : db.len = 0) : db.totalSize = 0 := by
  rw [len] at h
  rw [totalSize]
  refine List.sum_eq_zero_iff_forall_eq_nat.mpr fun n hn => ?_
  obtain ⟨i, hi, rfl⟩ := List.mem_map.mp hn
  have hsize : (db.shards i).size = 0 :=
    List.sum_eq_zero_iff_forall_eq_nat.mp h _ (List.mem_map_of_mem hi)
  rw [Table.sumBy, List.length_eq_zero_iff.mp hsize]
  rfl

/-- The counter holds the total size of what is stored. -/
def Counted (db : Db cfg) : Prop := db.currentMemory = db.totalSize

theorem Counted.evicts {i : Fin cfg.numShards} {key : Bytes} {entry : CacheEntry} {s s' : Db cfg}
    (h : s.Counted) (he : Evicts i key entry s s') : s'.Counted := by
  have hsize := he.size
  have hload := (Memory.load_of_total_eq he.memory).2
  rw [Counted, currentMemory] at *
  have hle := hload (by omega)
  omega

/-- The counter moves by the size of the new entry less that of the old. -/
theorem total_set (key value : Bytes) (expiresAt : Option Instant) (clock : Clock) (c : Cell) :
    (Cell.set key value expiresAt clock c).memory.total + c.weight key = c.memory.total +
      ((CacheEntry.new (.string value) expiresAt clock.millis).sizeBytes key : Nat) := by
  rw [Cell.set]
  cases hslot : c.slot with
  | none =>
    rw [Cell.weight_none hslot]
    exact Int.add_zero _
  | some old =>
    rw [Cell.weight_some hslot]
    show (c.memory.apply (Delta.resize _ _)).total + _ = _
    rw [Delta.resize]
    split
    · simp only [Memory.apply, Memory.add]
      omega
    · simp only [Memory.apply, Memory.sub]
      omega

/-- The size of the entry that a `SET` replaces. -/
def replacedSize (db : Db cfg) (key : Bytes) : Nat :=
  (db.entry key).elim 0 fun entry => entry.sizeBytes key

/-- What the counter is short of, when `neededBytes` are added, to cover the entry that a `SET`
replaces wraps to at most the limit; and so does the sum where nothing is stored. -/
structure Covers (s : Db cfg) (key : Bytes) (neededBytes : Nat) : Prop where
  replaced : ∀ short, s.replacedSize key = s.currentMemory + neededBytes + short →
    (U64.size - short % U64.size) % U64.size ≤ cfg.maxmemory
  empty : s.len = 0 → ¬ s.OverLimit neededBytes

theorem replacedSize_of_len {db : Db cfg} {key : Bytes} (h : db.len = 0) :
    db.replacedSize key = 0 := by
  obtain ⟨others, hbefore, -⟩ := exists_others db (getShardIndex cfg key) key
  rw [totalSize_of_len h] at hbefore
  exact Nat.eq_zero_of_add_eq_zero_right hbefore.symm

theorem replacedSize_le (db : Db cfg) (key : Bytes) : db.replacedSize key ≤ db.totalSize := by
  obtain ⟨others, hbefore, -⟩ := exists_others db (getShardIndex cfg key) key
  rw [hbefore]
  exact Nat.le_add_right _ _

/-- The counter after a `SET`, as the atomic holds it. -/
theorem currentMemory_locked_set (s : Db cfg) (key value : Bytes) (expiresAt : Option Instant)
    (clock : Clock) :
    ((s.locked key fun c => ((), Cell.set key value expiresAt clock c)).2.currentMemory : Int) =
      (s.currentMemory + (CacheEntry.new (.string value) expiresAt clock.millis).sizeBytes key -
        s.replacedSize key) % (U64.size : Int) := by
  have htotal := total_set key value expiresAt clock (s.cellAt (getShardIndex cfg key) key)
  change _ + (s.replacedSize key : Int) = _ at htotal
  rw [memory_cellAt] at htotal
  show ((Cell.set key value expiresAt clock (s.cellAt _ key)).memory.load : Int) =
    ((s.memory.load : Int) + _ - _) % _
  simp only [Memory.load, U64.size] at *
  omega

/-- A `SET` with room stays within the limit exactly if the counter covers what it replaces. -/
theorem set_within_iff (s : Db cfg) (key value : Bytes) (expiresAt : Option Instant)
    (clock : Clock)
    (hroomy : s.Roomy ((CacheEntry.new (.string value) expiresAt clock.millis).sizeBytes key)) :
    (s.locked key fun c => ((), Cell.set key value expiresAt clock c)).2.currentMemory ≤
        cfg.maxmemory ↔
      s.Covers key ((CacheEntry.new (.string value) expiresAt clock.millis).sizeBytes key) := by
  have hcounter := currentMemory_locked_set s key value expiresAt clock
  have hempty := @replacedSize_of_len _ s key
  generalize (s.locked key fun c => ((), Cell.set key value expiresAt clock c)).2.currentMemory =
    after at hcounter ⊢
  generalize (CacheEntry.new (.string value) expiresAt clock.millis).sizeBytes key = needed at *
  simp only [Roomy, U64.size] at *
  constructor
  · intro hwithin
    refine ⟨fun short hshort => ?_, fun hlen => ?_⟩
    · simp only [U64.size]
      omega
    · rw [hempty hlen] at hcounter
      simp only [OverLimit, U64.size]
      omega
  · rintro ⟨hreplaced, hover⟩
    simp only [OverLimit, U64.size] at hreplaced hover
    by_cases hshort : s.currentMemory + needed < s.replacedSize key
    · have hle := hreplaced (s.replacedSize key - (s.currentMemory + needed)) (by omega)
      omega
    · omega

/-- A counter that is right covers what a `SET` replaces, wherever there is room. -/
theorem Counted.covers {s : Db cfg} (h : s.Counted) {key : Bytes} {neededBytes : Nat}
    (hfit : neededBytes ≤ cfg.maxmemory) : s.Covers key neededBytes where
  replaced short hshort := by
    have hle := s.replacedSize_le key
    rw [Counted] at h
    have hzero : short = 0 := by omega
    rw [hzero]
    exact Nat.zero_le _
  empty hlen := by
    rw [Counted, totalSize_of_len hlen] at h
    rw [OverLimit, h, Nat.zero_add]
    exact Nat.not_lt_of_le ((Nat.mod_le _ _).trans hfit)

/-- The reservation leaves room, so a `SET` of an entry that the limit admits stays within the
limit. -/
def Reserves (db : Db cfg) (neededBytes : Nat) (draws : Nat → Nat → Nat × Nat) : Prop :=
  (db.ensureCapacity neededBytes draws).Roomy neededBytes ∧
    ∀ key value expiresAt (env : Env), env.draws = draws →
      (CacheEntry.new (.string value) expiresAt env.clock.millis).sizeBytes key = neededBytes →
        neededBytes ≤ cfg.maxmemory →
          (db.set key value expiresAt env).currentMemory ≤ cfg.maxmemory

/-- Where the loop stops, the counter covers what a `SET` of an entry that the limit admits
replaces. -/
def Admits (neededBytes : Nat) (draws : Nat → Nat → Nat × Nat) (db : Db cfg) : Prop :=
  ∀ k s, Rounds neededBytes draws db k s → Stops neededBytes draws k s →
    ∀ key value expiresAt millis,
      (CacheEntry.new (.string value) expiresAt millis).sizeBytes key = neededBytes →
        neededBytes ≤ cfg.maxmemory → s.Covers key neededBytes

/-- `ensure_capacity` always ends. It leaves room exactly if every round that has to evict
can. The memory after a `SET` is within the limit as well exactly if the counter covers what
the `SET` replaces, as one that holds the size of what is stored does. -/
theorem reserves_iff_supplied (hmax : 0 < cfg.maxmemory) (db : Db cfg) (neededBytes : Nat)
    (draws : Nat → Nat → Nat × Nat) :
    (∀ s, (∃ k, Rounds neededBytes draws db k s ∧ Stops neededBytes draws k s) ↔
        s = db.ensureCapacity neededBytes draws) ∧
      ((db.ensureCapacity neededBytes draws).Roomy neededBytes ↔
        Supplied neededBytes draws db) ∧
      (db.Reserves neededBytes draws ↔
        Supplied neededBytes draws db ∧ Admits neededBytes draws db) ∧
      (db.Counted → Admits neededBytes draws db) := by
  have hends := ensureCapacity_ends hmax neededBytes draws db
  have hstops : ∀ s, (∃ k, Rounds neededBytes draws db k s ∧ Stops neededBytes draws k s) ↔
      s = db.ensureCapacity neededBytes draws :=
    fun s => ends_iff_stops.symm.trans hends.iff_eq
  refine ⟨hstops, roomy_iff hmax, ?_, fun hcounted k s hrounds _ _ _ _ _ _ hfit => ?_⟩
  · rw [Reserves, ← roomy_iff hmax]
    refine and_congr_right fun hroomy => ?_
    constructor
    · rintro hset k s hrounds hstop key value expiresAt millis rfl hfit
      obtain rfl := (hstops s).mp ⟨k, hrounds, hstop⟩
      refine (set_within_iff _ key value expiresAt ⟨0, millis⟩ hroomy).mp ?_
      exact hset key value expiresAt ⟨⟨0, millis⟩, draws⟩ rfl rfl hfit
    · rintro hadmits key value expiresAt env rfl rfl hfit
      obtain ⟨k, hrounds, hstop⟩ := (hstops _).mpr rfl
      refine (set_within_iff _ key value expiresAt env.clock hroomy).mpr ?_
      exact hadmits k _ hrounds hstop key value expiresAt env.clock.millis rfl hfit
  · exact (hrounds.keeps (P := Counted) Counted.evicts hcounted).covers hfit

/-- `SET bb v` after `SET a v` with a limit of 100 bytes, where the first draw hits `a`. -/
theorem reserves_iff_supplied_hit :
    let env : Env := { clock := { now := 0, millis := 0 }, draws := fun _ _ => (1, 0) }
    let db := (empty : Db (.standard 100 List.length)).run [(env, .on [97] (.set [118] none))]
    Supplied 67 env.draws db ∧ db.Reserves 67 env.draws ∧
      (db.set [98, 98] [118] none env).currentMemory = 67 := by
  intro env db
  obtain ⟨-, hroomy, hreserves, hcounted⟩ :=
    reserves_iff_supplied (by decide) db 67 env.draws
  have hsupplied := hroomy.mp (.inr (by decide +kernel))
  have hadmits := hcounted (by decide +kernel : db.currentMemory = db.totalSize)
  exact ⟨hsupplied, hreserves.mpr ⟨hsupplied, hadmits⟩, by decide +kernel⟩

/-- The same, where all draws hit empty shards: the reservation gives up, both keys stay, and
the tracked memory is 133. -/
theorem sparse_not_reserved :
    let env : Env := { clock := { now := 0, millis := 0 }, draws := fun _ _ => (0, 0) }
    let db := (empty : Db (.standard 100 List.length)).run [(env, .on [97] (.set [118] none))]
    let after := db.set [98, 98] [118] none env
    ¬ db.Reserves 67 env.draws ∧ after.len = 2 ∧ after.currentMemory = 133 := by
  intro env db after
  refine ⟨?_, by decide +kernel, by decide +kernel⟩
  rintro ⟨hfits | hempty, -⟩
  · exact absurd hfits (by decide +kernel)
  · exact absurd hempty (by decide +kernel)

/-- `LPUSH k a` and `LPOP k` leave nothing and a counter of `2 ^ 64 - 65`: there is nothing to
evict, and a `SET` of 64 bytes takes the counter to `2 ^ 64 - 1`. -/
theorem drifted_not_reserved :
    let env : Env := { clock := { now := 0, millis := 0 }, draws := fun _ _ => (0, 0) }
    let db := (empty : Db (.standard 100 List.length)).run
      [(env, .on [107] (.lpush [[97]])), (env, .on [107] .lpop)]
    db.len = 0 ∧ Supplied 64 env.draws db ∧ ¬ db.Reserves 64 env.draws ∧
      (db.set [] [] none env).currentMemory = 2 ^ 64 - 1 := by
  intro env db
  have hlen : db.len = 0 := by decide +kernel
  have hmemory : (db.set [] [] none env).currentMemory = 2 ^ 64 - 1 := by decide +kernel
  refine ⟨hlen, (roomy_iff (by decide)).mp (.inr (by decide +kernel)), ?_, hmemory⟩
  rintro ⟨-, hset⟩
  have hwithin := hset [] [] none env rfl (by decide +kernel) (by decide)
  rw [hmemory] at hwithin
  exact absurd hwithin (by decide)

/-! ## What a SET evicts -/

/-- From `before` to `after` no entry but that of `key` was touched and nothing was evicted. -/
def Spares (key : Bytes) (before after : Db cfg) : Prop :=
  (∀ i k, ¬ (i = getShardIndex cfg key ∧ k = key) →
      (after.shards i).get? k = (before.shards i).get? k) ∧
    after.metrics.evictedKeys = before.metrics.evictedKeys

section

variable {neededBytes k : Nat} {draws : Nat → Nat → Nat × Nat} {db s : Db cfg}

/-- Every round counts the entry it evicts. -/
theorem Rounds.evictedKeys (h : Rounds neededBytes draws db k s) :
    s.metrics.evictedKeys = db.metrics.evictedKeys + .ofNat k := by
  induction h with
  | start => exact (UInt64.add_zero _).symm
  | next _ _ hstep ih =>
    obtain ⟨i, key, entry, hevicts⟩ := evicts_of_step hstep
    rw [hevicts.counted, Metrics.recordEviction, ih, UInt64.add_assoc, ← UInt64.ofNat_add]

/-- Rounds only remove. -/
theorem Rounds.get? (h : Rounds neededBytes draws db k s) {i : Fin cfg.numShards} {j : Bytes}
    {entry : CacheEntry} (hentry : (s.shards i).get? j = some entry) :
    (db.shards i).get? j = some entry := by
  refine h.keeps (P := fun s => ∀ entry, (s.shards i).get? j = some entry →
    (db.shards i).get? j = some entry) ?_ (fun _ h => h) entry hentry
  intro i' key' entry' s s' hs hevicts entry hentry
  rw [hevicts.entries] at hentry
  split at hentry
  · cases hentry
  · exact hs entry hentry

/-- Rounds that remove nothing but what is stored in one place are at most one. -/
theorem Rounds.at_most_one (h : Rounds neededBytes draws db k s) {i : Fin cfg.numShards}
    {key : Bytes} (hsame : ∀ i' k', ¬ (i' = i ∧ k' = key) →
      (s.shards i').get? k' = (db.shards i').get? k') :
    k = 0 ∨ k = 1 ∧ (s.shards i).get? key = none := by
  induction h with
  | start => exact .inl rfl
  | @next k t s hrounds _ hstep ih =>
    obtain ⟨i', key', entry, hevicts⟩ := evicts_of_step hstep
    have hplace : i' = i ∧ key' = key := by
      by_contra hne
      have hgone := hsame i' key' hne
      rw [hevicts.entries, if_pos ⟨rfl, rfl⟩, hrounds.get? hevicts.stored] at hgone
      cases hgone
    obtain ⟨rfl, rfl⟩ := hplace
    have hbefore := ih fun i k hne => by
      rw [← hsame i k hne, hevicts.entries, if_neg hne]
    rcases hbefore with rfl | ⟨-, hnone⟩
    · exact .inr ⟨rfl, by rw [hevicts.entries, if_pos ⟨rfl, rfl⟩]⟩
    · rw [hevicts.stored] at hnone
      cases hnone

end

theorem metrics_set (key value : Bytes) (expiresAt : Option Instant) (clock : Clock) (c : Cell) :
    (Cell.set key value expiresAt clock c).metrics = c.metrics := by
  rw [Cell.set]
  split <;> rfl

/-- A `SET` spares the other keys exactly if the loop that makes room ends in its first round. -/
theorem spares_iff (hmax : 0 < cfg.maxmemory) (db : Db cfg) (key value : Bytes)
    (expiresAt : Option Instant) (env : Env) :
    Spares key db (db.set key value expiresAt env) ↔
      Stops ((CacheEntry.new (.string value) expiresAt env.clock.millis).sizeBytes key)
        env.draws 0 db := by
  have hends := ensureCapacity_ends hmax
    ((CacheEntry.new (.string value) expiresAt env.clock.millis).sizeBytes key) env.draws db
  have hmetrics : (db.set key value expiresAt env).metrics = (db.ensureCapacity
      ((CacheEntry.new (.string value) expiresAt env.clock.millis).sizeBytes key)
      env.draws).metrics := metrics_set key value expiresAt env.clock _
  constructor
  · rintro ⟨hothers, hevicted⟩
    obtain ⟨k, hrounds, hstop⟩ := ends_iff_stops.mp hends
    have hone := hrounds.at_most_one fun i k hne => by
      rw [← hothers i k hne]
      exact (others_putCellAt _ _ i k hne).symm
    rw [hmetrics, hrounds.evictedKeys, UInt64.add_eq_left] at hevicted
    obtain rfl : k = 0 := by
      rcases hone with rfl | ⟨rfl, -⟩
      · rfl
      · cases hevicted
    rw [(rounds_iff.mp .start).unique (rounds_iff.mp hrounds)]
    exact hstop
  · intro hfirst
    have hsame := (ends_iff_stops.mpr ⟨0, .start, hfirst⟩).unique hends
    refine ⟨fun i j hj => ?_, ?_⟩
    · show ((Db.putCellAt (db.ensureCapacity _ _) _ key _).shards i).get? j = _
      rw [others_putCellAt _ _ i j hj, ← hsame]
    · rw [hmetrics, ← hsame]

/-- Where a `SET` fits once the old entry is gone, it spares the other keys exactly if it fits
next to the old entry as well, or the first round of evictions gives up. -/
theorem set_spares_iff (hmax : 0 < cfg.maxmemory) (db : Db cfg) (key value : Bytes)
    (expiresAt : Option Instant) (env : Env) :
    let newSize := (CacheEntry.new (.string value) expiresAt env.clock.millis).sizeBytes key
    (db.currentMemory + newSize ≤ cfg.maxmemory + db.replacedSize key →
        Spares key db (db.set key value expiresAt env)) ↔
      (db.currentMemory + newSize ≤ cfg.maxmemory + db.replacedSize key →
        (db.currentMemory + newSize) % U64.size ≤ cfg.maxmemory ∨
          db.Hopeless lruSampleSize (env.draws 0)) := by
  intro newSize
  rw [spares_iff hmax, Stops, OverLimit, not_lt]

/-- Overwriting `a` with a value of the same size where there is room for both. -/
theorem set_spares_iff_roomy :
    let env : Env := { clock := { now := 0, millis := 0 }, draws := fun _ _ => (2, 0) }
    let db := (empty : Db (.standard 200 List.length)).run
      [(env, .on [97] (.set [118] none)), (env, .on [98, 98] (.set [118] none))]
    Spares [97] db (db.set [97] [119] none env) := by
  intro env db
  exact (set_spares_iff (by decide) db [97] [119] none env).mpr
    (fun _ => .inl (by decide +kernel)) (by decide +kernel)

/-- The same with a limit of 140 bytes, of which 133 are taken: the other key
is evicted. -/
theorem overwrite_not_spared :
    let env : Env := { clock := { now := 0, millis := 0 }, draws := fun _ _ => (2, 0) }
    let db := (empty : Db (.standard 140 List.length)).run
      [(env, .on [97] (.set [118] none)), (env, .on [98, 98] (.set [118] none))]
    let after := db.set [97] [119] none env
    db.currentMemory = 133 ∧ db.replacedSize [97] = 66 ∧
      (CacheEntry.new (.string [119]) none env.clock.millis).sizeBytes [97] = 66 ∧
      (db.entry [98, 98]).isSome = true ∧ after.entry [98, 98] = none ∧
      after.metrics.evictedKeys = 1 ∧ ¬ Spares [97] db after := by
  intro env db after
  have hevicted : after.metrics.evictedKeys = 1 := by decide +kernel
  refine ⟨by decide +kernel, by decide +kernel, by decide +kernel, by decide +kernel,
    by decide +kernel, hevicted, ?_⟩
  rintro ⟨-, hsame⟩
  rw [hevicted] at hsame
  exact absurd hsame (by decide +kernel)

end Db

end InMemoryCache
