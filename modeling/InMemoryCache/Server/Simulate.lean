-- SUMMARY: The dashboard's simulated traffic, and the hits and misses it adds.
import InMemoryCache.Latency
import InMemoryCache.Store.Get
import InMemoryCache.Store.Refinement
import InMemoryCache.Store.Reserve

/-!
# Simulated traffic

`/api/simulate` stores a hundred keys, reads them round and round, and then reads keys that
are not there. On a store without a memory limit the hits and misses it adds stand exactly in
the ratio that the query asks for, whatever the store held before.
-/

namespace InMemoryCache

open Lib

-- ---------------------------------------------------------------------------
-- The query
-- ---------------------------------------------------------------------------

/-- What a query asks for. -/
structure Simulation where
  count : Nat
  hitRatioTarget : Nat
  deriving DecidableEq, Repr

namespace Simulation

def default : Simulation := { count := 1000, hitRatioTarget := 80 }

/-- `Ord::clamp` -/
def clamp (n low high : Nat) : Nat := if n < low then low else if n > high then high else n

/-- `str::parse::<u32>` -/
def parseU32 (s : String) : Option Nat := (parseU64 s).filter (· < 2 ^ 32)

/-- The body of the loop over the pairs of the query. -/
def readPair (s : Simulation) (pair : List Char) : Simulation :=
  match pair.splitOn '=' with
  | k :: v :: _ =>
    let k := String.ofList k
    let v := String.ofList v
    if k = "count" ∨ k = "ops" then
      match parseU64 v with
      | some c => { s with count := clamp c 10 50000 }
      | none => s
    else if k = "hit_ratio" ∨ k = "ratio" then
      match parseU32 v with
      | some r => { s with hitRatioTarget := clamp r 0 100 }
      | none => s
    else s
  | _ => s

def ofQuery (query : List Char) : Simulation := runAll readPair default (query.splitOn '&')

/-- What comes after the first question mark, up to the second. -/
def queryOf (uri : List Char) : List Char :=
  if uri.contains '?' then (uri.splitOn '?')[1]?.getD [] else []

/-- What the loops can rely on. -/
structure InRange (s : Simulation) : Prop where
  count_ge : 10 ≤ s.count
  count_le : s.count ≤ 50000
  ratio_le : s.hitRatioTarget ≤ 100

theorem clamp_ge {n low high : Nat} (h : low ≤ high) : low ≤ clamp n low high := by
  rw [clamp]
  split
  · exact le_rfl
  · split <;> omega

theorem clamp_le {n low high : Nat} (h : low ≤ high) : clamp n low high ≤ high := by
  rw [clamp]
  split
  · exact h
  · split <;> omega

theorem inRange_readPair {s : Simulation} (h : s.InRange) (pair : List Char) :
    (s.readPair pair).InRange := by
  rw [readPair]
  split
  · dsimp only
    split
    · split
      · exact ⟨clamp_ge (by decide), clamp_le (by decide), h.ratio_le⟩
      · exact h
    · split
      · split
        · exact ⟨h.count_ge, h.count_le, clamp_le (Nat.zero_le 100)⟩
        · exact h
      · exact h
  · exact h

theorem inRange_ofQuery (query : List Char) : (ofQuery query).InRange :=
  runAll_invariant (I := InRange) (fun _ pair h => inRange_readPair h pair)
    ⟨by decide, by decide, by decide⟩ _

-- ---------------------------------------------------------------------------
-- The traffic
-- ---------------------------------------------------------------------------

/-- `sim:key:{i}` -/
def simKey (i : Nat) : Bytes := asBytes ("sim:key:" ++ usizeToString i)

/-- `sim:val:{i}` -/
def simVal (i : Nat) : Bytes := asBytes ("sim:val:" ++ usizeToString i)

/-- `sim:nonexistent:{i}` -/
def nonexistent (i : Nat) : Bytes := asBytes ("sim:nonexistent:" ++ usizeToString i)

/-- The times and draws of the three loops, and the durations they record. -/
structure Traffic where
  seed : Nat → Env
  hit : Nat → Env × Nat
  miss : Nat → Env × Nat

section Traffic

variable {cfg : Config}

/-- The store with the metrics that `record_command` writes. -/
abbrev Cache (cfg : Config) : Type := Db cfg × Latency

/-- `db.get`, and `metrics.record_command`. -/
def lookUp (key : Bytes) (x : Env × Nat) (s : Cache cfg) : Cache cfg :=
  ((s.1.get key x.1).2, s.2.recordCommand x.2)

def seed (t : Traffic) (keys : Nat) (s : Cache cfg) : Cache cfg :=
  runAll (fun s i => (s.1.set (simKey i) (simVal i) none (t.seed i), s.2)) s (List.range keys)

def readHits (t : Traffic) (hitsToDo : Nat) (s : Cache cfg) : Cache cfg :=
  runAll (fun s i => lookUp (simKey (i % 100)) (t.hit i) s) s (List.range hitsToDo)

def readMisses (t : Traffic) (missesToDo : Nat) (s : Cache cfg) : Cache cfg :=
  runAll (fun s i => lookUp (nonexistent i) (t.miss i) s) s (List.range missesToDo)

/-- The traffic of `/api/simulate`. -/
def simulate (sim : Simulation) (t : Traffic) (s : Cache cfg) : Cache cfg :=
  let hitsToDo := U64.mul sim.count sim.hitRatioTarget / 100
  let missesToDo := sim.count - hitsToDo
  readMisses t missesToDo (readHits t hitsToDo (seed t 100 s))

end Traffic

end Simulation

-- ---------------------------------------------------------------------------
-- One operation
-- ---------------------------------------------------------------------------

namespace Db

variable {cfg : Config} {db : Db cfg} {key k : Bytes} {env : Env}

/-- The key is stored without a deadline. -/
def Lasting (db : Db cfg) (key : Bytes) : Prop :=
  ∃ entry, db.entry key = some entry ∧ entry.expiresAt = none

/-- A lookup under another key does not touch an entry. -/
theorem entry_get_ne (hk : key ≠ k) : (db.get k env).2.entry key = db.entry key :=
  entry_lockedAt_ne db hk _

theorem entry_set_ne (hmax : cfg.maxmemory = 0) (hk : key ≠ k) (value : Bytes)
    (expiresAt : Option Instant) : (db.set k value expiresAt env).entry key = db.entry key := by
  have hroom : ∀ n, db.ensureCapacity n env.draws = db := fun n => by simp [ensureCapacity, hmax]
  rw [set, hroom, locked]
  exact entry_lockedAt_ne db hk _

theorem lasting_set (hmax : cfg.maxmemory = 0) (value : Bytes) (h : key = k ∨ db.Lasting key) :
    (db.set k value none env).Lasting key := by
  by_cases hk : key = k
  · subst hk
    have hroom : ∀ n, db.ensureCapacity n env.draws = db := fun n => by simp [ensureCapacity, hmax]
    refine ⟨CacheEntry.new (.string value) none env.clock.millis, ?_, rfl⟩
    rw [set, hroom, entry_locked, Cell.set]
    cases (db.cellAt _ key).slot <;> rfl
  · rw [Lasting, entry_set_ne hmax hk]
    exact h.resolve_left hk

theorem metrics_set_unlimited (hmax : cfg.maxmemory = 0) (value : Bytes) :
    (db.set k value none env).metrics = db.metrics := by
  have hroom : ∀ n, db.ensureCapacity n env.draws = db := fun n => by simp [ensureCapacity, hmax]
  rw [set, hroom]
  exact metrics_set k value none env.clock _

/-- A lookup of a lasting key is a hit, and the key stays. -/
theorem get_lasting (h : db.Lasting k) :
    (db.get k env).2.metrics = db.metrics.recordHit ∧
      ∀ key, db.Lasting key → (db.get k env).2.Lasting key := by
  obtain ⟨entry, hentry, hlasting⟩ := h
  have hslot : (db.cellAt (getShardIndex cfg k) k).slot = some entry := hentry
  have hexpired : entry.isExpired env.clock.now = false := by rw [CacheEntry.isExpired, hlasting]
  have hget : (Cell.get k env.clock (db.cellAt (getShardIndex cfg k) k)).2 =
      ((db.cellAt (getShardIndex cfg k) k).put
        { entry with lastAccessed := env.clock.millis }).recordHit := by
    rw [Cell.get_eq_once, Cell.getOnce_live hslot hexpired]
  constructor
  · show (Cell.get k env.clock (db.cellAt (getShardIndex cfg k) k)).2.metrics = _
    rw [hget]
    rfl
  · intro key hkey
    by_cases hk : key = k
    · subst hk
      refine ⟨{ entry with lastAccessed := env.clock.millis }, ?_, hlasting⟩
      rw [get, entry_locked, hget]
      rfl
    · rw [Lasting, entry_get_ne hk]
      exact hkey

/-- A lookup of a key that a client cannot see is a miss, and no entry appears. -/
theorem get_absent (h : db.item env.clock.now k = none) :
    (db.get k env).2.metrics.hits = db.metrics.hits ∧
      (db.get k env).2.metrics.misses = db.metrics.misses + 1 ∧
      ∀ key, (db.get k env).2.entry key = db.entry key ∨ (db.get k env).2.entry key = none := by
  have hothers : ∀ key, key ≠ k → (db.get k env).2.entry key = db.entry key :=
    fun key hk => entry_get_ne hk
  have hentry : (db.get k env).2.entry k =
      (Cell.get k env.clock (db.cellAt (getShardIndex cfg k) k)).2.slot := entry_locked db k _
  have hmetrics : (db.get k env).2.metrics =
      (Cell.get k env.clock (db.cellAt (getShardIndex cfg k) k)).2.metrics := rfl
  rw [hmetrics]
  rw [Cell.get_eq_once] at hentry ⊢
  rcases Cell.slot_cases (db.cellAt (getShardIndex cfg k) k) env.clock.now with
    hnone | ⟨entry, hslot, hexpired⟩ | ⟨entry, hslot, hlive⟩
  · rw [Cell.getOnce_absent hnone] at hentry ⊢
    refine ⟨rfl, rfl, fun key => ?_⟩
    by_cases hk : key = k
    · exact .inr (hk ▸ hentry.trans hnone)
    · exact .inl (hothers key hk)
  · rw [Cell.getOnce_expired hslot hexpired] at hentry ⊢
    refine ⟨rfl, rfl, fun key => ?_⟩
    by_cases hk : key = k
    · exact .inr (hk ▸ hentry)
    · exact .inl (hothers key hk)
  · have hvisible := Cell.item_live hslot hlive
    rw [show (db.cellAt (getShardIndex cfg k) k).item env.clock.now = none from h] at hvisible
    cases hvisible

end Db

-- ---------------------------------------------------------------------------
-- The loops
-- ---------------------------------------------------------------------------

namespace Simulation

section Loops

variable {cfg : Config} {t : Traffic} {s : Cache cfg}

/-- From `before` to `after`, `h` hits and `m` misses were counted, and as many commands were
recorded; the entries under keys outside `touched` are as they were. -/
structure Served (touched : Bytes → Prop) (h m : Nat) (before after : Cache cfg) : Prop where
  hits : after.1.metrics.hits = before.1.metrics.hits + .ofNat h
  misses : after.1.metrics.misses = before.1.metrics.misses + .ofNat m
  commands : ∃ durations, durations.length = h + m ∧
    after.2 = runAll Latency.recordCommand before.2 durations
  others : ∀ key, ¬ touched key → after.1.entry key = before.1.entry key

theorem served_refl {touched : Bytes → Prop} (s : Cache cfg) : Served touched 0 0 s s :=
  ⟨(UInt64.add_zero _).symm, (UInt64.add_zero _).symm, ⟨[], rfl, rfl⟩, fun _ _ => rfl⟩

theorem Served.trans {touched touched' : Bytes → Prop} {middle after : Cache cfg}
    {h m h' m' : Nat} (hs : Served touched h m s middle) (hs' : Served touched' h' m' middle after) :
    Served (fun key => touched key ∨ touched' key) (h + h') (m + m') s after where
  hits := by rw [hs'.hits, hs.hits, UInt64.add_assoc, UInt64.ofNat_add]
  misses := by rw [hs'.misses, hs.misses, UInt64.add_assoc, UInt64.ofNat_add]
  commands := by
    obtain ⟨durations, hlength, hrun⟩ := hs.commands
    obtain ⟨durations', hlength', hrun'⟩ := hs'.commands
    refine ⟨durations ++ durations', ?_, by rw [runAll_append, ← hrun, hrun']⟩
    rw [List.length_append]
    omega
  others key hkey := (hs'.others key fun h => hkey (.inr h)).trans
    (hs.others key fun h => hkey (.inl h))

theorem Served.again {touched : Bytes → Prop} {middle after : Cache cfg} {h m h' m' : Nat}
    (hs : Served touched h m s middle) (hs' : Served touched h' m' middle after) :
    Served touched (h + h') (m + m') s after where
  hits := (hs.trans hs').hits
  misses := (hs.trans hs').misses
  commands := (hs.trans hs').commands
  others key hkey := (hs.trans hs').others key fun h => hkey (h.elim id id)

/-- The keys that the simulation stores. -/
def Seeded (key : Bytes) : Prop := ∃ i, key = simKey i

/-- The keys that its misses look up. -/
def Missed (key : Bytes) : Prop := ∃ i, key = nonexistent i

theorem not_seeded (i : Nat) : ¬ Seeded (nonexistent i) := by
  rintro ⟨j, h⟩
  rw [simKey, nonexistent, asBytes_append, asBytes_append] at h
  have hprefix := congrArg (List.take 5) h
  rw [List.take_append_of_le_length (by decide +kernel),
    List.take_append_of_le_length (by decide +kernel)] at hprefix
  exact absurd hprefix (by decide +kernel)

theorem served_set (hmax : cfg.maxmemory = 0) (i : Nat) (value : Bytes) (env : Env) :
    Served Seeded 0 0 s (s.1.set (simKey i) value none env, s.2) where
  hits := by
    rw [Db.metrics_set_unlimited hmax value]
    exact (UInt64.add_zero _).symm
  misses := by
    rw [Db.metrics_set_unlimited hmax value]
    exact (UInt64.add_zero _).symm
  commands := ⟨[], rfl, rfl⟩
  others _ hkey := Db.entry_set_ne hmax (fun hk => hkey ⟨i, hk⟩) value none

theorem served_hit (i : Nat) (x : Env × Nat) (h : s.1.Lasting (simKey i)) :
    Served Seeded 1 0 s (lookUp (simKey i) x s) where
  hits := by
    show (s.1.get (simKey i) x.1).2.metrics.hits = _
    rw [(Db.get_lasting h).1]
    rfl
  misses := by
    show (s.1.get (simKey i) x.1).2.metrics.misses = _
    rw [(Db.get_lasting h).1]
    exact (UInt64.add_zero _).symm
  commands := ⟨[x.2], rfl, rfl⟩
  others _ hkey := Db.entry_get_ne fun hk => hkey ⟨i, hk⟩

theorem served_miss (i : Nat) (x : Env × Nat)
    (h : s.1.item x.1.clock.now (nonexistent i) = none) :
    Served Missed 0 1 s (lookUp (nonexistent i) x s) where
  hits := (Db.get_absent h).1.trans (UInt64.add_zero _).symm
  misses := (Db.get_absent h).2.1
  commands := ⟨[x.2], rfl, rfl⟩
  others _ hkey := Db.entry_get_ne fun hk => hkey ⟨i, hk⟩

/-- Storing the first `n` keys. -/
theorem served_seed (hmax : cfg.maxmemory = 0) (n : Nat) :
    Served Seeded 0 0 s (seed t n s) ∧ ∀ i < n, (seed t n s).1.Lasting (simKey i) := by
  induction n with
  | zero => exact ⟨served_refl s, fun i hi => absurd hi (Nat.not_lt_zero i)⟩
  | succ n ih =>
    obtain ⟨hserved, hlasting⟩ := ih
    rw [seed, runAll_range_succ, ← seed]
    refine ⟨hserved.again (served_set hmax n _ _), fun i hi => Db.lasting_set hmax _ ?_⟩
    rcases Nat.lt_succ_iff_lt_or_eq.mp hi with hlt | rfl
    · exact .inr (hlasting i hlt)
    · exact .inl rfl

/-- Reading keys that last. -/
theorem served_readHits (hlasting : ∀ i < 100, s.1.Lasting (simKey i)) (n : Nat) :
    Served Seeded n 0 s (readHits t n s) ∧ ∀ i < 100, (readHits t n s).1.Lasting (simKey i) := by
  induction n with
  | zero => exact ⟨served_refl s, hlasting⟩
  | succ n ih =>
    obtain ⟨hserved, hstill⟩ := ih
    rw [readHits, runAll_range_succ, ← readHits]
    have hkey := hstill (n % 100) (Nat.mod_lt n (by decide))
    exact ⟨hserved.again (served_hit _ _ hkey),
      fun i hi => (Db.get_lasting hkey).2 _ (hstill i hi)⟩

/-- The keys of the miss loop are not there at the times it reads them. -/
def Unseen (t : Traffic) (db : Db cfg) : Prop :=
  ∀ i, db.item (t.miss i).1.clock.now (nonexistent i) = none

/-- Reading keys that are not there. -/
theorem served_readMisses (hunseen : Unseen t s.1) (n : Nat) :
    Served Missed 0 n s (readMisses t n s) ∧ Unseen t (readMisses t n s).1 := by
  induction n with
  | zero => exact ⟨served_refl s, hunseen⟩
  | succ n ih =>
    obtain ⟨hserved, hstill⟩ := ih
    rw [readMisses, runAll_range_succ, ← readMisses]
    refine ⟨hserved.again (served_miss n _ (hstill n)), fun i => ?_⟩
    show ((readMisses t n s).1.get (nonexistent n) (t.miss n).1).2.item _ (nonexistent i) = none
    rw [Db.item]
    rcases (Db.get_absent (hstill n)).2.2 (nonexistent i) with hsame | hnone
    · rw [hsame]
      exact hstill i
    · rw [hnone]
      rfl

theorem Unseen.of_served {after : Cache cfg} {h m : Nat} (hunseen : Unseen t s.1)
    (hserved : Served Seeded h m s after) : Unseen t after.1 := by
  intro i
  rw [Db.item, hserved.others _ (not_seeded i)]
  exact hunseen i

/-- On a store without a memory limit in which the keys of the misses cannot be seen, a
simulation of between 10 and 50000 commands adds the asked percentage of them, rounded down, to
the hits and the rest to the misses, records each command, and changes the entries of no other
keys than its own. -/
theorem simulate_counts (hmax : cfg.maxmemory = 0) (uri : List Char) (hunseen : Unseen t s.1) :
    let sim := ofQuery (queryOf uri)
    let after := simulate sim t s
    (10 ≤ sim.count ∧ sim.count ≤ 50000 ∧ sim.hitRatioTarget ≤ 100) ∧
      ∃ hits misses, hits = sim.count * sim.hitRatioTarget / 100 ∧ hits + misses = sim.count ∧
        Served (fun key => Seeded key ∨ Missed key) hits misses s after := by
  intro sim after
  have hsim := inRange_ofQuery (queryOf uri)
  have hproduct : sim.count * sim.hitRatioTarget ≤ sim.count * 100 :=
    Nat.mul_le_mul_left _ hsim.ratio_le
  have hcount : sim.count ≤ 50000 := hsim.count_le
  have hmul : U64.mul sim.count sim.hitRatioTarget = sim.count * sim.hitRatioTarget :=
    U64.mul_eq (by rw [U64.size]; omega)
  refine ⟨⟨hsim.count_ge, hsim.count_le, hsim.ratio_le⟩, _,
    sim.count - sim.count * sim.hitRatioTarget / 100, rfl, by omega, ?_⟩
  obtain ⟨hseed, hlasting⟩ := served_seed (t := t) (s := s) hmax 100
  obtain ⟨hhits, -⟩ := served_readHits (t := t) hlasting (sim.count * sim.hitRatioTarget / 100)
  have hread := hseed.again hhits
  obtain ⟨hmisses, -⟩ := served_readMisses (hunseen.of_served hread)
    (sim.count - sim.count * sim.hitRatioTarget / 100)
  have htraffic := hread.trans hmisses
  rw [Nat.zero_add, Nat.zero_add, Nat.add_zero] at htraffic
  show Served _ _ _ s (readMisses t (sim.count - U64.mul sim.count sim.hitRatioTarget / 100)
    (readHits t (U64.mul sim.count sim.hitRatioTarget / 100) (seed t 100 s)))
  rw [hmul]
  exact htraffic

/-- Ten commands on an empty store, a third of them hits. -/
theorem simulate_counts_ten :
    let x : Env := { clock := { now := 0, millis := 0 }, draws := fun _ _ => (0, 0) }
    let t : Traffic := { seed := fun _ => x, hit := fun _ => (x, 5), miss := fun _ => (x, 5) }
    let s : Cache (.standard 0 List.length) := (Db.empty, Latency.new)
    let sim := ofQuery (queryOf "/api/simulate?ops=1&hit_ratio=33".toList)
    let after := simulate sim t s
    sim = { count := 10, hitRatioTarget := 33 } ∧
      (10 ≤ sim.count ∧ sim.count ≤ 50000 ∧ sim.hitRatioTarget ≤ 100) ∧
      ∃ hits misses, hits = sim.count * sim.hitRatioTarget / 100 ∧ hits + misses = sim.count ∧
        Served (fun key => Seeded key ∨ Missed key) hits misses s after := by
  intro x t s sim
  exact ⟨by decide +kernel, simulate_counts rfl _ fun _ => rfl⟩

end Loops

end Simulation

end InMemoryCache
