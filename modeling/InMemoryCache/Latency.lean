-- SUMMARY: The latency window of the metrics, and the percentiles computed from it.
import InMemoryCache.Basic
import InMemoryCache.Lib.Samples
import Mathlib.Algebra.BigOperators.Group.List.Basic
import Mathlib.Algebra.GroupWithZero.Nat

/-!
# Latency statistics

`record_command` keeps the durations of the last commands, and `latency_stats` sorts a copy
of them and picks its minimum, its maximum and three percentiles by position. Whatever was
recorded, the positions are in range and the samples there have the rank they are named
after.
-/

namespace InMemoryCache

open Lib

/-- `LATENCY_BUFFER_SIZE` -/
def latencyBufferSize : Nat := 2048

/-- What `record_command` writes of `Metrics`. The counters are atomics that wrap. -/
structure Latency where
  totalCommands : Nat
  totalLatencyUs : Nat
  latencyCount : Nat
  recentLatencies : List Nat
  deriving DecidableEq, Repr

/-- The average is left as the operands of its floating-point division, `none` for 0.0. -/
structure LatencyStats where
  minUs : Nat
  maxUs : Nat
  avgUs : Option (Nat × Nat)
  p50Us : Nat
  p95Us : Nat
  p99Us : Nat
  deriving DecidableEq, Repr

/-- `LatencyStats::default()` -/
def LatencyStats.default : LatencyStats where
  minUs := 0
  maxUs := 0
  avgUs := none
  p50Us := 0
  p95Us := 0
  p99Us := 0

namespace Latency

def new : Latency where
  totalCommands := 0
  totalLatencyUs := 0
  latencyCount := 0
  recentLatencies := []

def recordCommand (m : Latency) (durationUs : Nat) : Latency where
  totalCommands := U64.add m.totalCommands 1
  totalLatencyUs := U64.add m.totalLatencyUs durationUs
  latencyCount := U64.add m.latencyCount 1
  recentLatencies :=
    let buf := m.recentLatencies
    (if buf.length ≥ latencyBufferSize then buf.tail else buf) ++ [durationUs]

/-- `none` is a panic: an index out of range. -/
def latencyStats (m : Latency) : Option LatencyStats :=
  if m.recentLatencies.isEmpty then some .default
  else do
    let samples := m.recentLatencies.mergeSort
    let count := samples.length
    let minUs ← samples[0]?
    let maxUs ← samples[count - 1]?
    let p50Us ← samples[U64.mul count 50 / 100]?
    let p95Us ← samples[U64.mul count 95 / 100]?
    let p99Us ← samples[U64.mul count 99 / 100]?
    let sum := samples.foldl U64.add 0
    some
      { minUs := minUs, maxUs := maxUs, avgUs := some (sum, count), p50Us := p50Us,
        p95Us := p95Us, p99Us := p99Us }

/-- The metrics once the durations were recorded, one after the other. -/
def recorded (durations : List Nat) : Latency := runAll recordCommand new durations

end Latency

-- ---------------------------------------------------------------------------
-- The window
-- ---------------------------------------------------------------------------

namespace Latency

theorem recentLatencies_recordCommand (m : Latency) (durationUs : Nat) :
    (m.recordCommand durationUs).recentLatencies =
      slide latencyBufferSize m.recentLatencies durationUs := rfl

/-- The window takes the durations one after the other. -/
theorem recentLatencies_run (m : Latency) (durations : List Nat) :
    (runAll recordCommand m durations).recentLatencies =
      runAll (slide latencyBufferSize) m.recentLatencies durations := by
  induction durations generalizing m with
  | nil => rfl
  | cons durationUs durations ih =>
    have hrun := ih (m.recordCommand durationUs)
    rwa [recentLatencies_recordCommand] at hrun

/-- The window holds the last durations. -/
theorem recentLatencies_recorded (durations : List Nat) :
    (recorded durations).recentLatencies = lastOf latencyBufferSize durations :=
  (recentLatencies_run new durations).trans (slide_run (by decide) durations)

end Latency

-- ---------------------------------------------------------------------------
-- The statistics
-- ---------------------------------------------------------------------------

/-- Adding up wraps once, at the end. -/
theorem foldl_add {n : Nat} (hn : n < U64.size) (samples : List Nat) :
    samples.foldl U64.add n = (n + samples.sum) % U64.size := by
  induction samples generalizing n with
  | nil => exact (Nat.mod_eq_of_lt hn).symm
  | cons x samples ih =>
    have hlt : U64.add n x < U64.size := Nat.mod_lt _ (by decide)
    rw [List.foldl_cons, ih hlt, U64.add, Nat.mod_add_mod, List.sum_cons, Nat.add_assoc]

/-- What the statistics of a window are to be. -/
structure LatencyStats.Describes (stats : LatencyStats) (window : List Nat) : Prop where
  minimum : IsLeast {a | a ∈ window} stats.minUs
  maximum : IsGreatest {a | a ∈ window} stats.maxUs
  average : stats.avgUs = some (window.sum % U64.size, window.length)
  p50 : Quantile 50 window stats.p50Us
  p95 : Quantile 95 window stats.p95Us
  p99 : Quantile 99 window stats.p99Us
  ordered : stats.minUs ≤ stats.p50Us ∧ stats.p50Us ≤ stats.p95Us ∧
    stats.p95Us ≤ stats.p99Us ∧ stats.p99Us ≤ stats.maxUs

namespace Latency

/-- The position of a percentile does not overflow, and is in range. -/
theorem exists_percentile {window : List Nat} {q : Nat} (hne : window ≠ [])
    (hlen : window.length ≤ latencyBufferSize) (hq : q < 100) :
    U64.mul window.length q / 100 = window.length * q / 100 ∧
      ∃ x, (sorted window)[window.length * q / 100]? = some x := by
  have hpos : 0 < window.length := List.length_pos_iff.mpr hne
  have hfits : window.length * q < U64.size := by
    calc window.length * q ≤ latencyBufferSize * 100 := Nat.mul_le_mul hlen hq.le
      _ < U64.size := by decide
  exact ⟨by rw [U64.mul_eq hfits], exists_sorted (rank_lt hpos hq)⟩

/-- The statistics of a window of at most the buffer's size describe it. -/
theorem latencyStats_describes {m : Latency} (hne : m.recentLatencies ≠ [])
    (hlen : m.recentLatencies.length ≤ latencyBufferSize) :
    ∃ stats, m.latencyStats = some stats ∧ stats.Describes m.recentLatencies := by
  have hpos : 0 < m.recentLatencies.length := List.length_pos_iff.mpr hne
  obtain ⟨minUs, hmin⟩ := exists_sorted hpos
  obtain ⟨maxUs, hmax⟩ := exists_sorted (l := m.recentLatencies) (Nat.sub_lt hpos one_pos)
  obtain ⟨hrank50, p50Us, h50⟩ := exists_percentile (q := 50) hne hlen (by decide)
  obtain ⟨hrank95, p95Us, h95⟩ := exists_percentile (q := 95) hne hlen (by decide)
  obtain ⟨hrank99, p99Us, h99⟩ := exists_percentile (q := 99) hne hlen (by decide)
  have hsorted : m.recentLatencies.mergeSort = sorted m.recentLatencies := rfl
  have hcount : (sorted m.recentLatencies).length = m.recentLatencies.length :=
    (perm_sorted _).length_eq
  have hsum : (sorted m.recentLatencies).foldl U64.add 0 = m.recentLatencies.sum % U64.size := by
    rw [foldl_add (by decide), Nat.zero_add, (perm_sorted _).sum_eq]
  refine ⟨⟨minUs, maxUs, some (m.recentLatencies.sum % U64.size, m.recentLatencies.length), p50Us,
    p95Us, p99Us⟩, ?_, ?_⟩
  · rw [latencyStats, if_neg (by rwa [List.isEmpty_iff])]
    dsimp only
    rw [hsorted, hcount, hrank50, hrank95, hrank99, hmin, hmax, h50, h95, h99, hsum]
    rfl
  · exact {
      minimum := isLeast_of_sorted hmin
      maximum := isGreatest_of_sorted hmax
      average := rfl
      p50 := quantile_of_sorted h50
      p95 := quantile_of_sorted h95
      p99 := quantile_of_sorted h99
      ordered := ⟨sorted_mono hmin h50 (Nat.zero_le _), sorted_mono h50 h95 (by omega),
        sorted_mono h95 h99 (by omega), sorted_mono h99 hmax (by omega)⟩ }

/-- The window holds the last durations in order, and its statistics exist and describe it. -/
theorem latency_window (durations : List Nat) :
    (recorded durations).recentLatencies = lastOf latencyBufferSize durations ∧
      (recorded durations).recentLatencies.length = min durations.length latencyBufferSize ∧
      ((recorded durations).recentLatencies ≠ [] →
        ∃ stats, (recorded durations).latencyStats = some stats ∧
          stats.Describes (recorded durations).recentLatencies) := by
  have hwindow := recentLatencies_recorded durations
  have hlen : (recorded durations).recentLatencies.length =
      min durations.length latencyBufferSize := by
    rw [hwindow, length_lastOf]
  exact ⟨hwindow, hlen, fun hne => latencyStats_describes hne (hlen ▸ Nat.min_le_right _ _)⟩

theorem latency_window_five :
    ∃ stats, (recorded [10, 20, 30, 40, 50]).latencyStats = some stats ∧
      stats.Describes [10, 20, 30, 40, 50] :=
  (latency_window [10, 20, 30, 40, 50]).2.2 (by decide)

end Latency

end InMemoryCache
