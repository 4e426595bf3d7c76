-- SUMMARY: Sliding windows over a stream of samples, and order statistics of a window.
import InMemoryCache.Lib.Run
import Mathlib.Data.List.Induction
import Mathlib.Data.List.Sort
import Mathlib.Order.Bounds.Basic
import Mathlib.Tactic.Common

/-!
# Samples

A window of a fixed size takes one sample after the other and holds the last ones
(`slide_run`). The sample at position `i` of the sorted window has more than `i` samples at
or below it, and all but `i` at or above it; at the position `q` percent in it is a
`Quantile`.
-/

namespace Lib

-- ---------------------------------------------------------------------------
-- Sliding windows
-- ---------------------------------------------------------------------------

section Window

variable {α : Type} {n : Nat}

/-- Take a sample into a window of at most `n`; a full window loses its oldest first. -/
def slide (n : Nat) (window : List α) (x : α) : List α :=
  (if window.length ≥ n then window.tail else window) ++ [x]

/-- The last `n` elements, or all if there are fewer. -/
def lastOf (n : Nat) (xs : List α) : List α := xs.drop (xs.length - n)

theorem length_lastOf (n : Nat) (xs : List α) : (lastOf n xs).length = min xs.length n := by
  rw [lastOf, List.length_drop]
  omega

theorem slide_lastOf (hn : 0 < n) (xs : List α) (x : α) :
    slide n (lastOf n xs) x = lastOf n (xs ++ [x]) := by
  rw [slide, length_lastOf, lastOf, lastOf, List.length_append, List.length_singleton]
  by_cases hfull : n ≤ xs.length
  · rw [if_pos (by omega), List.tail_drop, List.drop_append_of_le_length (by omega)]
    congr 2
    omega
  · have hold : xs.length - n = 0 := by omega
    have hnew : xs.length + 1 - n = 0 := by omega
    rw [if_neg (by omega), hold, hnew, List.drop_zero, List.drop_zero]

/-- A window holds the last samples it took, in order. -/
theorem slide_run (hn : 0 < n) (xs : List α) : runAll (slide n) [] xs = lastOf n xs := by
  induction xs using List.reverseRecOn with
  | nil => exact List.drop_nil.symm
  | append_singleton xs x ih =>
    rw [runAll_append, ih]
    exact slide_lastOf hn xs x

end Window

-- ---------------------------------------------------------------------------
-- Sorted samples
-- ---------------------------------------------------------------------------

section Sorted

variable {α : Type} [LinearOrder α] {l : List α} {i j : Nat} {x y : α}

theorem le_of_sorted (hl : l.Pairwise (· ≤ ·)) (hx : l[i]? = some x) (hy : l[j]? = some y)
    (hij : i ≤ j) : x ≤ y := by
  obtain ⟨hi, rfl⟩ := List.getElem?_eq_some_iff.mp hx
  obtain ⟨hj, rfl⟩ := List.getElem?_eq_some_iff.mp hy
  rcases Nat.eq_or_lt_of_le hij with rfl | hlt
  · exact le_rfl
  · exact List.pairwise_iff_getElem.mp hl i j hi hj hlt

/-- The sample at a position, and those before it, are at or below it. -/
theorem lt_countP_le (hl : l.Pairwise (· ≤ ·)) (hx : l[i]? = some x) :
    i < l.countP (· ≤ x) := by
  induction l generalizing i with
  | nil => cases hx
  | cons a l ih =>
    obtain ⟨ha, hl⟩ := List.pairwise_cons.mp hl
    cases i with
    | zero =>
      cases hx
      simp
    | succ i =>
      have hax : a ≤ x := ha x (List.mem_of_getElem? hx)
      rw [List.countP_cons_of_pos (by simpa using hax)]
      exact Nat.succ_lt_succ (ih hl hx)

/-- The sample at a position, and those after it, are at or above it. -/
theorem length_le_countP_ge (hl : l.Pairwise (· ≤ ·)) (hx : l[i]? = some x) :
    l.length ≤ i + l.countP (x ≤ ·) := by
  induction l generalizing i with
  | nil => exact Nat.zero_le _
  | cons a l ih =>
    obtain ⟨ha, hl⟩ := List.pairwise_cons.mp hl
    cases i with
    | zero =>
      cases hx
      have hall : ∀ b ∈ x :: l, decide (x ≤ b) = true := by simpa using ha
      rw [List.countP_eq_length.mpr hall, Nat.zero_add]
    | succ i =>
      have hrest := ih hl hx
      have hle : l.countP (x ≤ ·) ≤ (a :: l).countP (x ≤ ·) :=
        (List.sublist_cons_self a l).countP_le
      rw [List.length_cons]
      omega

end Sorted

-- ---------------------------------------------------------------------------
-- Order statistics
-- ---------------------------------------------------------------------------

/-- The position `q` percent in, truncated, is in range. -/
theorem rank_lt {count q : Nat} (hcount : 0 < count) (hq : q < 100) :
    count * q / 100 < count := by
  rw [Nat.div_lt_iff_lt_mul (by decide)]
  exact Nat.mul_lt_mul_of_pos_left hq hcount

section Statistics

variable {α : Type} [LinearOrder α] {l : List α} {i j q : Nat} {x y : α}

/-- `x` is a sample that splits the samples at `q` percent. -/
structure Quantile (q : Nat) (l : List α) (x : α) : Prop where
  mem : x ∈ l
  below : q * l.length < 100 * l.countP (· ≤ x)
  above : (100 - q) * l.length ≤ 100 * l.countP (x ≤ ·)

/-- The samples in order. -/
def sorted (l : List α) : List α := l.mergeSort (· ≤ ·)

theorem perm_sorted (l : List α) : (sorted l).Perm l := List.mergeSort_perm l _

theorem pairwise_sorted (l : List α) : (sorted l).Pairwise (· ≤ ·) := List.pairwise_mergeSort' _ l

theorem exists_sorted (h : i < l.length) : ∃ x, (sorted l)[i]? = some x := by
  have hi : i < (sorted l).length := by rwa [(perm_sorted l).length_eq]
  exact ⟨_, List.getElem?_eq_getElem hi⟩

theorem mem_of_sorted (hx : (sorted l)[i]? = some x) : x ∈ l :=
  (perm_sorted l).mem_iff.mp (List.mem_of_getElem? hx)

theorem sorted_mono (hx : (sorted l)[i]? = some x) (hy : (sorted l)[j]? = some y) (hij : i ≤ j) :
    x ≤ y :=
  le_of_sorted (pairwise_sorted l) hx hy hij

theorem isLeast_of_sorted (hx : (sorted l)[0]? = some x) : IsLeast {a | a ∈ l} x := by
  refine ⟨mem_of_sorted hx, fun a ha => ?_⟩
  obtain ⟨j, hj⟩ := List.mem_iff_getElem?.mp ((perm_sorted l).mem_iff.mpr ha)
  exact sorted_mono hx hj (Nat.zero_le j)

theorem isGreatest_of_sorted (hx : (sorted l)[l.length - 1]? = some x) :
    IsGreatest {a | a ∈ l} x := by
  refine ⟨mem_of_sorted hx, fun a ha => ?_⟩
  obtain ⟨j, hj⟩ := List.mem_iff_getElem?.mp ((perm_sorted l).mem_iff.mpr ha)
  have hlt : j < l.length := by
    rw [← (perm_sorted l).length_eq]
    exact (List.getElem?_eq_some_iff.mp hj).1
  exact sorted_mono hj hx (by omega)

/-- The sample at the position `q` percent in is a quantile. -/
theorem quantile_of_sorted (hx : (sorted l)[l.length * q / 100]? = some x) : Quantile q l x where
  mem := mem_of_sorted hx
  below := by
    have hcount := lt_countP_le (pairwise_sorted l) hx
    rw [(perm_sorted l).countP_eq] at hcount
    rw [Nat.mul_comm q]
    omega
  above := by
    have hcount := length_le_countP_ge (pairwise_sorted l) hx
    rw [(perm_sorted l).length_eq, (perm_sorted l).countP_eq] at hcount
    rw [Nat.sub_mul, Nat.mul_comm q]
    omega

end Statistics

end Lib
