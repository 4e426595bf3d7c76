-- SUMMARY: A running minimum over samples that may be missing.
import Mathlib.Order.Lattice
import Mathlib.Tactic.Common

/-!
# Running minima

A loop looks at samples, some of which are missing, and keeps the first one of least key
below a key to start with. What it keeps is a least sample, and it keeps nothing exactly if
no sample has a key below the one to start with.
-/

namespace Lib

variable {α κ : Type} [LinearOrder κ]

/-- The sample kept after `n` samples, and its key; at first, nothing and `top`. -/
def least (key : α → κ) (top : κ) (sample : Nat → Option α) : Nat → Option α × κ
  | 0 => (none, top)
  | n + 1 =>
    match sample n with
    | none => least key top sample n
    | some a =>
      if key a < (least key top sample n).2 then (some a, key a) else least key top sample n

/-- After `n` samples `best` is kept with the key `bound`. -/
structure Least (key : α → κ) (top : κ) (sample : Nat → Option α) (n : Nat) (best : Option α)
    (bound : κ) : Prop where
  least : ∀ {j a}, j < n → sample j = some a → bound ≤ key a
  start : best = none → bound = top
  found : ∀ {a}, best = some a → bound < top ∧ key a = bound ∧ ∃ j < n, sample j = some a

section

variable {key : α → κ} {top bound : κ} {sample : Nat → Option α} {n : Nat} {best : Option α}

theorem least_zero : Least key top sample 0 none top where
  least hj := absurd hj (Nat.not_lt_zero _)
  start _ := rfl
  found h := by cases h

/-- A missing sample, or one that is not less, leaves what is kept. -/
theorem Least.keep (h : Least key top sample n best bound)
    (hn : ∀ a, sample n = some a → bound ≤ key a) : Least key top sample (n + 1) best bound where
  least {j a} hj ha := by
    rcases Nat.lt_succ_iff_lt_or_eq.mp hj with hj | rfl
    · exact h.least hj ha
    · exact hn a ha
  start := h.start
  found hbest := by
    obtain ⟨hbound, hkey, j, hj, ha⟩ := h.found hbest
    exact ⟨hbound, hkey, j, Nat.lt_succ_of_lt hj, ha⟩

theorem Least.le_top (h : Least key top sample n best bound) : bound ≤ top := by
  cases hbest : best with
  | none => exact (h.start hbest).le
  | some a => exact (h.found hbest).1.le

/-- A lesser sample replaces what is kept. -/
theorem Least.take {a : α} (h : Least key top sample n best bound) (ha : sample n = some a)
    (hlt : key a < bound) : Least key top sample (n + 1) (some a) (key a) where
  least {j b} hj hb := by
    rcases Nat.lt_succ_iff_lt_or_eq.mp hj with hj | rfl
    · exact hlt.le.trans (h.least hj hb)
    · rw [ha] at hb
      cases hb
      exact le_rfl
  start hbest := by cases hbest
  found hbest := by
    cases hbest
    exact ⟨lt_of_lt_of_le hlt h.le_top, rfl, n, Nat.lt_succ_self n, ha⟩

end

/-- The invariant of the loop. -/
theorem least_spec (key : α → κ) (top : κ) (sample : Nat → Option α) (n : Nat) :
    Least key top sample n (least key top sample n).1 (least key top sample n).2 := by
  induction n with
  | zero => exact least_zero
  | succ n ih =>
    rw [least]
    cases hsample : sample n with
    | none =>
      refine ih.keep fun a ha => ?_
      rw [hsample] at ha
      cases ha
    | some a =>
      dsimp only
      split
      · rename_i hlt
        exact ih.take hsample hlt
      · rename_i hlt
        refine ih.keep fun b hb => ?_
        rw [hsample] at hb
        cases hb
        exact le_of_not_gt hlt

end Lib
