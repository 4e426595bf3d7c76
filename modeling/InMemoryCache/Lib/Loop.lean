-- SUMMARY: Loops that go on until a round has nothing left to do, and their bounded form.
import Mathlib.Tactic.Common

/-!
# Loops

A loop runs rounds, each of which takes the state on or ends the loop. Its bounded form is
handed the number of rounds it may take. If a measure of the state drops in every round that
goes on, a bound above the measure is never reached: the loop ends, and the bounded form
returns the one state in which it does.
-/

namespace Lib

namespace Loop

variable {σ : Type} {round : Nat → σ → Option σ} {s₀ s s' : σ} {k k' : Nat}

/-- The loop comes to round `k` in the state `s`. -/
inductive Reaches (round : Nat → σ → Option σ) (s₀ : σ) : Nat → σ → Prop
  | start : Reaches round s₀ 0 s₀
  | next {k : Nat} {s s' : σ} : Reaches round s₀ k s → round k s = some s' →
      Reaches round s₀ (k + 1) s'

/-- The bounded loop from round `k` on. -/
def run (round : Nat → σ → Option σ) : Nat → Nat → σ → σ
  | 0, _, s => s
  | fuel + 1, k, s =>
    match round k s with
    | some s' => run round fuel (k + 1) s'
    | none => s

/-- The loop ends in `s`. -/
def Ends (round : Nat → σ → Option σ) (s₀ s : σ) : Prop :=
  ∃ k, Reaches round s₀ k s ∧ round k s = none

/-- The loop rule: what every round keeps holds in every round. -/
theorem Reaches.keeps {P : σ → Prop} (hP : ∀ {k s s'}, P s → round k s = some s' → P s')
    (hs : P s₀) (h : Reaches round s₀ k s) : P s := by
  induction h with
  | start => exact hs
  | next _ hround ih => exact hP ih hround

theorem Reaches.unique (h : Reaches round s₀ k s) (h' : Reaches round s₀ k s') : s = s' := by
  induction h generalizing s' with
  | start =>
    cases h'
    rfl
  | next _ hround ih =>
    cases h' with
    | next hreaches hround' =>
      rw [ih hreaches, hround'] at hround
      cases hround
      rfl

/-- The rounds before one that is reached go on. -/
theorem Reaches.goes_on (h : Reaches round s₀ k' s') (hk : k < k') :
    ∃ s t, Reaches round s₀ k s ∧ round k s = some t := by
  induction h with
  | start => exact absurd hk (Nat.not_lt_zero k)
  | @next k' s t hreaches hround ih =>
    rcases Nat.lt_succ_iff_lt_or_eq.mp hk with hk | rfl
    · exact ih hk
    · exact ⟨s, t, hreaches, hround⟩

/-- No round comes after one that ends the loop. -/
theorem Reaches.le_of_end (h : Reaches round s₀ k s) (hend : round k s = none)
    (h' : Reaches round s₀ k' s') : k' ≤ k := by
  refine Nat.le_of_not_lt fun hk => ?_
  obtain ⟨t, t', ht, hround⟩ := h'.goes_on hk
  rw [← h.unique ht, hend] at hround
  cases hround

/-- The loop ends in one state. -/
theorem Ends.unique (h : Ends round s₀ s) (h' : Ends round s₀ s') : s = s' := by
  obtain ⟨k, hreaches, hend⟩ := h
  obtain ⟨k', hreaches', hend'⟩ := h'
  obtain rfl : k = k' := Nat.le_antisymm (hreaches'.le_of_end hend' hreaches)
    (hreaches.le_of_end hend hreaches')
  exact hreaches.unique hreaches'

theorem Ends.iff_eq (h : Ends round s₀ s') : Ends round s₀ s ↔ s = s' := by
  constructor
  · exact fun hs => hs.unique h
  · rintro rfl
    exact h

/-- With a bound above the measure, the bounded loop ends where the loop does. By induction on
the bound. -/
theorem ends_run {measure : σ → Nat} (hround : ∀ {k s s'}, round k s = some s' →
      measure s' < measure s) {fuel : Nat} (h : Reaches round s₀ k s)
    (hfuel : measure s < fuel) : Ends round s₀ (run round fuel k s) := by
  induction fuel generalizing s k with
  | zero => exact absurd hfuel (Nat.not_lt_zero _)
  | succ fuel ih =>
    rw [run]
    cases hnext : round k s with
    | none => exact ⟨k, h, hnext⟩
    | some s' =>
      have hlt := hround hnext
      exact ih (h.next hnext) (by omega)

end Loop

end Lib
