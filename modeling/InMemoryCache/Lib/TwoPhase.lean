-- SUMMARY: Operations that look under one lock and act under a second one.
import Mathlib.Tactic.Common

/-!
# Two-phase operations

An operation first looks at the state. It either has its answer then, or it changed nothing
and acts in a second phase, before which anything may happen to the state. If either phase,
when it answers, does what one atomic operation does, then the two-phase operation is that
atomic operation at the moment of the last phase it took, whatever happened in between.
-/

namespace Lib

variable {τ σ ρ : Type}

/-- Each phase, at a moment and in the state it finds, does what `once` does there; a look
without an answer changes nothing. -/
structure TwoPhase (look : τ → σ → Option ρ × σ) (act once : τ → σ → ρ × σ) : Prop where
  answered : ∀ {t s r s'}, look t s = (some r, s') → once t s = (r, s')
  passed : ∀ {t s s'}, look t s = (none, s') → s' = s
  acted : ∀ t s, act t s = once t s

namespace TwoPhase

/-- Look at `t`; without an answer, let the others change the state, and act at `t'`. -/
def split (look : τ → σ → Option ρ × σ) (act : τ → σ → ρ × σ) (t t' : τ) (others : σ → σ)
    (s : σ) : ρ × σ :=
  match look t s with
  | (some r, s) => (r, s)
  | (none, s) => act t' (others s)

/-- The moment of the last phase, and the state which it finds. -/
def lastPhase (look : τ → σ → Option ρ × σ) (t t' : τ) (others : σ → σ) (s : σ) : τ × σ :=
  match (look t s).1 with
  | some _ => (t, s)
  | none => (t', others s)

variable {look : τ → σ → Option ρ × σ} {act once : τ → σ → ρ × σ}

/-- A two-phase operation takes effect at its last phase. -/
theorem split_eq (h : TwoPhase look act once) (t t' : τ) (others : σ → σ) (s : σ) :
    split look act t t' others s =
      once (lastPhase look t t' others s).1 (lastPhase look t t' others s).2 := by
  rw [split, lastPhase]
  cases hlook : look t s with
  | mk r s' =>
    cases r with
    | some r => exact (h.answered hlook).symm
    | none =>
      obtain rfl := h.passed hlook
      exact h.acted t' (others s')

/-- With nothing in between, the two phases are the atomic operation. -/
theorem split_self (h : TwoPhase look act once) (t : τ) (s : σ) :
    split look act t t id s = once t s := by
  rw [h.split_eq, lastPhase]
  cases (look t s).1 <;> rfl

end TwoPhase

end Lib
