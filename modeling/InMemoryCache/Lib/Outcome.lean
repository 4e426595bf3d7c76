-- SUMMARY: Results of code that can succeed, answer an error or panic.
import Mathlib.Tactic.Common

/-!
# Outcomes

`Outcome ε α` is the result of a computation that returns a value, returns an
error, or panics. Errors and panics both end a `do` block early; they differ in
what the caller sees, so they are separate constructors.
-/

namespace Lib

/-- Result of a computation that may fail with `ε` or panic. -/
inductive Outcome (ε : Type u) (α : Type v) where
  | ok (a : α)
  | err (e : ε)
  | panic
  deriving DecidableEq, Repr

namespace Outcome

variable {ε : Type u} {α : Type v} {β : Type w}

protected def bind (x : Outcome ε α) (f : α → Outcome ε β) : Outcome ε β :=
  match x with
  | .ok a => f a
  | .err e => .err e
  | .panic => .panic

instance : Monad (Outcome ε) where
  pure := .ok
  bind := Outcome.bind

/-- A checked operation: `none` is the overflow that panics. -/
def ofChecked : Option α → Outcome ε α
  | some a => .ok a
  | none => .panic

section Bind

variable {ε : Type u} {α β : Type v}

@[simp] theorem pure_eq (a : α) : (pure a : Outcome ε α) = .ok a := rfl
@[simp] theorem ok_bind (a : α) (f : α → Outcome ε β) : (Outcome.ok a >>= f) = f a := rfl
@[simp] theorem err_bind (e : ε) (f : α → Outcome ε β) :
    ((Outcome.err e : Outcome ε α) >>= f) = .err e := rfl
@[simp] theorem panic_bind (f : α → Outcome ε β) :
    ((Outcome.panic : Outcome ε α) >>= f) = .panic := rfl

theorem bind_eq_ok {x : Outcome ε α} {f : α → Outcome ε β} {b : β} :
    (x >>= f) = .ok b ↔ ∃ a, x = .ok a ∧ f a = .ok b := by
  cases x <;> simp

theorem bind_eq_err {x : Outcome ε α} {f : α → Outcome ε β} {e : ε} :
    (x >>= f) = .err e ↔ x = .err e ∨ ∃ a, x = .ok a ∧ f a = .err e := by
  cases x <;> simp

/-- What follows a computation only matters at the value it returns. -/
theorem bind_congr_ok {x : Outcome ε α} {f g : α → Outcome ε β} (h : ∀ a, x = .ok a → f a = g a) :
    (x >>= f) = (x >>= g) := by
  cases x with
  | ok a => exact h a rfl
  | err e => rfl
  | panic => rfl

/-- Every error the computation can answer satisfies `P`. -/
def Errs (P : ε → Prop) (x : Outcome ε α) : Prop := ∀ e, x = .err e → P e

variable {P : ε → Prop}

theorem errs_ok (a : α) : Errs P (.ok a : Outcome ε α) := by
  intro e h
  cases h

theorem errs_err {e : ε} (h : P e) : Errs P (.err e : Outcome ε α) := by
  intro e' he
  cases he
  exact h

theorem Errs.bind {x : Outcome ε α} {f : α → Outcome ε β} (hx : Errs P x)
    (hf : ∀ a, Errs P (f a)) : Errs P (x >>= f) := by
  intro e h
  rcases bind_eq_err.mp h with h | ⟨a, -, h⟩
  · exact hx e h
  · exact hf a e h

/-- The computation does not panic, and every error it can answer satisfies `P`. -/
def Answers (P : ε → Prop) (x : Outcome ε α) : Prop := x ≠ .panic ∧ Errs P x

theorem answers_ok (a : α) : Answers P (.ok a : Outcome ε α) := 
  ⟨fun h => (by cases h), errs_ok a⟩

theorem answers_err {e : ε} (h : P e) : Answers P (.err e : Outcome ε α) := 
  ⟨fun h => (by cases h), errs_err h⟩

theorem Answers.bind {x : Outcome ε α} {f : α → Outcome ε β} (hx : Answers P x)
    (hf : ∀ a, Answers P (f a)) : Answers P (x >>= f) := by
  refine ⟨?_, hx.2.bind fun a => (hf a).2⟩
  cases x with
  | ok a => exact (hf a).1
  | err e =>
    intro h
    cases h
  | panic => exact absurd rfl hx.1

/-- A computation that does not panic answers an error unless it returns a value. -/
theorem Answers.eq_err {x : Outcome ε α} (h : Answers P x) (hok : ¬ ∃ a, x = .ok a) :
    ∃ e, x = .err e := by
  cases x with
  | ok a => exact absurd ⟨a, rfl⟩ hok
  | err e => exact ⟨e, rfl⟩
  | panic => exact absurd rfl h.1

/-- The same result, up to the text of an error. -/
def Alike (x y : Outcome ε α) : Prop := x = y ∨ (∃ e, x = .err e) ∧ ∃ e, y = .err e

theorem alike_iff_of_err {x y : Outcome ε α} (hx : ∃ e, x = .err e) :
    Alike x y ↔ ∃ e, y = .err e := by
  constructor
  · rintro (rfl | ⟨-, hy⟩)
    · exact hx
    · exact hy
  · exact fun hy => .inr ⟨hx, hy⟩

end Bind

@[simp] theorem ofChecked_some (a : α) : (ofChecked (some a) : Outcome ε α) = .ok a := rfl
@[simp] theorem ofChecked_none : (ofChecked (none : Option α) : Outcome ε α) = .panic := rfl

theorem ofChecked_eq_ok {x : Option α} {a : α} :
    (ofChecked x : Outcome ε α) = .ok a ↔ x = some a := by
  cases x <;> simp

theorem errs_ofChecked {P : ε → Prop} (x : Option α) : Errs P (ofChecked x : Outcome ε α) := by
  intro e h
  cases x <;> cases h

end Outcome

end Lib
