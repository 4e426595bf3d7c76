-- SUMMARY: A register that threads raise to a maximum by compare-and-exchange.
import Mathlib.Order.Lattice

/-!
# Raising a register

A thread raises a register to its own value: it loads the register, and while what it saw is
lower it tries to exchange it. An exchange fails if the register has changed, or for no reason.
Every access leaves the register or raises it to the value, and the last one leaves it at or
above the value.
-/

namespace Lib

variable {α : Type}

/-- Where a thread stands that raises a register to `x`. -/
inductive Raise (α : Type) where
  | load (x : α)
  | exchange (x seen : α)

namespace Raise

def target : Raise α → α
  | .load x | .exchange x _ => x

variable [LinearOrder α]

/-- What was seen is high enough, or is to be exchanged. -/
def look (x actual : α) : Option (Raise α) :=
  if actual < x then some (.exchange x actual) else none

/-- The next access. `weak` is an exchange that fails for no reason. -/
def step (weak : Bool) (r : α) : Raise α → α × Option (Raise α)
  | .load x => (r, look x r)
  | .exchange x seen => if r = seen ∧ weak = false then (x, none) else (r, look x r)

/-- An exchange is for something lower. -/
def Proper : Raise α → Prop
  | .load _ => True
  | .exchange x seen => seen < x

variable {x r : α} {weak : Bool} {a b : Raise α}

theorem look_eq_none (h : look x r = none) : x ≤ r := by
  rw [look] at h
  split at h
  · cases h
  · rename_i hle
    exact not_lt.mp hle

theorem look_eq_some (h : look x r = some b) : b.target = x ∧ b.Proper := by
  rw [look] at h
  split at h
  · rename_i hlt
    cases h
    exact ⟨rfl, hlt⟩
  · cases h

/-- An access that is not the last leaves the register as it was. -/
theorem step_some (h : (step weak r a).2 = some b) :
    (step weak r a).1 = r ∧ b.target = a.target ∧ b.Proper := by
  cases a with
  | load x => exact ⟨rfl, look_eq_some h⟩
  | exchange x seen =>
    rw [step] at h ⊢
    split at h
    · cases h
    · rename_i hfail
      rw [if_neg hfail]
      exact ⟨rfl, look_eq_some h⟩

/-- The last one leaves it at or above the value, and lowers nothing. -/
theorem step_none (ha : a.Proper) (h : (step weak r a).2 = none) :
    a.target ≤ (step weak r a).1 ∧ r ≤ (step weak r a).1 ∧
      ((step weak r a).1 = r ∨ (step weak r a).1 = a.target) := by
  cases a with
  | load x => exact ⟨look_eq_none h, le_rfl, .inl rfl⟩
  | exchange x seen =>
    rw [step] at h ⊢
    split at h
    · rename_i hswap
      rw [if_pos hswap]
      exact ⟨le_rfl, hswap.1 ▸ le_of_lt ha, .inr rfl⟩
    · rename_i hfail
      rw [if_neg hfail]
      exact ⟨look_eq_none h, le_rfl, .inl rfl⟩

end Raise

end Lib
