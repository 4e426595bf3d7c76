-- SUMMARY: Values with deadlines: what is visible at a time, and maps that drop what is not.
import InMemoryCache.Lib.Table
import Mathlib.Order.Lattice

/-!
# Leases

A leased value carries an optional deadline and is live before it. A store may drop a
value whose deadline has passed at once, or keep it and look through it; `visible` is
what is left either way. What a lazy store makes visible later does not depend on
whether it dropped or kept what had already expired.
-/

namespace Lib

/-- A value with an optional deadline. -/
structure Leased (ν τ : Type) where
  value : ν
  deadline : Option τ
  deriving DecidableEq, Repr

variable {κ ν τ : Type} [LinearOrder τ]

namespace Leased

def live (now : τ) (x : Leased ν τ) : Bool := x.deadline.all fun d => decide (now < d)

theorem live_of_le {t t' : τ} (h : t ≤ t') {x : Leased ν τ} (hx : x.live t' = true) :
    x.live t = true := by
  rw [live, Option.all_eq_true] at hx ⊢
  exact fun d hd => decide_eq_true (lt_of_le_of_lt h (of_decide_eq_true (hx d hd)))

/-- What a slot shows at a time: its value unless the deadline has passed. -/
def visible (now : τ) (s : Option (Leased ν τ)) : Option (Leased ν τ) := s.filter fun x => x.live now

@[simp] theorem visible_none (now : τ) : visible now (none : Option (Leased ν τ)) = none := rfl

theorem visible_of_live {now : τ} {x : Leased ν τ} (h : x.live now = true) :
    visible now (some x) = some x := by
  rw [visible, Option.filter_some_pos h]

theorem visible_of_not_live {now : τ} {x : Leased ν τ} (h : x.live now = false) :
    visible now (some x) = none := by
  rw [visible, Option.filter_some_neg (by simp [h])]

/-- What was invisible before stays so. -/
theorem visible_visible {t t' : τ} (h : t ≤ t') (s : Option (Leased ν τ)) :
    visible t' (visible t s) = visible t' s := by
  cases s with
  | none => rfl
  | some x =>
    cases hx : x.live t with
    | true => rw [visible_of_live hx]
    | false =>
      have hx' : x.live t' = false := by
        cases hl : x.live t' with
        | false => rfl
        | true => rw [live_of_le h hl] at hx; cases hx
      rw [visible_of_not_live hx, visible_of_not_live hx', visible_none]

theorem visible_congr {t t' : τ} (h : t ≤ t') {s s' : Option (Leased ν τ)}
    (hs : visible t s = visible t s') : visible t' s = visible t' s' := by
  rw [← visible_visible h s, hs, visible_visible h]

/-! ## Eager maps -/

variable [DecidableEq κ]

/-- Drop every expired value. -/
def sweep (now : τ) (m : Table κ (Leased ν τ)) : Table κ (Leased ν τ) :=
  m.filter fun _ x => x.live now

theorem get?_sweep (now : τ) (m : Table κ (Leased ν τ)) (k : κ) :
    (sweep now m).get? k = visible now (m.get? k) := by
  rw [sweep, Table.get?_filter, visible]

end Leased

end Lib
