-- SUMMARY: What the steps of a run add to a quantity of the state, and what they take from it.
import InMemoryCache.Lib.Run
import Mathlib.Algebra.BigOperators.Group.List.Basic
import Mathlib.Algebra.GroupWithZero.Nat
import Mathlib.Algebra.Group.Hom.Basic
import Mathlib.Data.List.Induction

/-!
# Ledgers

A quantity of the state is kept in books: every step enters what it adds and what it
takes. If the books balance over each step, they balance over every run.
-/

namespace Lib

variable {σ ε : Type}

/-- The sum of what the steps of a run count. -/
def tally (step : σ → ε → σ) (count : σ → ε → Nat) (s : σ) : List ε → Nat
  | [] => 0
  | e :: es => count s e + tally step count (step s e) es

variable {step : σ → ε → σ} {s : σ}

/-- What depends on the event alone is summed without running. -/
theorem tally_const (count : ε → Nat) (es : List ε) :
    tally step (fun _ e => count e) s es = (es.map count).sum := by
  induction es generalizing s with
  | nil => rfl
  | cons e es ih => rw [tally, ih, List.map_cons, List.sum_cons]

theorem tally_add (f g : σ → ε → Nat) (es : List ε) :
    tally step (fun s e => f s e + g s e) s es = tally step f s es + tally step g s es := by
  induction es generalizing s with
  | nil => rfl
  | cons e es ih =>
    rw [tally, tally, tally, ih]
    omega

/-- A run counts nothing exactly if none of its steps does. -/
theorem tally_eq_zero {count : σ → ε → Nat} {es : List ε} :
    tally step count s es = 0 ↔ Allowed step (fun s e => count s e = 0) s es := by
  induction es generalizing s with
  | nil => exact ⟨fun _ => trivial, fun _ => rfl⟩
  | cons e es ih => rw [tally, Nat.add_eq_zero_iff, Allowed, ih]

theorem tally_append (count : σ → ε → Nat) (es es' : List ε) :
    tally step count s (es ++ es') =
      tally step count s es + tally step count (runAll step s es) es' := by
  induction es generalizing s with
  | nil => exact (Nat.zero_add _).symm
  | cons e es ih =>
    rw [List.cons_append, tally, tally, ih, Nat.add_assoc]
    rfl

/-- A count of at most one a step that is a multiple of `n` after every step is nothing. -/
theorem tally_eq_zero_of_dvd {count : σ → ε → Nat} {n : Nat} (hn : 1 < n)
    (hone : ∀ s e, count s e ≤ 1) (es : List ε)
    (hdvd : ∀ done todo, es = done ++ todo → n ∣ tally step count s done) :
    tally step count s es = 0 := by
  induction es using List.reverseRecOn with
  | nil => rfl
  | append_singleton es e ih =>
    have hzero : tally step count s es = 0 := by
      refine ih fun done todo hes => ?_
      exact hdvd done (todo ++ [e]) (by rw [hes, List.append_assoc])
    have hlast : tally step count s (es ++ [e]) = count (runAll step s es) e := by
      rw [tally_append, hzero]
      exact Nat.zero_add _
    have hlt : count (runAll step s es) e < n := by
      have hle := hone (runAll step s es) e
      omega
    have hwhole := hdvd (es ++ [e]) [] (List.append_nil _).symm
    rw [hlast] at hwhole ⊢
    exact Nat.eq_zero_of_dvd_of_lt hwhole hlt

/-- The ledger rule: a quantity whose books balance over each step balances over a run. The
quantity may be kept in any monoid, into which `f` takes the amounts: a counter that wraps, say. -/
theorem balance_map {M : Type} [AddCommMonoid M] (f : Nat →+ M) {q : σ → M}
    {paid received : σ → ε → Nat}
    (hstep : ∀ s e, q (step s e) + f (paid s e) = q s + f (received s e)) (es : List ε) :
    q (runAll step s es) + f (tally step paid s es) = q s + f (tally step received s es) := by
  induction es generalizing s with
  | nil => rfl
  | cons e es ih =>
    have hrun : q (runAll step s (e :: es)) + f (tally step paid (step s e) es) =
        q (step s e) + f (tally step received (step s e) es) := ih
    calc q (runAll step s (e :: es)) + f (tally step paid s (e :: es))
        = q (runAll step s (e :: es)) + f (tally step paid (step s e) es) + f (paid s e) := by
          rw [tally, map_add, add_assoc, add_comm (f (paid s e))]
      _ = q (step s e) + f (paid s e) + f (tally step received (step s e) es) := by
          rw [hrun, add_right_comm]
      _ = q s + f (tally step received s (e :: es)) := by
          rw [hstep, tally, map_add, add_assoc]

/-- A quantity that steps only add to grows by what the run counts. -/
theorem growth_map {M : Type} [AddCommMonoid M] (f : Nat →+ M) {q : σ → M}
    {received : σ → ε → Nat} (hstep : ∀ s e, q (step s e) = q s + f (received s e))
    (es : List ε) : q (runAll step s es) = q s + f (tally step received s es) := by
  have hbalance : q (runAll step s es) + f (tally step (fun _ _ => 0) s es) =
      q s + f (tally step received s es) :=
    balance_map f (fun s e => by rw [map_zero, add_zero, hstep]) es
  rw [tally_const, List.sum_map_zero, map_zero, add_zero] at hbalance
  exact hbalance

/-- The ledger rule for a quantity that is a number. -/
theorem balance {q : σ → Nat} {paid received : σ → ε → Nat}
    (hstep : ∀ s e, q (step s e) + paid s e = q s + received s e) (es : List ε) :
    q (runAll step s es) + tally step paid s es = q s + tally step received s es :=
  balance_map (AddMonoidHom.id Nat) hstep es

/-- A run is allowed exactly if every step is, in the state that takes it. -/
theorem allowed_iff {ok : σ → ε → Prop} {es : List ε} :
    Allowed step ok s es ↔ ∀ done e todo, es = done ++ e :: todo → ok (runAll step s done) e := by
  constructor
  · rintro h done e todo rfl
    exact (allowed_append.mp h).2.1
  · intro h
    induction es generalizing s with
    | nil => trivial
    | cons e es ih =>
      refine ⟨h [] e es rfl, ih fun done e' todo hes => ?_⟩
      exact h (e :: done) e' todo (by rw [hes, List.cons_append])

end Lib
