-- SUMMARY: A journal whose entries are recorded first and applied later, possibly out of order.
import Mathlib.Logic.Basic

/-!
# Journals

Every entry of a journal is recorded and, some time later, applied to a state. Recorded
entries that are still pending may be applied in another order than they were recorded
in. As long as an entry overtakes only entries it commutes with, applying what is pending
in the recorded order completes the log, so a journal with nothing pending is in the
state its log describes. All this holds up to a congruence, which says when two states
count as the same.
-/

namespace Lib

variable {α σ : Type}

/-- Apply entries one after the other. -/
def actAll (act : α → σ → σ) (s : σ) (as : List α) : σ := as.foldl (fun s a => act a s) s

/-- An equivalence of states that every entry respects. -/
structure Congruence (act : α → σ → σ) (r : σ → σ → Prop) : Prop where
  equivalence : Equivalence r
  congr : ∀ a {s t}, r s t → r (act a s) (act a t)

/-- The order in which two entries are applied does not matter. -/
def Commutes (act : α → σ → σ) (r : σ → σ → Prop) (a b : α) : Prop :=
  ∀ s, r (act a (act b s)) (act b (act a s))

variable {act : α → σ → σ} {r : σ → σ → Prop}

theorem actAll_append (s : σ) (as bs : List α) :
    actAll act s (as ++ bs) = actAll act (actAll act s as) bs :=
  List.foldl_append

theorem Congruence.actAll (h : Congruence act r) {s t : σ} (hst : r s t) (as : List α) :
    r (actAll act s as) (actAll act t as) := by
  induction as generalizing s t with
  | nil => exact hst
  | cons a as ih => exact ih (h.congr a hst)

/-- An entry may overtake entries it commutes with. -/
theorem Congruence.overtake (h : Congruence act r) {a : α} {bs : List α}
    (hcommutes : ∀ b ∈ bs, Commutes act r a b) (s : σ) (cs : List α) :
    r (Lib.actAll act s (bs ++ a :: cs)) (Lib.actAll act (act a s) (bs ++ cs)) := by
  induction bs generalizing s with
  | nil => exact h.equivalence.refl _
  | cons b bs ih =>
    have hrest := ih (fun c hc => hcommutes c (List.mem_cons_of_mem b hc)) (act b s)
    have hswap := h.actAll (hcommutes b List.mem_cons_self s) (bs ++ cs)
    exact h.equivalence.trans hrest hswap

structure Journal (α σ : Type) where
  log : List α
  pending : List α
  state : σ

namespace Journal

/-- Applying what is pending in its recorded order completes the log. -/
def Complete (act : α → σ → σ) (r : σ → σ → Prop) (init : σ) (j : Journal α σ) : Prop :=
  r (actAll act j.state j.pending) (actAll act init j.log)

variable {init : σ} {j : Journal α σ}

theorem Complete.record (hr : Congruence act r) (h : j.Complete act r init) (a : α) :
    Complete act r init { j with log := j.log ++ [a], pending := j.pending ++ [a] } := by
  rw [Complete, actAll_append, actAll_append]
  exact hr.congr a h

theorem Complete.apply (hr : Congruence act r) {bs cs : List α} {a : α}
    (h : j.Complete act r init) (hpending : j.pending = bs ++ a :: cs)
    (hcommutes : ∀ b ∈ bs, Commutes act r a b) :
    Complete act r init { j with pending := bs ++ cs, state := act a j.state } := by
  rw [Complete, hpending] at h
  exact hr.equivalence.trans (hr.equivalence.symm (hr.overtake hcommutes j.state cs)) h

theorem Complete.state (h : j.Complete act r init) (hpending : j.pending = []) :
    r j.state (actAll act init j.log) := by
  rw [Complete, hpending] at h
  exact h

end Journal

end Lib
