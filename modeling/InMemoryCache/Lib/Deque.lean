-- SUMMARY: Double-ended queues as sequences, what a run returns, and contiguous ranges of them.
import Mathlib.Data.List.Perm.Basic
import Mathlib.Data.List.Induction
import Mathlib.Tactic.Common

/-!
# Double-ended queues

A deque is a sequence. Pushing several elements pushes one after the other, so pushing at
the front reverses them. Over a run nothing gets lost or duplicated: what was there and
what was pushed is what was popped and what is left (`perm_run`).
-/

namespace Lib.Deque

variable {α : Type u}

inductive Op (α : Type u) where
  | pushFront (xs : List α)
  | pushBack (xs : List α)
  | popFront
  | popBack

/-- A push returns the new length, a pop the element it took. -/
inductive Reply (α : Type u) where
  | length (n : Nat)
  | popped (x : Option α)

def step (l : List α) : Op α → Reply α × List α
  | .pushFront xs => (.length (xs.reverse ++ l).length, xs.reverse ++ l)
  | .pushBack xs => (.length (l ++ xs).length, l ++ xs)
  | .popFront => (.popped l.head?, l.tail)
  | .popBack => (.popped l.getLast?, l.dropLast)

/-- The replies of a run, and the sequence it leaves. -/
def run (l : List α) : List (Op α) → List (Reply α) × List α
  | [] => ([], l)
  | op :: ops => ((step l op).1 :: (run (step l op).2 ops).1, (run (step l op).2 ops).2)

theorem run_append (l : List α) (ops ops' : List (Op α)) :
    run l (ops ++ ops') = ((run l ops).1 ++ (run (run l ops).2 ops').1, (run (run l ops).2 ops').2) := by
  induction ops generalizing l with
  | nil => rfl
  | cons op ops ih =>
    rw [List.cons_append, run, ih]
    rfl

/-! ## Conservation -/

def Op.pushed : Op α → List α
  | .pushFront xs | .pushBack xs => xs
  | _ => []

def Reply.taken : Reply α → List α
  | .popped (some x) => [x]
  | _ => []

theorem perm_step (l : List α) (op : Op α) :
    (op.pushed ++ l).Perm ((step l op).1.taken ++ (step l op).2) := by
  cases op with
  | pushFront xs => exact (List.reverse_perm xs).symm.append_right l
  | pushBack xs => exact List.perm_append_comm
  | popFront =>
    cases l with
    | nil => exact .refl _
    | cons x l => exact .refl _
  | popBack =>
    cases l using List.reverseRecOn with
    | nil => exact .refl _
    | append_singleton l x =>
      rw [step, List.getLast?_concat, List.dropLast_concat]
      show (l ++ [x]).Perm ([x] ++ l)
      exact List.perm_append_comm

/-- Nothing is lost and nothing is duplicated. -/
theorem perm_run (l : List α) (ops : List (Op α)) :
    (ops.flatMap Op.pushed ++ l).Perm ((run l ops).1.flatMap Reply.taken ++ (run l ops).2) := by
  induction ops generalizing l with
  | nil => exact .refl _
  | cons op ops ih =>
    rw [List.flatMap_cons, run, List.flatMap_cons, List.append_assoc, List.append_assoc]
    calc
      List.Perm _ (ops.flatMap Op.pushed ++ (op.pushed ++ l)) := List.perm_append_comm_assoc _ _ _
      List.Perm _ (ops.flatMap Op.pushed ++ ((step l op).1.taken ++ (step l op).2)) :=
        (perm_step l op).append_left _
      List.Perm _ ((step l op).1.taken ++ (ops.flatMap Op.pushed ++ (step l op).2)) :=
        List.perm_append_comm_assoc _ _ _
      List.Perm _ ((step l op).1.taken ++ ((run (step l op).2 ops).1.flatMap Reply.taken ++
          (run (step l op).2 ops).2)) := (ih _).append_left _

/-! ## Queues -/

/-- The operations of a queue that grows at its front. -/
def Op.queues : Op α → Bool
  | .pushFront _ | .popBack => true
  | _ => false

theorem queue_step (l : List α) {op : Op α} (hop : op.queues = true) :
    l.reverse ++ op.pushed = (step l op).1.taken ++ (step l op).2.reverse := by
  cases op with
  | pushFront xs =>
    show _ = (xs.reverse ++ l).reverse
    rw [List.reverse_append, List.reverse_reverse]
    rfl
  | popBack =>
    cases l using List.reverseRecOn with
    | nil => rfl
    | append_singleton l x =>
      rw [step, List.getLast?_concat, List.dropLast_concat, List.reverse_append]
      exact List.append_nil _
  | pushBack | popFront => cases hop

/-- First in, first out: what was there and what was pushed is, in that order, what was popped
and what is left. -/
theorem queue_run (l : List α) {ops : List (Op α)} (hops : ∀ op ∈ ops, op.queues = true) :
    l.reverse ++ ops.flatMap Op.pushed =
      (run l ops).1.flatMap Reply.taken ++ (run l ops).2.reverse := by
  induction ops generalizing l with
  | nil => exact List.append_nil _
  | cons op ops ih =>
    rw [List.flatMap_cons, run, List.flatMap_cons, ← List.append_assoc,
      queue_step l (hops op List.mem_cons_self), List.append_assoc, List.append_assoc,
      ih _ fun op' hop' => hops op' (List.mem_cons_of_mem op hop')]

/-! ## Ranges -/

/-- An index from the front, or from the end if it is negative. -/
def fromEnd (len : Nat) (i : Int) : Int := if i < 0 then len + i else i

/-- The elements at the positions `i` with `s ≤ i ≤ e`. -/
def between (l : List α) (s e : Int) : List α :=
  ((List.range l.length).filter fun i : Nat => decide (s ≤ (i : Int) ∧ (i : Int) ≤ e)).filterMap
    fun i => l[i]?

/-- Bounds select the same elements if they select the same positions. -/
theorem between_congr {l : List α} {s e s' e' : Int}
    (h : ∀ i : Nat, i < l.length → ((s ≤ i ∧ i ≤ e) ↔ (s' ≤ i ∧ i ≤ e'))) :
    between l s e = between l s' e' := by
  have hpositions : (List.range l.length).filter (fun i : Nat => decide (s ≤ (i : Int) ∧ (i : Int) ≤ e)) =
      (List.range l.length).filter fun i : Nat => decide (s' ≤ (i : Int) ∧ (i : Int) ≤ e') :=
    List.filter_congr fun i hi => decide_eq_decide.mpr (h i (List.mem_range.mp hi))
  rw [between, between, hpositions]

theorem between_eq_nil {l : List α} {s e : Int}
    (h : ∀ i : Nat, i < l.length → ¬ (s ≤ i ∧ i ≤ e)) : between l s e = [] := by
  have hnone : (List.range l.length).filter
      (fun i : Nat => decide (s ≤ (i : Int) ∧ (i : Int) ≤ e)) = [] :=
    List.filter_eq_nil_iff.mpr fun i hi =>
      (decide_eq_false (h i (List.mem_range.mp hi))).symm ▸ Bool.false_ne_true
  rw [between, hnone, List.filterMap_nil]

theorem pairwise_lt_ext {l l' : List Nat} (hl : l.Pairwise (· < ·)) (hl' : l'.Pairwise (· < ·))
    (h : ∀ i, i ∈ l ↔ i ∈ l') : l = l' := by
  refine List.Perm.eq_of_pairwise (fun a b _ _ hab hba => absurd hab (Nat.lt_asymm hba)) hl hl' ?_
  exact (List.perm_ext_iff_of_nodup (hl.imp Nat.ne_of_lt) (hl'.imp Nat.ne_of_lt)).mpr h

/-- Within the list the positions follow one another. -/
theorem between_eq {l : List α} {s e : Int} (hs : 0 ≤ s) (he : e < l.length) :
    between l s e = (List.range' s.toNat (e - s + 1).toNat).filterMap fun i => l[i]? := by
  have hpositions : (List.range l.length).filter
      (fun i : Nat => decide (s ≤ (i : Int) ∧ (i : Int) ≤ e)) =
      List.range' s.toNat (e - s + 1).toNat := by
    refine pairwise_lt_ext (List.pairwise_lt_range.filter _) List.pairwise_lt_range' fun i => ?_
    rw [List.mem_filter, List.mem_range, decide_eq_true_iff, List.mem_range'_1]
    omega
  rw [between, hpositions]

end Lib.Deque
