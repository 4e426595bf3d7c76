-- SUMMARY: Quantities of a shared state that are what the threads and their results weigh.
import InMemoryCache.Lib.Sections
import Mathlib.Algebra.BigOperators.Ring.Finset
import Mathlib.Algebra.Order.BigOperators.Group.Finset
import Mathlib.Data.Set.Card
import Mathlib.Tactic.Abel

/-!
# Books

A section that changes a quantity of the shared state changes by as much what its task weighs,
or leaves it to the result. The quantity is then, in every state, what the tasks under way and
the results returned weigh together (`balanced`).
-/

namespace Lib

variable {σ τ ι ρ δ : Type}

namespace Threads

-- ---------------------------------------------------------------------------
-- The threads that take part
-- ---------------------------------------------------------------------------

/-- The thread that takes an event. -/
def Event.thread : Event ι δ → Nat
  | .call t _ | .step t _ => t

theorem exists_thread_lt (es : List (Event ι δ)) : ∃ n, ∀ e ∈ es, e.thread < n := by
  induction es with
  | nil => exact ⟨0, List.forall_mem_nil _⟩
  | cons e es ih =>
    obtain ⟨n, hn⟩ := ih
    refine ⟨max n (e.thread + 1), List.forall_mem_cons.mpr ⟨?_, fun e' he' => ?_⟩⟩
    · exact lt_max_of_lt_right (Nat.lt_succ_self _)
    · exact lt_max_of_lt_left (hn e' he')

/-- An event changes its own thread only. -/
theorem running_perform_thread_ne (m : Sections σ τ ι ρ δ) (s : Threads σ τ ι ρ) {e : Event ι δ}
    {t : Nat} (ht : t ≠ e.thread) : (s.perform m e).running t = s.running t := by
  cases e with
  | call t' i =>
    rw [perform]
    split
    · exact Function.update_of_ne ht _ _
    · rfl
  | step t' d =>
    rw [perform]
    cases s.running t' with
    | none => rfl
    | some task =>
      dsimp only
      cases m.step d s.shared task with
      | mk shared next => cases next <;> exact Function.update_of_ne ht _ _

/-- Threads that take no event run nothing. -/
theorem running_eq_none_of_thread_lt {m : Sections σ τ ι ρ δ} {x : σ} {es : List (Event ι δ)}
    {n t : Nat} (hes : ∀ e ∈ es, e.thread < n) (ht : n ≤ t) :
    (runAll (perform m) (start x) es).running t = none := by
  refine (allowed_of_forall hes).invariant (I := fun s : Threads σ τ ι ρ => s.running t = none)
    (fun s e hs he => ?_) rfl
  rw [running_perform_thread_ne m s (he.trans_le ht).ne']
  exact hs

-- ---------------------------------------------------------------------------
-- Books
-- ---------------------------------------------------------------------------

section Weights

variable {M : Type} [AddCommMonoid M]

/-- What tasks under way weigh together. -/
def weight (w : τ → M) (n : Nat) (running : Nat → Option τ) : M :=
  ∑ t ∈ Finset.range n, (running t).elim 0 w

/-- What the results returned weigh together. -/
def returned (c : ρ → M) (trace : List (Nat × (ι ⊕ ρ))) : M :=
  (trace.map fun e => e.2.elim (fun _ => 0) c).sum

theorem weight_update (w : τ → M) {n : Nat} (running : Nat → Option τ) {t : Nat} (ht : t < n)
    (next : Option τ) : weight w n (Function.update running t next) + (running t).elim 0 w =
      weight w n running + next.elim 0 w := by
  have hmem := Finset.mem_range.mpr ht
  have hrest : ∀ t' ∈ (Finset.range n).erase t,
      (Function.update running t next t').elim 0 w = (running t').elim 0 w :=
    fun t' ht' => by rw [Function.update_of_ne (Finset.ne_of_mem_erase ht')]
  rw [weight, weight, ← Finset.add_sum_erase _ _ hmem,
    ← Finset.add_sum_erase _ (fun t => (running t).elim 0 w) hmem, Finset.sum_congr rfl hrest,
    Function.update_self]
  abel

theorem weight_add (w w' : τ → M) (n : Nat) (running : Nat → Option τ) :
    weight (fun task => w task + w' task) n running = weight w n running + weight w' n running := by
  rw [weight, weight, weight, ← Finset.sum_add_distrib]
  refine Finset.sum_congr rfl fun t _ => ?_
  cases running t with
  | none => exact (add_zero 0).symm
  | some task => rfl

theorem returned_append (c : ρ → M) (trace more : List (Nat × (ι ⊕ ρ))) :
    returned c (trace ++ more) = returned c trace + returned c more := by
  rw [returned, returned, returned, List.map_append, List.sum_append]

theorem returned_singleton (c : ρ → M) (t : Nat) (v : ι ⊕ ρ) :
    returned c [(t, v)] = v.elim (fun _ => 0) c := by
  rw [returned, List.map_singleton, List.sum_singleton]

end Weights

section Books

variable {M : Type} [AddCommGroup M]

/-- A quantity of the shared state is what the tasks and the results weigh, if calls weigh
nothing at first and every section changes the quantity by what it changes the weight. -/
theorem balanced_of {m : Sections σ τ ι ρ δ} {q : σ → M} {w : τ → M} {c : ρ → M} {n : Nat} {x : σ}
    (henter : ∀ i, w (m.enter i) = 0)
    (hstep : ∀ (s : Threads σ τ ι ρ) (t : Nat) (d : δ) (task : τ), s.running t = some task → t < n →
      q s.shared = q x + weight w n s.running + returned c s.trace →
      q (m.step d s.shared task).1 + w task = q s.shared + (m.step d s.shared task).2.elim w c)
    {es : List (Event ι δ)} (hes : ∀ e ∈ es, e.thread < n) :
    q (runAll (perform m) (start x) es).shared =
      q x + weight w n (runAll (perform m) (start x) es).running +
        returned c (runAll (perform m) (start x) es).trace := by
  refine (allowed_of_forall hes).invariant
    (I := fun s : Threads σ τ ι ρ => q s.shared = q x + weight w n s.running + returned c s.trace)
    (fun s e hs he => ?_) ?_
  · cases e with
    | call t i =>
      rw [perform]
      cases hrunning : s.running t with
      | some task => exact hs
      | none =>
        have hweight := weight_update w s.running he (some (m.enter i))
        rw [Event.thread, hrunning, Option.elim_none, Option.elim_some, henter, add_zero,
          add_zero] at hweight
        dsimp only
        rw [hweight, returned_append, returned_singleton, hs, Sum.elim_inl, add_zero]
    | step t d =>
      rw [perform]
      cases hrunning : s.running t with
      | none => exact hs
      | some task =>
        have hbooks := hstep s t d task hrunning he hs
        dsimp only
        cases hnext : m.step d s.shared task with
        | mk shared next =>
          rw [hnext] at hbooks
          cases next with
          | inl next =>
            have hweight := weight_update w s.running he (some next)
            rw [Event.thread, hrunning, Option.elim_some, Option.elim_some] at hweight
            rw [Sum.elim_inl] at hbooks
            dsimp only
            rw [eq_sub_of_add_eq hbooks, hs, eq_sub_of_add_eq hweight]
            abel
          | inr r =>
            have hweight := weight_update w s.running he none
            rw [Event.thread, hrunning, Option.elim_some, Option.elim_none, add_zero] at hweight
            rw [Sum.elim_inr] at hbooks
            dsimp only
            rw [eq_sub_of_add_eq hbooks, hs, eq_sub_of_add_eq hweight, returned_append,
              returned_singleton, Sum.elim_inr]
            abel
  · simp [start, weight, returned]

/-- The same, of sections that are right about any state. -/
theorem balanced {m : Sections σ τ ι ρ δ} {q : σ → M} {w : τ → M} {c : ρ → M} {n : Nat}
    (henter : ∀ i, w (m.enter i) = 0)
    (hstep : ∀ d x task,
      q (m.step d x task).1 + w task = q x + (m.step d x task).2.elim w c)
    {es : List (Event ι δ)} (hes : ∀ e ∈ es, e.thread < n) (x : σ) :
    q (runAll (perform m) (start x) es).shared =
      q x + weight w n (runAll (perform m) (start x) es).running +
        returned c (runAll (perform m) (start x) es).trace :=
  balanced_of henter (fun s _ d task _ _ _ => hstep d s.shared task) hes

end Books

-- ---------------------------------------------------------------------------
-- Counting
-- ---------------------------------------------------------------------------

/-- The threads in a task that `p` picks. -/
def those (p : τ → Bool) (running : Nat → Option τ) : Set Nat := {t | (running t).any p = true}

section Counts

variable {running : Nat → Option τ} {n : Nat}

theorem those_finite (hn : ∀ t, n ≤ t → running t = none) (p : τ → Bool) :
    (those p running).Finite := by
  refine (Finset.range n).finite_toSet.subset fun t ht => ?_
  rw [Finset.mem_coe, Finset.mem_range]
  refine Nat.lt_of_not_le fun hle => ?_
  change (running t).any p = true at ht
  rw [hn t hle] at ht
  cases ht

theorem those_mono (p q : τ → Bool) (hpq : ∀ task, p task = true → q task = true) :
    those p running ⊆ those q running := by
  intro t ht
  obtain ⟨task, htask, hp⟩ := (Option.any_eq_true p _).mp ht
  exact (Option.any_eq_true q _).mpr ⟨task, htask, hpq task hp⟩

theorem those_eq_empty (hidle : ∀ t, running t = none) (p : τ → Bool) : those p running = ∅ := by
  refine Set.eq_empty_iff_forall_notMem.mpr fun t ht => ?_
  change (running t).any p = true at ht
  rw [hidle t] at ht
  cases ht

variable (M : Type) [Ring M]

/-- A finite number of threads is counted by adding up. -/
theorem weight_eq_ncard (hn : ∀ t, n ≤ t → running t = none) (p : τ → Bool) :
    weight (fun task => if p task then (1 : M) else 0) n running =
      ((those p running).ncard : M) := by
  have hthose : those p running =
      ((Finset.range n).filter fun t => (running t).any p = true : Finset Nat) := by
    ext t
    rw [Finset.coe_filter, Set.mem_ofPred_eq, Finset.mem_range]
    refine ⟨fun ht => ⟨Nat.lt_of_not_le fun hle => ?_, ht⟩, fun ht => ht.2⟩
    change (running t).any p = true at ht
    rw [hn t hle] at ht
    cases ht
  rw [hthose, Set.ncard_coe_finset, Finset.card_filter, Nat.cast_sum, weight]
  refine Finset.sum_congr rfl fun t _ => ?_
  cases running t with
  | none => simp
  | some task => simp

omit [Ring M] in
theorem weight_toNat (hn : ∀ t, n ≤ t → running t = none) (p : τ → Bool) :
    weight (fun task => (p task).toNat) n running = (those p running).ncard := by
  have h := weight_eq_ncard Int hn p
  rw [weight] at h
  refine Int.ofNat_inj.mp (Eq.trans ?_ h)
  rw [weight, Nat.cast_sum]
  refine Finset.sum_congr rfl fun t _ => ?_
  cases running t with
  | none => rfl
  | some task => cases hp : p task <;> simp [hp]

/-- What the results add up to. -/
def total (c : ρ → Nat) (trace : List (Nat × (ι ⊕ ρ))) : Nat :=
  (trace.map fun e => e.2.elim (fun _ => 0) c).sum

theorem total_mono (c : ρ → Nat) {trace trace' : List (Nat × (ι ⊕ ρ))}
    (h : trace <+: trace') : total c trace ≤ total c trace' := by
  obtain ⟨more, rfl⟩ := h
  rw [total, total, List.map_append, List.sum_append]
  exact Nat.le_add_right _ _

theorem returned_eq_total (c : ρ → Nat) (trace : List (Nat × (ι ⊕ ρ))) :
    returned (fun r => (c r : M)) trace = (total c trace : M) := by
  rw [returned, total, Nat.cast_list_sum, List.map_map]
  refine congrArg List.sum (List.map_congr_left fun e _ => ?_)
  obtain ⟨t, i | r⟩ := e
  · simp
  · rfl

variable {M} {m : Sections σ τ ι ρ δ} {q : σ → M} {c : ρ → Nat}

/-- A quantity that counts the threads in some tasks, and the results. -/
theorem counted {p : τ → Bool} (henter : ∀ i, p (m.enter i) = false)
    (hstep : ∀ d x task, q (m.step d x task).1 + (if p task then 1 else 0) =
      q x + (m.step d x task).2.elim (fun task => if p task then 1 else 0) fun r => (c r : M))
    (es : List (Event ι δ)) (x : σ) :
    q (runAll (perform m) (start x) es).shared =
      q x + ((those p (runAll (perform m) (start x) es).running).ncard : M) +
        (total c (runAll (perform m) (start x) es).trace : M) := by
  obtain ⟨n, hn⟩ := exists_thread_lt es
  rw [← weight_eq_ncard M (fun t ht => running_eq_none_of_thread_lt hn ht), ← returned_eq_total]
  exact balanced (fun i => by rw [henter i]; rfl) hstep hn x

/-- Once no thread runs, a quantity is what the results weigh. -/
theorem settled {w : τ → M} (henter : ∀ i, w (m.enter i) = 0)
    (hstep : ∀ d x task,
      q (m.step d x task).1 + w task = q x + (m.step d x task).2.elim w fun r => (c r : M))
    {es : List (Event ι δ)} {x : σ}
    (hidle : ∀ t, (runAll (perform m) (start x) es).running t = none) :
    q (runAll (perform m) (start x) es).shared =
      q x + (total c (runAll (perform m) (start x) es).trace : M) := by
  obtain ⟨n, hn⟩ := exists_thread_lt es
  have hweight : weight w n (runAll (perform m) (start x) es).running = 0 :=
    Finset.sum_eq_zero fun t _ => by rw [hidle t]; rfl
  rw [balanced henter hstep hn x, hweight, add_zero, returned_eq_total]

/-- What tasks weigh of a quantity that is nothing at first can be taken off it. -/
theorem weighed {q : σ → Nat} {w : τ → Nat} {x : σ} (hx : q x = 0) (henter : ∀ i, w (m.enter i) = 0)
    (hstep : ∀ d x task, w task ≤ q x →
      q (m.step d x task).1 + w task = q x + (m.step d x task).2.elim w fun _ => 0)
    (es : List (Event ι δ)) : ∃ n, (∀ e ∈ es, e.thread < n) ∧
      q (runAll (perform m) (start x) es).shared =
        weight w n (runAll (perform m) (start x) es).running := by
  obtain ⟨n, hn⟩ := exists_thread_lt es
  have hweight : ∀ running : Nat → Option τ, weight (fun task => (w task : Int)) n running =
      (weight w n running : Nat) := by
    intro running
    rw [weight, weight, Nat.cast_sum]
    refine Finset.sum_congr rfl fun t _ => ?_
    cases running t <;> rfl
  have hreturned : ∀ trace : List (Nat × (ι ⊕ ρ)), returned (fun _ => (0 : Int)) trace = 0 := by
    intro trace
    refine List.sum_eq_zero fun y hy => ?_
    obtain ⟨e, -, rfl⟩ := List.mem_map.mp hy
    cases e.2 <;> rfl
  have hbooks := balanced_of (m := m) (q := fun s => (q s : Int)) (w := fun task => (w task : Int))
    (c := fun _ => 0) (x := x) (fun i => by rw [henter i]; rfl)
    (fun s t d task hrunning ht hs => by
      -- the task's weight is part of the sum
      rw [hweight, hreturned, hx] at hs
      have hle : w task ≤ weight w n s.running := by
        have hsingle := Finset.single_le_sum (f := fun t => (s.running t).elim 0 w)
          (fun _ _ => Nat.zero_le _) (Finset.mem_range.mpr ht)
        rwa [hrunning] at hsingle
      have hq : q s.shared = weight w n s.running := by
        have hzero : ((q s.shared : Nat) : Int) = 0 + ((_ : Nat) : Int) + 0 := hs
        omega
      have hstep := hstep d s.shared task (hq ▸ hle)
      cases hnext : (m.step d s.shared task).2 with
      | inl next | inr r =>
        rw [hnext] at hstep
        exact congrArg Nat.cast hstep) hn
  rw [hweight, hreturned, hx] at hbooks
  refine ⟨n, hn, Int.ofNat_inj.mp (hbooks.trans ?_)⟩
  rw [Nat.cast_zero, zero_add, add_zero]

theorem finite_those (m : Sections σ τ ι ρ δ) (x : σ) (es : List (Event ι δ)) (p : τ → Bool) :
    (those p (runAll (perform m) (start x) es).running).Finite := by
  obtain ⟨n, hn⟩ := exists_thread_lt es
  exact those_finite (fun t ht => running_eq_none_of_thread_lt hn ht) p

end Counts

-- ---------------------------------------------------------------------------
-- Room
-- ---------------------------------------------------------------------------

section Room

variable {m : Sections σ τ ι ρ δ} {q : σ → Nat} {w : τ → Nat} {n limit bound : Nat}
  {s : Threads σ τ ι ρ}

/-- The threads but one weigh at most their number times what one may weigh. -/
theorem weight_others_le {running : Nat → Option τ} {t : Nat} (ht : t < n)
    (hw : ∀ t task, running t = some task → w task ≤ bound) :
    weight w n (Function.update running t none) ≤ (n - 1) * bound := by
  rw [weight, ← Finset.add_sum_erase _ _ (Finset.mem_range.mpr ht), Function.update_self,
    Option.elim_none, Nat.zero_add]
  refine (Finset.sum_le_card_nsmul _ _ bound fun t' ht' => ?_).trans ?_
  · rw [Function.update_of_ne (Finset.ne_of_mem_erase ht')]
    cases hrunning : running t' with
    | none => exact Nat.zero_le _
    | some task => exact hw t' task hrunning
  · rw [Finset.card_erase_of_mem (Finset.mem_range.mpr ht), Finset.card_range,
      Nat.nsmul_eq_mul]

/-- A quantity, with what the tasks may still add to it, exceeds its limit by what all threads
but one may add, and by no more. -/
def Within (q : σ → Nat) (w : τ → Nat) (n limit bound : Nat) (s : Threads σ τ ι ρ) : Prop :=
  q s.shared + weight w n s.running ≤ limit + (n - 1) * bound

theorem within_start {x : σ} (hx : q x ≤ limit) :
    (start x : Threads σ τ ι ρ).Within q w n limit bound := by
  have hidle : weight w n (fun _ => (none : Option τ)) = 0 := Finset.sum_eq_zero fun _ _ => rfl
  show q x + weight w n (fun _ => none) ≤ _
  rw [hidle]
  omega

theorem Within.call (hs : s.Within q w n limit bound) (henter : ∀ i, w (m.enter i) = 0) {t : Nat}
    (ht : t < n) (i : ι) : (s.perform m (.call t i)).Within q w n limit bound := by
  rw [perform]
  cases hrunning : s.running t with
  | some task => exact hs
  | none =>
    have hweight := weight_update w s.running ht (some (m.enter i))
    rw [hrunning, Option.elim_none, Option.elim_some, henter, add_zero, add_zero] at hweight
    show q s.shared + weight w n (Function.update s.running t _) ≤ _
    rw [hweight]
    exact hs

/-- A section adds what its task was to add, or has seen that what it is to add fits. -/
theorem Within.step (hs : s.Within q w n limit bound)
    (hw : ∀ t task, s.running t = some task → w task ≤ bound) {t : Nat} (ht : t < n) (d : δ)
    (hstep : ∀ task, s.running t = some task →
      q (m.step d s.shared task).1 + (m.step d s.shared task).2.elim w (fun _ => 0) ≤
          q s.shared + w task ∨
        q (m.step d s.shared task).1 + (m.step d s.shared task).2.elim w (fun _ => 0) ≤ limit) :
    (s.perform m (.step t d)).Within q w n limit bound := by
  cases hrunning : s.running t with
  | none =>
    rw [perform, hrunning]
    exact hs
  | some task =>
    have hshared : (s.perform m (.step t d)).shared = (m.step d s.shared task).1 := by
      rw [shared_perform_step, hrunning, Option.elim_some]
    have hadds := hstep task hrunning
    have hnext : ((m.step d s.shared task).2.elim some fun _ => none).elim 0 w =
        (m.step d s.shared task).2.elim w fun _ => 0 := by
      cases (m.step d s.shared task).2 <;> rfl
    have hothers := weight_others_le ht hw
    have hbefore := weight_update w s.running ht none
    have hafter := weight_update w s.running ht ((m.step d s.shared task).2.elim some fun _ => none)
    rw [hrunning, Option.elim_some] at hbefore hafter
    rw [Option.elim_none] at hbefore
    rw [hnext] at hafter
    rw [Within, hshared, running_perform_step hrunning]
    rw [Within] at hs
    rcases hadds with hadds | hadds <;> omega

end Room

end Threads

end Lib
