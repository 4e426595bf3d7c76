-- SUMMARY: Runs of a step function, and invariants over the runs whose steps are allowed.

/-!
# Runs

A system takes one event after the other. What an allowed event preserves, a run of
allowed events preserves.
-/

namespace Lib

variable {σ ε : Type}

/-- The state after a list of events. -/
def runAll (step : σ → ε → σ) (s : σ) (es : List ε) : σ := es.foldl step s

/-- What the events of a run put out, one after the other. -/
def emitted (step : σ → ε → σ) (out : σ → ε → List β) (s : σ) : List ε → List β
  | [] => []
  | e :: es => out s e ++ emitted step out (step s e) es

/-- Every event of the run is allowed in the state that takes it. -/
def Allowed (step : σ → ε → σ) (ok : σ → ε → Prop) (s : σ) : List ε → Prop
  | [] => True
  | e :: es => ok s e ∧ Allowed step ok (step s e) es

variable {step : σ → ε → σ} {ok : σ → ε → Prop} {s : σ}

theorem runAll_append (es es' : List ε) :
    runAll step s (es ++ es') = runAll step (runAll step s es) es' :=
  List.foldl_append

theorem runAll_range_succ (step : σ → Nat → σ) (s : σ) (n : Nat) :
    runAll step s (List.range (n + 1)) = step (runAll step s (List.range n)) n := by
  rw [List.range_succ, runAll_append]
  rfl

theorem allowed_append {es es' : List ε} :
    Allowed step ok s (es ++ es') ↔ Allowed step ok s es ∧ Allowed step ok (runAll step s es) es' := by
  induction es generalizing s with
  | nil => exact ⟨fun h => ⟨trivial, h⟩, fun h => h.2⟩
  | cons e es ih => exact (and_congr_right fun _ => ih).trans and_assoc.symm

theorem Allowed.and {ok' : σ → ε → Prop} {es : List ε} (h : Allowed step ok s es)
    (h' : Allowed step ok' s es) : Allowed step (fun s e => ok s e ∧ ok' s e) s es := by
  induction es generalizing s with
  | nil => trivial
  | cons e es ih => exact ⟨⟨h.1, h'.1⟩, ih h.2 h'.2⟩

theorem allowed_of_forall {p : ε → Prop} {es : List ε} (h : ∀ e ∈ es, p e) :
    Allowed step (fun _ e => p e) s es := by
  induction es generalizing s with
  | nil => trivial
  | cons e es ih =>
    exact ⟨h e List.mem_cons_self, ih fun e' he' => h e' (List.mem_cons_of_mem e he')⟩

/-- The invariant rule. -/
theorem Allowed.invariant {I : σ → Prop} (hstep : ∀ s e, I s → ok s e → I (step s e))
    {es : List ε} (h : Allowed step ok s es) (hs : I s) : I (runAll step s es) := by
  induction es generalizing s with
  | nil => exact hs
  | cons e es ih => exact ih h.2 (hstep s e hs h.1)

/-- What every event preserves, every run preserves. -/
theorem runAll_invariant {I : σ → Prop} (hstep : ∀ s e, I s → I (step s e)) (hs : I s)
    (es : List ε) : I (runAll step s es) := by
  induction es generalizing s with
  | nil => exact hs
  | cons e es ih => exact ih (hstep s e hs)

end Lib
