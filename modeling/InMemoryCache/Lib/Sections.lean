-- SUMMARY: Methods made of critical sections, and the atomic actions their calls stand for.
import InMemoryCache.Lib.Run
import Mathlib.Data.List.Induction
import Mathlib.Logic.Function.Basic

/-!
# Methods in sections

Threads run methods that hold a lock for one section at a time, and the sections of
different threads interleave. A method stands for atomic actions if each of its sections
performs some of them, or none. Every run then has a history: the calls and returns the
callers saw, with the actions in between, which lead from the first shared state to the
last and explain every result (`Linear.exists_history`). What a call keeps in mind from section
to section is about the states the run went through since it began (`Threads.watched`).
-/

namespace Lib

variable {σ τ ι ρ δ α β : Type}

/-- Methods on a shared state. A call begins with a task; a section takes what it reads from
outside and ends with the next task or with the result. -/
structure Sections (σ τ ι ρ δ : Type) where
  enter : ι → τ
  step : δ → σ → τ → σ × (τ ⊕ ρ)

/-- The actions lead from one state to the other and answer what they are paired with. -/
def Acts (act : α → σ → β × σ) (s : σ) : List (α × β) → σ → Prop
  | [], s' => s' = s
  | e :: es, s' => (act e.1 s).1 = e.2 ∧ Acts act (act e.1 s).2 es s'

theorem acts_append {act : α → σ → β × σ} {s s' : σ} {es es' : List (α × β)} :
    Acts act s (es ++ es') s' ↔ ∃ m, Acts act s es m ∧ Acts act m es' s' := by
  induction es generalizing s with
  | nil => exact ⟨fun h => ⟨s, rfl, h⟩, fun ⟨m, hm, h⟩ => hm ▸ h⟩
  | cons e es ih =>
    constructor
    · rintro ⟨hb, h⟩
      obtain ⟨m, hm, h⟩ := ih.mp h
      exact ⟨m, ⟨hb, hm⟩, h⟩
    · rintro ⟨m, ⟨hb, hm⟩, h⟩
      exact ⟨hb, ih.mpr ⟨m, hm, h⟩⟩

theorem acts_singleton (act : α → σ → β × σ) (s : σ) (a : α) :
    Acts act s [(a, (act a s).1)] (act a s).2 := ⟨rfl, rfl⟩

-- ---------------------------------------------------------------------------
-- Threads
-- ---------------------------------------------------------------------------

/-- Threads with the state they share. `trace` is what their callers saw. -/
structure Threads (σ τ ι ρ : Type) where
  shared : σ
  running : Nat → Option τ
  trace : List (Nat × (ι ⊕ ρ))

namespace Threads

/-- A thread calls a method, or runs the next section of the one it is in. -/
inductive Event (ι δ : Type) where
  | call (t : Nat) (i : ι)
  | step (t : Nat) (d : δ)

def start (s : σ) : Threads σ τ ι ρ := { shared := s, running := fun _ => none, trace := [] }

/-- An event; a call by a thread that is in a method changes nothing, nor does a step by one
that is in none. -/
def perform (m : Sections σ τ ι ρ δ) (s : Threads σ τ ι ρ) : Event ι δ → Threads σ τ ι ρ
  | .call t i =>
    match s.running t with
    | none =>
      { s with
        running := Function.update s.running t (some (m.enter i)),
        trace := s.trace ++ [(t, .inl i)] }
    | some _ => s
  | .step t d =>
    match s.running t with
    | none => s
    | some task =>
      match m.step d s.shared task with
      | (shared, .inl task) =>
        { s with shared := shared, running := Function.update s.running t (some task) }
      | (shared, .inr r) =>
        { shared := shared, running := Function.update s.running t none,
          trace := s.trace ++ [(t, .inr r)] }

theorem shared_perform_step (m : Sections σ τ ι ρ δ) (s : Threads σ τ ι ρ) (t : Nat) (d : δ) :
    (s.perform m (.step t d)).shared =
      (s.running t).elim s.shared fun task => (m.step d s.shared task).1 := by
  rw [perform]
  cases s.running t with
  | none => rfl
  | some task =>
    rw [Option.elim_some]
    dsimp only
    cases m.step d s.shared task with
    | mk shared next => cases next <;> rfl

/-- The shared state satisfies `P`, and every task under way `T`. -/
structure Keeps (P : σ → Prop) (T : τ → Prop) (s : Threads σ τ ι ρ) : Prop where
  shared : P s.shared
  tasks : ∀ t task, s.running t = some task → T task

theorem keeps_start {P : σ → Prop} {T : τ → Prop} {s : σ} (h : P s) :
    (start s : Threads σ τ ι ρ).Keeps P T where
  shared := h
  tasks t task htask := by cases htask

/-- An event keeps what the task that takes it keeps. -/
theorem Keeps.perform {m : Sections σ τ ι ρ δ} {P : σ → Prop} {T : τ → Prop}
    {s : Threads σ τ ι ρ} (h : s.Keeps P T) {e : Event ι δ}
    (hcall : ∀ t i, e = .call t i → T (m.enter i))
    (hstep : ∀ t d task, e = .step t d → s.running t = some task → T task →
      P (m.step d s.shared task).1 ∧ ∀ next, (m.step d s.shared task).2 = .inl next → T next) :
    (s.perform m e).Keeps P T := by
  have hupdate : ∀ {t : Nat} {next : Option τ}, (∀ task, next = some task → T task) →
      ∀ t' task, Function.update s.running t next t' = some task → T task := by
    intro t next hnext t' task htask
    by_cases ht : t' = t
    · subst ht
      rw [Function.update_self] at htask
      exact hnext task htask
    · rw [Function.update_of_ne ht] at htask
      exact h.tasks t' task htask
  cases e with
  | call t i =>
    rw [Threads.perform]
    split
    · refine ⟨h.shared, hupdate fun task htask => ?_⟩
      cases htask
      exact hcall t i rfl
    · exact h
  | step t d =>
    rw [Threads.perform]
    split
    · exact h
    · rename_i task hrunning
      obtain ⟨hshared, hnext⟩ := hstep t d task rfl hrunning (h.tasks t task hrunning)
      split
      · rename_i shared next hresult
        rw [hresult] at hshared hnext
        refine ⟨hshared, hupdate fun task' htask => ?_⟩
        cases htask
        exact hnext next rfl
      · rename_i shared r hresult
        rw [hresult] at hshared
        exact ⟨hshared, hupdate fun task' htask => by cases htask⟩

-- ---------------------------------------------------------------------------
-- One thread's call
-- ---------------------------------------------------------------------------

section Call

variable {m : Sections σ τ ι ρ δ} {s : Threads σ τ ι ρ} {t : Nat} {task : τ}

theorem running_perform_step (h : s.running t = some task) (d : δ) :
    (s.perform m (.step t d)).running =
      Function.update s.running t ((m.step d s.shared task).2.elim some fun _ => none) := by
  rw [Threads.perform, h]
  dsimp only
  cases m.step d s.shared task with
  | mk shared next => cases next <;> rfl

theorem running_perform_self (h : s.running t = some task) (d : δ) :
    (s.perform m (.step t d)).running t = (m.step d s.shared task).2.elim some fun _ => none := by
  rw [running_perform_step h, Function.update_self]

/-- The other events leave a thread where it is. -/
theorem running_perform_of_ne (h : s.running t = some task) {e : Event ι δ}
    (he : ∀ d, e ≠ .step t d) : (s.perform m e).running t = some task := by
  cases e with
  | call t' i =>
    rw [Threads.perform]
    split
    · rename_i hrunning
      rw [← h]
      exact Function.update_of_ne (fun ht => by rw [← ht, h] at hrunning; cases hrunning) _ _
    · exact h
  | step t' d =>
    have ht : t ≠ t' := fun ht => he d (ht ▸ rfl)
    rw [Threads.perform]
    cases s.running t' with
    | none => exact h
    | some task' =>
      rw [← h]
      dsimp only
      cases m.step d s.shared task' with
      | mk shared next => cases next <;> exact Function.update_of_ne ht _ _

theorem trace_perform_step (h : s.running t = some task) (d : δ) :
    (s.perform m (.step t d)).trace =
      s.trace ++ (m.step d s.shared task).2.elim (fun _ => []) fun r => [(t, .inr r)] := by
  rw [Threads.perform, h]
  dsimp only
  cases m.step d s.shared task with
  | mk shared next =>
    cases next with
    | inl task => exact (List.append_nil _).symm
    | inr r => rfl

theorem trace_prefix_perform (m : Sections σ τ ι ρ δ) (s : Threads σ τ ι ρ) (e : Event ι δ) :
    s.trace <+: (s.perform m e).trace := by
  cases e with
  | call t i =>
    rw [Threads.perform]
    split
    · exact List.prefix_append _ _
    · exact List.prefix_rfl
  | step t d =>
    cases h : s.running t with
    | none =>
      have hstays : s.perform m (.step t d) = s := by rw [Threads.perform, h]
      exact ⟨[], by rw [hstays, List.append_nil]⟩
    | some task =>
      rw [trace_perform_step h]
      exact List.prefix_append _ _

/-- A run only adds to the trace. -/
theorem trace_prefix_run (m : Sections σ τ ι ρ δ) (s : Threads σ τ ι ρ) {done es : List (Event ι δ)}
    (h : done <+: es) : (runAll (perform m) s done).trace <+: (runAll (perform m) s es).trace := by
  obtain ⟨more, rfl⟩ := h
  rw [runAll_append]
  exact runAll_invariant (I := fun s' => (runAll (perform m) s done).trace <+: s'.trace)
    (fun s' e hs => hs.trans (trace_prefix_perform m s' e)) List.prefix_rfl more

/-- The shared states a run goes through. -/
def Saw (m : Sections σ τ ι ρ δ) (s : Threads σ τ ι ρ) (es : List (Event ι δ)) (x : σ) : Prop :=
  ∃ done, done <+: es ∧ x = (runAll (perform m) s done).shared

theorem saw_concat (m : Sections σ τ ι ρ δ) (s : Threads σ τ ι ρ) (es : List (Event ι δ))
    (e : Event ι δ) (x : σ) :
    Saw m s (es ++ [e]) x ↔ Saw m s es x ∨ x = (runAll (perform m) s (es ++ [e])).shared := by
  constructor
  · rintro ⟨done, hdone, hx⟩
    rcases List.prefix_concat_iff.mp hdone with rfl | hdone
    · exact .inr hx
    · exact .inl ⟨done, hdone, hx⟩
  · rintro (⟨done, hdone, hx⟩ | hx)
    · exact ⟨done, hdone.trans (List.prefix_append es [e]), hx⟩
    · exact ⟨es ++ [e], List.prefix_refl _, hx⟩

/-- A thread stays in its call. -/
def Stays (m : Sections σ τ ι ρ δ) (s : Threads σ τ ι ρ) (t : Nat) (es : List (Event ι δ)) : Prop :=
  ∀ done, done <+: es → (runAll (perform m) s done).running t ≠ none

theorem Stays.init {es : List (Event ι δ)} {e : Event ι δ} (h : Stays m s t (es ++ [e])) :
    Stays m s t es := fun done hdone => h done (hdone.trans (List.prefix_append es [e]))

/-- What the sections of a call keep, given the states they ran in, holds of the call's task
for the states the run went through. -/
theorem watched {I : (σ → Prop) → τ → Prop}
    (hmono : ∀ {P Q : σ → Prop} {task}, (∀ x, P x → Q x) → I P task → I Q task)
    (hstep : ∀ {P : σ → Prop} {x task next} (d : δ), P x → I P task →
      (m.step d x task).2 = .inl next → I P next)
    (hs : s.running t = some task) (h : I (· = s.shared) task) {es : List (Event ι δ)}
    (hstay : Stays m s t es) :
    ∃ task, (runAll (perform m) s es).running t = some task ∧ I (Saw m s es) task := by
  induction es using List.reverseRecOn with
  | nil => exact ⟨task, hs, hmono (fun x hx => ⟨[], List.prefix_refl _, hx⟩) h⟩
  | append_singleton es e ih =>
    obtain ⟨task, hrunning, htask⟩ := ih hstay.init
    have hmore : ∀ x, Saw m s es x → Saw m s (es ++ [e]) x :=
      fun x hx => (saw_concat m s es e x).mpr (.inl hx)
    have hlast := hstay (es ++ [e]) (List.prefix_refl _)
    rw [runAll_append] at hlast ⊢
    change ((runAll (perform m) s es).perform m e).running t ≠ none at hlast
    change ∃ task, ((runAll (perform m) s es).perform m e).running t = some task ∧ _
    by_cases he : ∃ d, e = .step t d
    · obtain ⟨d, rfl⟩ := he
      rw [running_perform_self hrunning] at hlast ⊢
      cases hnext : (m.step d (runAll (perform m) s es).shared task).2 with
      | inl next =>
        exact ⟨next, rfl, hmono hmore (hstep d ⟨es, List.prefix_refl _, rfl⟩ htask hnext)⟩
      | inr r =>
        rw [hnext] at hlast
        exact absurd rfl hlast
    · exact ⟨task, running_perform_of_ne hrunning fun d hd => he ⟨d, hd⟩, hmono hmore htask⟩

end Call

-- ---------------------------------------------------------------------------
-- Assertions
-- ---------------------------------------------------------------------------

/-- Assertions about the tasks under way and the results returned. A section establishes the
assertion about what it goes on with, and breaks none about another thread. -/
structure Asserts (m : Sections σ τ ι ρ δ) (x₀ : σ) (T : σ → τ → Prop) (C : σ → ρ → Prop) :
    Prop where
  enter : ∀ x i, T x (m.enter i)
  own : ∀ d x task, T x task →
    (m.step d x task).2.elim (T (m.step d x task).1) (C (m.step d x task).1)
  tasks : ∀ (es : List (Event ι δ)) (t t' : Nat) (task task' : τ) (d : δ), t ≠ t' →
    (runAll (perform m) (start x₀) es).running t = some task →
    (runAll (perform m) (start x₀) es).running t' = some task' →
    T (runAll (perform m) (start x₀) es).shared task →
    T (m.step d (runAll (perform m) (start x₀) es).shared task').1 task
  results : ∀ d x task r, C x r → C (m.step d x task).1 r

/-- The assertions hold of a state. -/
structure Holds (T : σ → τ → Prop) (C : σ → ρ → Prop) (s : Threads σ τ ι ρ) : Prop where
  tasks : ∀ t task, s.running t = some task → T s.shared task
  results : ∀ t r, (t, .inr r) ∈ s.trace → C s.shared r

section Assertions

variable {m : Sections σ τ ι ρ δ} {x₀ : σ} {T : σ → τ → Prop} {C : σ → ρ → Prop}

theorem holds_update {x : σ} {running : Nat → Option τ} {t : Nat} {next : Option τ}
    {trace : List (Nat × (ι ⊕ ρ))} (hnext : ∀ task, next = some task → T x task)
    (htasks : ∀ t' task, t' ≠ t → running t' = some task → T x task)
    (hresults : ∀ t' r, (t', .inr r) ∈ trace → C x r) :
    Holds T C { shared := x, running := Function.update running t next, trace := trace } where
  tasks t' task htask := by
    change Function.update running t next t' = some task at htask
    by_cases ht : t' = t
    · subst ht
      rw [Function.update_self] at htask
      exact hnext task htask
    · rw [Function.update_of_ne ht] at htask
      exact htasks t' task ht htask
  results := hresults

theorem Asserts.call (h : Asserts m x₀ T C) {s : Threads σ τ ι ρ} (hs : s.Holds T C) (t : Nat)
    (i : ι) : (s.perform m (.call t i)).Holds T C := by
  rw [perform]
  cases s.running t with
  | some task => exact hs
  | none =>
    refine holds_update (fun task htask => ?_) (fun t' task _ => hs.tasks t' task)
      fun t' r hr => ?_
    · cases htask
      exact h.enter _ _
    · rcases List.mem_append.mp hr with hr | hr
      · exact hs.results t' r hr
      · cases List.mem_singleton.mp hr

theorem Asserts.step (h : Asserts m x₀ T C) (es : List (Event ι δ))
    (hs : (runAll (perform m) (start x₀) es).Holds T C) (t : Nat) (d : δ) :
    ((runAll (perform m) (start x₀) es).perform m (.step t d)).Holds T C := by
  have hothers := h.tasks es
  generalize runAll (perform m) (start x₀) es = s at hs hothers
  rw [perform]
  cases hrunning : s.running t with
  | none => exact hs
  | some task =>
    have hown := h.own d s.shared task (hs.tasks t task hrunning)
    have hresults := fun t' r hr => h.results d s.shared task r (hs.results t' r hr)
    have htasks := fun t' task' (ht : t' ≠ t) htask' =>
      hothers t' t task' task d ht htask' hrunning (hs.tasks t' task' htask')
    dsimp only
    cases hstep : m.step d s.shared task with
    | mk shared next =>
      simp only [hstep] at hown hresults htasks
      cases next with
      | inl next =>
        refine holds_update (fun task' htask' => ?_) htasks hresults
        cases htask'
        exact hown
      | inr r =>
        refine holds_update (fun task' htask' => by cases htask') htasks fun t' r' hr' => ?_
        rcases List.mem_append.mp hr' with hr' | hr'
        · exact hresults t' r' hr'
        · cases List.mem_singleton.mp hr'
          exact hown

/-- The assertions hold in every state of every run. -/
theorem Asserts.run (h : Asserts m x₀ T C) (es : List (Event ι δ)) :
    (runAll (perform m) (start x₀) es).Holds T C := by
  induction es using List.reverseRecOn with
  | nil => exact ⟨fun _ _ htask => (nomatch htask), fun _ _ hr => (nomatch hr)⟩
  | append_singleton es e ih =>
    rw [runAll_append]
    cases e with
    | call t i => exact h.call ih t i
    | step t d => exact h.step es ih t d

end Assertions

end Threads

-- ---------------------------------------------------------------------------
-- Histories
-- ---------------------------------------------------------------------------

/-- An entry of a history. -/
inductive Mark (ι α β ρ : Type) where
  | call (i : ι)
  | act (a : α) (b : β)
  | ret (r : ρ)

/-- What the callers see of an entry. -/
def Mark.visible? : Mark ι α β ρ → Option (ι ⊕ ρ)
  | .call i => some (.inl i)
  | .act _ _ => none
  | .ret r => some (.inr r)

def Mark.action? : Mark ι α β ρ → Option (α × β)
  | .act a b => some (a, b)
  | _ => none

section Projections

variable (history more : List (Nat × Mark ι α β ρ))

def visible : List (Nat × (ι ⊕ ρ)) :=
  history.filterMap fun e => e.2.visible?.map fun v => (e.1, v)

def actions : List (α × β) := history.filterMap fun e => e.2.action?

/-- The entries of one thread. -/
def ofThread (t : Nat) : List (Mark ι α β ρ) :=
  history.filterMap fun e => if e.1 = t then some e.2 else none

@[simp] theorem visible_append : visible (history ++ more) = visible history ++ visible more :=
  List.filterMap_append

@[simp] theorem actions_append : actions (history ++ more) = actions history ++ actions more :=
  List.filterMap_append

@[simp] theorem ofThread_append (t : Nat) :
    ofThread (history ++ more) t = ofThread history t ++ ofThread more t :=
  List.filterMap_append

/-- The entries a section makes for the actions it performs. -/
def acting (t : Nat) (es : List (α × β)) : List (Nat × Mark ι α β ρ) :=
  es.map fun e => (t, .act e.1 e.2)

variable (t : Nat) (es : List (α × β))

@[simp] theorem visible_acting : visible (acting t es : List (Nat × Mark ι α β ρ)) = [] := by
  rw [visible, acting, List.filterMap_map, List.filterMap_eq_nil_iff]
  exact fun _ _ => rfl

@[simp] theorem actions_acting :
    actions (acting t es : List (Nat × Mark ι α β ρ)) = es := by
  rw [actions, acting, List.filterMap_map]
  exact List.filterMap_some

@[simp] theorem ofThread_acting_self : ofThread (acting t es : List (Nat × Mark ι α β ρ)) t =
    es.map fun e => .act e.1 e.2 := by
  rw [ofThread, acting, List.filterMap_map, ← List.filterMap_eq_map]
  exact congrArg (List.filterMap · es) (funext fun _ => if_pos rfl)

theorem ofThread_acting_ne {t t' : Nat} (h : t ≠ t') :
    ofThread (acting t es : List (Nat × Mark ι α β ρ)) t' = [] := by
  rw [ofThread, acting, List.filterMap_map, List.filterMap_eq_nil_iff]
  exact fun _ _ => if_neg h

end Projections

/-- A thread's part of a history: calls one after the other, each explained by the actions
between it and its return. `cur` is the call it is in, with its actions so far. -/
inductive Told (Explains : ι → List (α × β) → ρ → Prop) :
    List (Mark ι α β ρ) → Option (ι × List (α × β)) → Prop where
  | nil : Told Explains [] none
  | call {h : List (Mark ι α β ρ)} {i : ι} (hh : Told Explains h none) :
      Told Explains (h ++ [.call i]) (some (i, []))
  | act {h : List (Mark ι α β ρ)} {i : ι} {es : List (α × β)} {a : α} {b : β}
      (hh : Told Explains h (some (i, es))) :
      Told Explains (h ++ [.act a b]) (some (i, es ++ [(a, b)]))
  | ret {h : List (Mark ι α β ρ)} {i : ι} {es : List (α × β)} {r : ρ}
      (hh : Told Explains h (some (i, es))) (hr : Explains i es r) :
      Told Explains (h ++ [.ret r]) none

theorem Told.acts {Explains : ι → List (α × β) → ρ → Prop} {h : List (Mark ι α β ρ)} {i : ι}
    {es : List (α × β)} (hh : Told Explains h (some (i, es))) (more : List (α × β)) :
    Told Explains (h ++ more.map fun e => .act e.1 e.2) (some (i, es ++ more)) := by
  induction more generalizing h es with
  | nil =>
    rw [List.map_nil, List.append_nil, List.append_nil]
    exact hh
  | cons e more ih =>
    have hrest := ih (Told.act (a := e.1) (b := e.2) hh)
    rwa [List.append_assoc, List.append_assoc] at hrest

-- ---------------------------------------------------------------------------
-- The rule
-- ---------------------------------------------------------------------------

/-- The methods stand for atomic actions. `Reads` says what an action reads from outside,
`Progress` where a call is after some actions, and `Explains` what it may return after them. -/
structure Linear (m : Sections σ τ ι ρ δ) (act : α → σ → β × σ) (Reads : δ → α → Prop)
    (Progress : ι → List (α × β) → τ → Prop) (Explains : ι → List (α × β) → ρ → Prop) :
    Prop where
  enter : ∀ i, Progress i [] (m.enter i)
  step : ∀ {i es task} (d : δ) (s : σ), Progress i es task →
    ∃ more, Acts act s more (m.step d s task).1 ∧ (∀ e ∈ more, Reads d e.1) ∧
      (m.step d s task).2.elim (Progress i (es ++ more)) (Explains i (es ++ more))

namespace Linear

variable {m : Sections σ τ ι ρ δ} {act : α → σ → β × σ} {Reads : δ → α → Prop}
  {Progress : ι → List (α × β) → τ → Prop} {Explains : ι → List (α × β) → ρ → Prop}
  {given : Nat → δ → Prop}

/-- A thread is in the call its part of the history ends with, or in none. -/
def Matches (Progress : ι → List (α × β) → τ → Prop) :
    Option τ → Option (ι × List (α × β)) → Prop
  | none, none => True
  | some task, some (i, es) => Progress i es task
  | _, _ => False

/-- A history of what the threads did from `s₀` on, with what their sections were given. -/
structure History (act : α → σ → β × σ) (Reads : δ → α → Prop)
    (Progress : ι → List (α × β) → τ → Prop) (Explains : ι → List (α × β) → ρ → Prop)
    (given : Nat → δ → Prop) (s₀ : σ) (s : Threads σ τ ι ρ)
    (history : List (Nat × Mark ι α β ρ)) : Prop where
  /-- The callers saw its calls and returns. -/
  seen : visible history = s.trace
  /-- Its actions lead to the shared state. -/
  acted : Acts act s₀ (actions history) s.shared
  /-- They read from outside what a section of their thread was given. -/
  read : ∀ t a b, (t, .act a b) ∈ history → ∃ d, given t d ∧ Reads d a
  /-- They explain the results of every thread. -/
  told : ∀ t, ∃ cur, Told Explains (ofThread history t) cur ∧ Matches Progress (s.running t) cur

theorem history_start (s₀ : σ) :
    History act Reads Progress Explains given s₀ (Threads.start s₀ : Threads σ τ ι ρ) [] where
  seen := rfl
  acted := rfl
  read _ _ _ h := by cases h
  told _ := ⟨none, .nil, trivial⟩

variable {s₀ : σ} {s : Threads σ τ ι ρ} {history : List (Nat × Mark ι α β ρ)}

/-- A history goes on with entries of one thread. -/
theorem History.extend (h : History act Reads Progress Explains given s₀ s history) {t : Nat}
    {marks : List (Nat × Mark ι α β ρ)} (hmarks : ∀ t', t ≠ t' → ofThread marks t' = [])
    {s' : Threads σ τ ι ρ} (hseen : visible marks = s'.trace.drop s.trace.length)
    (htrace : s.trace <+: s'.trace) (hacted : Acts act s.shared (actions marks) s'.shared)
    (hread : ∀ t a b, (t, .act a b) ∈ marks → ∃ d, given t d ∧ Reads d a) {next : Option τ} (hrunning : s'.running = Function.update s.running t next)
    (htold : ∀ cur, Told Explains (ofThread history t) cur → Matches Progress (s.running t) cur →
      ∃ cur', Told Explains (ofThread history t ++ ofThread marks t) cur' ∧
        Matches Progress next cur') :
    History act Reads Progress Explains given s₀ s' (history ++ marks) where
  seen := by
    obtain ⟨more, hmore⟩ := htrace
    rw [visible_append, h.seen, hseen, ← hmore, List.drop_left]
  acted := by
    rw [actions_append]
    exact acts_append.mpr ⟨s.shared, h.acted, hacted⟩
  read t a b hmem := (List.mem_append.mp hmem).elim (h.read t a b) (hread t a b)
  told t' := by
    obtain ⟨cur, hcur, hmatch⟩ := h.told t'
    rw [ofThread_append, hrunning]
    by_cases ht : t' = t
    · subst ht
      rw [Function.update_self]
      exact htold cur hcur hmatch
    · rw [Function.update_of_ne ht, hmarks t' (Ne.symm ht), List.append_nil]
      exact ⟨cur, hcur, hmatch⟩

theorem ofThread_singleton_ne {t t' : Nat} (h : t ≠ t') (mark : Mark ι α β ρ) :
    ofThread [(t, mark)] t' = [] := by
  rw [ofThread, List.filterMap_cons, if_neg h]
  rfl

theorem ofThread_singleton_self (t : Nat) (mark : Mark ι α β ρ) :
    ofThread [(t, mark)] t = [mark] := by
  rw [ofThread, List.filterMap_cons, if_pos rfl]
  rfl

/-- A thread that is in no call calls a method. -/
theorem History.call (hm : Linear m act Reads Progress Explains)
    (h : History act Reads Progress Explains given s₀ s history) (t : Nat) (i : ι) :
    ∃ more, History act Reads Progress Explains given s₀ (s.perform m (.call t i))
      (history ++ more) := by
  rw [Threads.perform]
  cases hrunning : s.running t with
  | some task => exact ⟨[], by rwa [List.append_nil]⟩
  | none =>
    refine ⟨[(t, .call i)], h.extend (fun t' ht => ofThread_singleton_ne ht _) ?_
      (List.prefix_append _ _) rfl (fun t' a b hmem => ?_) rfl fun cur hcur hmatch => ?_⟩
    · rw [List.drop_left]
      rfl
    · cases List.mem_singleton.mp hmem
    · rw [hrunning] at hmatch
      cases cur with
      | some cur => cases hmatch
      | none =>
        rw [ofThread_singleton_self]
        exact ⟨_, hcur.call, hm.enter i⟩

theorem read_acting {t : Nat} {d : δ} (hd : given t d) {es : List (α × β)}
    (h : ∀ e ∈ es, Reads d e.1) (t' : Nat) (a : α) (b : β)
    (hmem : (t', .act a b) ∈ (acting t es : List (Nat × Mark ι α β ρ))) :
    ∃ d, given t' d ∧ Reads d a := by
  obtain ⟨e, he, heq⟩ := List.mem_map.mp hmem
  cases heq
  exact ⟨d, hd, h e he⟩

/-- A thread runs a section: the actions of the section, and the return if it is the last. -/
theorem History.step (hm : Linear m act Reads Progress Explains)
    (h : History act Reads Progress Explains given s₀ s history) (t : Nat) {d : δ} (hd : given t d) :
    ∃ more, History act Reads Progress Explains given s₀ (s.perform m (.step t d))
      (history ++ more) := by
  rw [Threads.perform]
  cases hrunning : s.running t with
  | none => exact ⟨[], by rwa [List.append_nil]⟩
  | some task =>
    obtain ⟨⟨i, es⟩, hcur, hprogress⟩ : ∃ cur, Told Explains (ofThread history t) (some cur) ∧
        Progress cur.1 cur.2 task := by
      obtain ⟨cur, hcur, hmatch⟩ := h.told t
      rw [hrunning] at hmatch
      cases cur with
      | none => cases hmatch
      | some cur => exact ⟨cur, hcur, hmatch⟩
    obtain ⟨more, hacts, hreads, hnext⟩ := hm.step d s.shared hprogress
    have hread := read_acting (ι := ι) (ρ := ρ) hd hreads
    have hafter := hcur.acts more
    dsimp only
    cases hstep : m.step d s.shared task with
    | mk shared next =>
      rw [hstep] at hacts hnext
      cases next with
      | inl task' =>
        refine ⟨acting t more, h.extend (fun t' ht => ofThread_acting_ne more ht) ?_
          (List.prefix_refl _) ?_ hread rfl fun _ _ _ => ?_⟩
        · rw [visible_acting, List.drop_length]
        · rwa [actions_acting]
        · rw [ofThread_acting_self]
          exact ⟨_, hafter, hnext⟩
      | inr r =>
        refine ⟨acting t more ++ [(t, .ret r)], h.extend (fun t' ht => ?_) ?_
          (List.prefix_append _ _) ?_ (fun t' a b hmem => ?_) rfl fun _ _ _ => ?_⟩
        · rw [ofThread_append, ofThread_acting_ne more ht, ofThread_singleton_ne ht]
          rfl
        · rw [visible_append, visible_acting, List.drop_left]
          rfl
        · rw [actions_append, actions_acting]
          exact acts_append.mpr ⟨_, hacts, rfl⟩
        · rcases List.mem_append.mp hmem with hmem | hmem
          · exact hread t' a b hmem
          · cases List.mem_singleton.mp hmem
        · rw [ofThread_append, ofThread_acting_self, ofThread_singleton_self, ← List.append_assoc]
          exact ⟨none, hafter.ret hnext, trivial⟩

/-- Every run has a history, and goes on with a longer one. -/
theorem exists_history (hm : Linear m act Reads Progress Explains) (s₀ : σ)
    (es : List (Threads.Event ι δ)) :
    ∃ history, History act Reads Progress Explains (fun t d => .step t d ∈ es) s₀
      (runAll (Threads.perform m) (Threads.start s₀) es) history := by
  refine (allowed_of_forall fun e he => he : Allowed _ (fun _ e => e ∈ es) _ es).invariant
    (I := fun s => ∃ history,
      History act Reads Progress Explains (fun t d => .step t d ∈ es) s₀ s history)
    (fun s e ⟨history, h⟩ he => ?_) ⟨[], history_start s₀⟩
  cases e with
  | call t i =>
    obtain ⟨more, hmore⟩ := h.call hm t i
    exact ⟨_, hmore⟩
  | step t d =>
    obtain ⟨more, hmore⟩ := h.step hm t he
    exact ⟨_, hmore⟩

end Linear

end Lib
