-- SUMMARY: The connection limit, the count of connected clients and its peak.
import InMemoryCache.Basic
import InMemoryCache.Lib.Books
import InMemoryCache.Lib.Raise
import Mathlib.Data.ZMod.Basic
import Mathlib.Order.Bounds.Basic
import Mathlib.Tactic.Ring

/-!
# Clients

The accept loop takes a permit for each connection and counts it, and the connection's task
uncounts it and gives the permit back. The counters are atomics, and the accesses of all
connections interleave. There are never more connections than permits, and the peak, which
`client_connected` raises by compare-and-exchange, is the greatest count there has been.

A task that panics is unwound before `client_disconnected`. Its permit is dropped with it, so
the next connection can take its place, but its client stays counted: the count is that of the
connections which are counted and of those which panicked, and can exceed the limit.
-/

namespace InMemoryCache

open Lib

/-- The connection limiter, and what the connection tracking of `Metrics` writes. -/
structure Front where
  permits : Nat
  connectedClients : Int64
  peakClients : Nat
  totalConnections : Nat
  connectionErrors : Nat

/-- What `listener.accept` returns. -/
inductive Accepted where
  | socket
  | error

/-- What becomes of it; a connection that was served ends with the errors recorded on it. -/
inductive Fate where
  | rejected
  | closed (errors : Nat)
  | panicked (errors : Nat)

/-- Where a connection stands, from the accept loop to the end of its task. -/
inductive ConnTask where
  /-- `try_acquire_owned` -/
  | acquire
  /-- There is no permit, or no socket. -/
  | reject
  /-- In `client_connected`, before each of its accesses. -/
  | count
  | connect
  | raise (r : Raise Nat)
  /-- In `process_connection`. -/
  | serve (errors : Nat)
  /-- `process_connection` has returned an error. -/
  | fail (errors : Nat)
  /-- `client_disconnected` -/
  | disconnect (errors : Nat)
  /-- `drop(permit)` -/
  | release (errors : Nat)
  /-- A panic drops what the task owns, its permit included. -/
  | unwind (errors : Nat)

/-- How a connection goes on. -/
inductive Serving where
  | more
  /-- A request that is no command. -/
  | invalid
  | closed
  | failed
  | shutdown
  /-- A command panics, as `SET` does on an expiry no clock can hold. -/
  | panicked

/-- What an access reads from outside; `weak` is an exchange that fails for no reason. -/
structure FrontInput where
  weak : Bool
  serving : Serving

namespace Front

def new (maxConnections : Nat) : Front where
  permits := maxConnections
  connectedClients := 0
  peakClients := 0
  totalConnections := 0
  connectionErrors := 0

def recordConnectionError (s : Front) : Front :=
  { s with connectionErrors := U64.add s.connectionErrors 1 }

/-- The clients counted, as `peak_clients` counts them. -/
def clients (s : Front) : Nat := s.connectedClients.toInt.toNat

/-- The next access of a connection. -/
def step (d : FrontInput) (s : Front) : ConnTask → Front × (ConnTask ⊕ Fate)
  | .acquire =>
    if s.permits = 0 then (s, .inl .reject) else ({ s with permits := s.permits - 1 }, .inl .count)
  | .reject => (s.recordConnectionError, .inr .rejected)
  | .count => ({ s with totalConnections := U64.add s.totalConnections 1 }, .inl .connect)
  | .connect =>
    let s := { s with connectedClients := s.connectedClients + 1 }
    (s, .inl (if s.connectedClients > 0 then .raise (.load s.clients) else .serve 0))
  | .raise r =>
    let (peak, next) := r.step d.weak s.peakClients
    ({ s with peakClients := peak }, .inl (next.elim (.serve 0) .raise))
  | .serve errors =>
    match d.serving with
    | .more => (s, .inl (.serve errors))
    | .invalid => (s.recordConnectionError, .inl (.serve (errors + 1)))
    | .failed => (s, .inl (.fail errors))
    | .closed | .shutdown => (s, .inl (.disconnect errors))
    | .panicked => (s, .inl (.unwind errors))
  | .fail errors => (s.recordConnectionError, .inl (.disconnect (errors + 1)))
  | .disconnect errors =>
    ({ s with connectedClients := s.connectedClients - 1 }, .inl (.release errors))
  | .release errors => ({ s with permits := s.permits + 1 }, .inr (.closed errors))
  | .unwind errors => ({ s with permits := s.permits + 1 }, .inr (.panicked errors))

/-- The accept loop and the connections. That one socket is accepted after the other is one of
the interleavings. -/
def sockets : Sections Front ConnTask Accepted Fate FrontInput where
  enter
    | .socket => .acquire
    | .error => .reject
  step := step

/-- The server's connections, with the permits and counters. -/
abbrev Connections : Type := Threads Front ConnTask Accepted Fate

/-- What happens to the connections of a server that has just started. -/
def serve (maxConnections : Nat) (es : List (Threads.Event Accepted FrontInput)) : Connections :=
  runAll (Threads.perform sockets) (Threads.start (new maxConnections)) es

end Front

/-- A connection holds a permit. -/
def ConnTask.holds : ConnTask → Bool
  | .acquire | .reject => false
  | _ => true

/-- It has been counted and not yet uncounted. -/
def ConnTask.connected : ConnTask → Bool
  | .raise _ | .serve _ | .fail _ | .disconnect _ | .unwind _ => true
  | _ => false

/-- It has been added to the total. -/
def ConnTask.counted : ConnTask → Bool
  | .acquire | .reject | .count => false
  | _ => true

/-- The errors recorded on it. -/
def ConnTask.errors : ConnTask → Nat
  | .serve n | .fail n | .disconnect n | .release n | .unwind n => n
  | _ => 0

def Fate.served : Fate → Nat
  | .rejected => 0
  | .closed _ | .panicked _ => 1

def Fate.errors : Fate → Nat
  | .rejected => 1
  | .closed n | .panicked n => n

/-- The clients it leaves counted for good. -/
def Fate.leaked : Fate → Nat
  | .rejected | .closed _ => 0
  | .panicked _ => 1

namespace Front

open Threads

/-- What an access can do. -/
inductive Moves (s : Front) : ConnTask → Front → ConnTask ⊕ Fate → Prop where
  | acquire (h : 0 < s.permits) :
      Moves s .acquire { s with permits := s.permits - 1 } (.inl .count)
  | full (h : s.permits = 0) : Moves s .acquire s (.inl .reject)
  | reject : Moves s .reject s.recordConnectionError (.inr .rejected)
  | count :
      Moves s .count { s with totalConnections := U64.add s.totalConnections 1 } (.inl .connect)
  | connect (h : s.connectedClients + 1 > 0) :
      Moves s .connect { s with connectedClients := s.connectedClients + 1 }
        (.inl (.raise (.load (s.connectedClients + 1).toInt.toNat)))
  | unseen (h : ¬ s.connectedClients + 1 > 0) :
      Moves s .connect { s with connectedClients := s.connectedClients + 1 } (.inl (.serve 0))
  | look {r b : Raise Nat} (h : b.target = r.target) (hb : b.Proper) :
      Moves s (.raise r) s (.inl (.raise b))
  | raised {r : Raise Nat} {peak : Nat} (h : r.Proper → r.target ≤ peak ∧ s.peakClients ≤ peak ∧
        (peak = s.peakClients ∨ peak = r.target)) :
      Moves s (.raise r) { s with peakClients := peak } (.inl (.serve 0))
  | more (errors) : Moves s (.serve errors) s (.inl (.serve errors))
  | invalid (errors) :
      Moves s (.serve errors) s.recordConnectionError (.inl (.serve (errors + 1)))
  | failed (errors) : Moves s (.serve errors) s (.inl (.fail errors))
  | closed (errors) : Moves s (.serve errors) s (.inl (.disconnect errors))
  | panicked (errors) : Moves s (.serve errors) s (.inl (.unwind errors))
  | fail (errors) : Moves s (.fail errors) s.recordConnectionError (.inl (.disconnect (errors + 1)))
  | disconnect (errors) :
      Moves s (.disconnect errors) { s with connectedClients := s.connectedClients - 1 }
        (.inl (.release errors))
  | release (errors) :
      Moves s (.release errors) { s with permits := s.permits + 1 } (.inr (.closed errors))
  | unwind (errors) :
      Moves s (.unwind errors) { s with permits := s.permits + 1 } (.inr (.panicked errors))

theorem step_moves (d : FrontInput) (s : Front) (task : ConnTask) :
    Moves s task (step d s task).1 (step d s task).2 := by
  cases task with
  | acquire =>
    rw [step]
    split
    · rename_i h
      exact .full h
    · rename_i h
      exact .acquire (Nat.pos_of_ne_zero h)
  | reject => exact .reject
  | count => exact .count
  | connect =>
    rw [step]
    dsimp only
    split
    · rename_i h
      exact .connect h
    · rename_i h
      exact .unseen h
  | raise r =>
    rw [step]
    dsimp only
    cases hnext : (r.step d.weak s.peakClients).2 with
    | none => exact .raised fun hr => Raise.step_none hr hnext
    | some b =>
      obtain ⟨hpeak, htarget, hproper⟩ := Raise.step_some hnext
      rw [hpeak]
      exact .look htarget hproper
  | serve errors =>
    rw [step]
    split
    · exact .more errors
    · exact .invalid errors
    · exact .failed errors
    · exact .closed errors
    · exact .closed errors
    · exact .panicked errors
  | fail errors => exact .fail errors
  | disconnect errors => exact .disconnect errors
  | release errors => exact .release errors
  | unwind errors => exact .unwind errors

-- ---------------------------------------------------------------------------
-- The books
-- ---------------------------------------------------------------------------

section Books

/-- A counter that wraps counts modulo its size. -/
theorem cast_add (a b : Nat) : ((U64.add a b : Nat) : ZMod U64.size) = a + b := by
  rw [U64.add, ZMod.natCast_mod, Nat.cast_add]

theorem cast_toInt_succ (a : Int64) :
    (((a + 1).toInt : Int) : ZMod U64.size) = (a.toInt : ZMod U64.size) + 1 := by
  rw [Int64.toInt_add, ← Int.cast_one, ← Int.cast_add]
  exact (ZMod.intCast_eq_intCast_iff _ _ _).mpr Int.bmod_emod

theorem cast_toInt_pred (a : Int64) :
    (((a - 1).toInt : Int) : ZMod U64.size) = (a.toInt : ZMod U64.size) - 1 := by
  rw [Int64.toInt_sub, ← Int.cast_one, ← Int.cast_sub]
  exact (ZMod.intCast_eq_intCast_iff _ _ _).mpr Int.bmod_emod

/-- `counted`, for what an access can do. -/
theorem counted_serve {M : Type} [Ring M] {q : Front → M} {p : ConnTask → Bool} {c : Fate → Nat}
    (henter : ∀ i, p (sockets.enter i) = false)
    (hmoves : ∀ s task s' next, Moves s task s' next → q s' + (if p task then 1 else 0) =
      q s + next.elim (fun task => if p task then 1 else 0) fun r => (c r : M))
    (maxConnections : Nat) (es : List (Threads.Event Accepted FrontInput)) :
    q (serve maxConnections es).shared = q (new maxConnections) +
      ((those p (serve maxConnections es).running).ncard : M) +
        (total c (serve maxConnections es).trace : M) :=
  counted henter (fun d s task => hmoves s task _ _ (step_moves d s task)) es _

variable (maxConnections : Nat) (es : List (Threads.Event Accepted FrontInput))

/-- A permit is there, or a connection holds it. -/
theorem permits_balanced : (serve maxConnections es).shared.permits +
    (those ConnTask.holds (serve maxConnections es).running).ncard = maxConnections := by
  have h := counted_serve (q := fun s => -(s.permits : Int)) (p := ConnTask.holds)
    (c := fun _ => 0) (fun i => by cases i <;> rfl)
    (fun s task s' next h => by
      cases h with
      | acquire h =>
        simp [ConnTask.holds]
        omega
      | _ => simp [ConnTask.holds, recordConnectionError]) maxConnections es
  simp [total, new] at h
  omega

/-- The clients nothing has uncounted: those of the connections that are counted, and those of
the connections which panicked. -/
noncomputable def uncounted (s : Connections) : Nat :=
  (those ConnTask.connected s.running).ncard + total Fate.leaked s.trace

theorem connected_balanced :
    ((serve maxConnections es).shared.connectedClients.toInt : ZMod U64.size) =
      ((uncounted (serve maxConnections es) : Int) : ZMod U64.size) := by
  have h := counted_serve (q := fun s => ((s.connectedClients.toInt : Int) : ZMod U64.size))
    (p := ConnTask.connected) (c := Fate.leaked) (fun i => by cases i <;> rfl)
    (fun s task s' next h => by
      cases h with
      | connect | unseen =>
        dsimp only
        rw [cast_toInt_succ]
        simp [ConnTask.connected]
      | disconnect =>
        dsimp only
        rw [cast_toInt_pred]
        simp [ConnTask.connected]
      | _ => simp [ConnTask.connected, Fate.leaked, recordConnectionError]) maxConnections es
  simpa [uncounted, new] using h

theorem connectedClients_eq : (serve maxConnections es).shared.connectedClients =
    Int64.ofNat (uncounted (serve maxConnections es)) := by
  have hcast := (ZMod.intCast_eq_intCast_iff _ _ _).mp (connected_balanced maxConnections es)
  have hlow := Int64.le_toInt (serve maxConnections es).shared.connectedClients
  have hhigh := Int64.toInt_lt (serve maxConnections es).shared.connectedClients
  have hself := Int.bmod_eq_of_le (m := U64.size) hlow hhigh
  refine Int64.toInt_inj.mp ?_
  rw [Int64.toInt_ofNat', ← hself, ← Int.emod_bmod, hcast, Int.emod_bmod]
  rfl

theorem ncard_connected_le : (those ConnTask.connected (serve maxConnections es).running).ncard ≤
    (those ConnTask.holds (serve maxConnections es).running).ncard := by
  refine Set.ncard_le_ncard (those_mono _ _ fun task h => ?_) (finite_those sockets _ es _)
  cases task with
  | acquire | reject => cases h
  | _ => rfl

/-- The most clients there can be. -/
def mostClients (maxConnections : Nat) (s : Connections) : Nat :=
  maxConnections + total Fate.leaked s.trace

theorem uncounted_le :
    uncounted (serve maxConnections es) ≤ mostClients maxConnections (serve maxConnections es) := by
  have hpermits := permits_balanced maxConnections es
  have hle := ncard_connected_le maxConnections es
  unfold uncounted mostClients
  omega

/-- A count that wraps is too low. -/
theorem connectedClients_le : (serve maxConnections es).shared.connectedClients.toInt ≤
    mostClients maxConnections (serve maxConnections es) := by
  have hcast := (ZMod.intCast_eq_intCast_iff _ _ _).mp (connected_balanced maxConnections es)
  have hle := uncounted_le maxConnections es
  have hhigh := Int64.toInt_lt (serve maxConnections es).shared.connectedClients
  rw [Int.ModEq, U64.size] at hcast
  omega

/-- There are never more connections than permits. The clients counted are those of the
connections which are counted and of those which panicked, so that there are at most as many
more of them than permits as connections have panicked. -/
theorem connections_limited :
    (serve maxConnections es).shared.permits +
        (those ConnTask.holds (serve maxConnections es).running).ncard = maxConnections ∧
      (serve maxConnections es).shared.connectedClients =
        Int64.ofNat (uncounted (serve maxConnections es)) ∧
      (serve maxConnections es).shared.connectedClients.toInt ≤
        mostClients maxConnections (serve maxConnections es) :=
  ⟨permits_balanced maxConnections es, connectedClients_eq maxConnections es,
    connectedClients_le maxConnections es⟩

/-- `settled`, for what an access can do to a counter. -/
theorem settled_serve {q : Front → Nat} {w : ConnTask → Nat} {c : Fate → Nat}
    (hnew : ∀ maxConnections, q (new maxConnections) = 0) (henter : ∀ i, w (sockets.enter i) = 0)
    (hmoves : ∀ s task s' next, Moves s task s' next →
      (q s' + w task : ZMod U64.size) = q s + next.elim (fun task => (w task : ZMod U64.size))
          (fun r => (c r : ZMod U64.size)) ∧ (q s < U64.size → q s' < U64.size))
    {maxConnections : Nat} {es : List (Threads.Event Accepted FrontInput)}
    (hidle : ∀ t, (serve maxConnections es).running t = none) :
    q (serve maxConnections es).shared = total c (serve maxConnections es).trace % U64.size := by
  have hsmall : (serve maxConnections es).Keeps (fun s => q s < U64.size) fun _ => True :=
    runAll_invariant (I := Threads.Keeps (fun s => q s < U64.size) fun _ => True)
      (fun s e hs => hs.perform (fun _ _ _ => trivial) fun t d task _ _ _ =>
        ⟨(hmoves s.shared task _ _ (step_moves d s.shared task)).2 hs.shared, fun _ _ => trivial⟩)
      (keeps_start (by rw [hnew]; decide)) es
  have hcast := settled (m := sockets) (q := fun s => ((q s : Nat) : ZMod U64.size))
    (w := fun task => (w task : ZMod U64.size)) (c := c) (fun i => by rw [henter, Nat.cast_zero])
    (fun d s task => (hmoves s task _ _ (step_moves d s task)).1) hidle
  rw [hnew, Nat.cast_zero, zero_add, ZMod.natCast_eq_natCast_iff'] at hcast
  exact (Nat.mod_eq_of_lt hsmall.shared).symm.trans hcast

theorem total_settled {maxConnections : Nat} {es : List (Threads.Event Accepted FrontInput)}
    (hidle : ∀ t, (serve maxConnections es).running t = none) :
    (serve maxConnections es).shared.totalConnections =
      total Fate.served (serve maxConnections es).trace % U64.size := by
  refine settled_serve (q := totalConnections) (w := fun task => if task.counted then 1 else 0)
    (fun _ => rfl) (fun i => by cases i <;> rfl) (fun s task s' next h => ?_) hidle
  have hlt : U64.add s.totalConnections 1 < U64.size := Nat.mod_lt _ (by decide)
  cases h with
  | count => exact ⟨by simp [ConnTask.counted, cast_add], fun _ => hlt⟩
  | _ => exact ⟨by simp [ConnTask.counted, Fate.served, recordConnectionError], id⟩

theorem errors_settled {maxConnections : Nat} {es : List (Threads.Event Accepted FrontInput)}
    (hidle : ∀ t, (serve maxConnections es).running t = none) :
    (serve maxConnections es).shared.connectionErrors =
      total Fate.errors (serve maxConnections es).trace % U64.size := by
  refine settled_serve (q := connectionErrors) (w := ConnTask.errors)
    (fun _ => rfl) (fun i => by cases i <;> rfl) (fun s task s' next h => ?_) hidle
  have hlt : U64.add s.connectionErrors 1 < U64.size := Nat.mod_lt _ (by decide)
  cases h with
  | reject | invalid | fail =>
    exact ⟨by simp [ConnTask.errors, Fate.errors, recordConnectionError, cast_add] <;> ring,
      fun _ => hlt⟩
  | _ => exact ⟨by simp [ConnTask.errors, Fate.errors], id⟩

/-- Once no connection is left, every permit is back and the clients still counted are those of
the connections which panicked. The total is that of the connections served, and the errors are
those recorded on them and the rejections. -/
theorem connections_settled {maxConnections : Nat}
    {es : List (Threads.Event Accepted FrontInput)}
    (hidle : ∀ t, (serve maxConnections es).running t = none) :
    (serve maxConnections es).shared.permits = maxConnections ∧
      (serve maxConnections es).shared.connectedClients =
        Int64.ofNat (total Fate.leaked (serve maxConnections es).trace) ∧
      (serve maxConnections es).shared.totalConnections =
        total Fate.served (serve maxConnections es).trace % U64.size ∧
      (serve maxConnections es).shared.connectionErrors =
        total Fate.errors (serve maxConnections es).trace % U64.size := by
  have hpermits := permits_balanced maxConnections es
  have hconnected := connectedClients_eq maxConnections es
  rw [those_eq_empty hidle, Set.ncard_empty] at hpermits
  rw [uncounted, those_eq_empty hidle, Set.ncard_empty, zero_add] at hconnected
  exact ⟨hpermits, hconnected, total_settled hidle, errors_settled hidle⟩

/-- A connection with an invalid request panics. While it is unwound a second one finds no permit,
and then a third one is served to its end: there is one permit, and two clients are counted. -/
def onePanics : List (Threads.Event Accepted FrontInput) :=
  let d : FrontInput := { weak := false, serving := .invalid }
  .call 0 .socket :: List.replicate 6 (.step 0 d) ++
    [.step 0 { d with serving := .panicked }, .call 1 .socket, .step 1 d, .step 0 d,
      .call 2 .socket] ++
    List.replicate 5 (.step 2 d) ++ List.replicate 3 (.step 2 { d with serving := .closed }) ++
    [.step 1 d]

theorem running_onePanics (t : Nat) : (serve 1 onePanics).running t = none := by
  have hthread : ∀ e ∈ onePanics, e.thread < 3 := by decide
  rcases Nat.lt_or_ge t 3 with hlt | hge
  · obtain rfl | rfl | rfl : t = 0 ∨ t = 1 ∨ t = 2 := by omega
    · rfl
    · rfl
    · rfl
  · exact running_eq_none_of_thread_lt hthread hge

theorem connections_settled_onePanics :
    (serve 1 onePanics).shared.permits = 1 ∧
      (serve 1 onePanics).shared.connectedClients = 1 ∧
      (serve 1 onePanics).shared.totalConnections = 2 ∧
      (serve 1 onePanics).shared.connectionErrors = 2 :=
  connections_settled running_onePanics

end Books

-- ---------------------------------------------------------------------------
-- The peak
-- ---------------------------------------------------------------------------

/-- The peak is a count there has been, and no count is above it that no connection is about
to raise it to. -/
structure Peaked (saw : Front → Prop) (s : Front) (running : Nat → Option ConnTask) : Prop where
  reached : ∃ x, saw x ∧ x.clients = s.peakClients
  aimed : ∀ t r, running t = some (.raise r) → r.Proper ∧ ∃ x, saw x ∧ x.clients = r.target
  covered : ∀ x, saw x → x.clients ≤ s.peakClients ∨
    ∃ t r, running t = some (.raise r) ∧ x.clients ≤ r.target

section Peak

variable {saw : Front → Prop} {s s' : Front} {running : Nat → Option ConnTask} {t : Nat}
  {task : ConnTask} {next : Option ConnTask}

/-- What there has been, and the state now. -/
def orNow (saw : Front → Prop) (s : Front) (x : Front) : Prop := saw x ∨ x = s

theorem orNow_of (h : saw s) : orNow saw s = saw := by
  funext x
  refine propext ⟨?_, .inl⟩
  rintro (hx | rfl)
  · exact hx
  · exact h

/-- An access that leaves the peak alone or raises it, to what it was to be raised to. -/
theorem Peaked.access (h : Peaked saw s running)
    (hpeak : s.peakClients ≤ s'.peakClients)
    (hreached : ∃ x, saw x ∧ x.clients = s'.peakClients)
    (haimed : ∀ r, next = some (.raise r) →
      r.Proper ∧ ∃ x, orNow saw s' x ∧ x.clients = r.target)
    (hkept : ∀ r, running t = some (.raise r) → r.target ≤ s'.peakClients ∨
      ∃ b, next = some (.raise b) ∧ r.target ≤ b.target)
    (hcovered : (∃ x, saw x ∧ s'.clients ≤ x.clients) ∨
      ∃ b, next = some (.raise b) ∧ s'.clients ≤ b.target) :
    Peaked (orNow saw s') s' (Function.update running t next) := by
  have hold : ∀ x, saw x → x.clients ≤ s'.peakClients ∨
      ∃ t' r, Function.update running t next t' = some (.raise r) ∧ x.clients ≤ r.target := by
    intro x hx
    rcases h.covered x hx with hle | ⟨t', r, hr, hle⟩
    · exact .inl (hle.trans hpeak)
    · by_cases ht : t' = t
      · subst ht
        rcases hkept r hr with hdone | ⟨b, hb, htarget⟩
        · exact .inl (hle.trans hdone)
        · exact .inr ⟨t', b, (Function.update_self ..).trans hb, hle.trans htarget⟩
      · exact .inr ⟨t', r, (Function.update_of_ne ht _ _).trans hr, hle⟩
  constructor
  · obtain ⟨x, hx, hclients⟩ := hreached
    exact ⟨x, .inl hx, hclients⟩
  · intro t' r hr
    by_cases ht : t' = t
    · subst ht
      rw [Function.update_self] at hr
      exact haimed r hr
    · rw [Function.update_of_ne ht] at hr
      obtain ⟨hproper, x, hx, htarget⟩ := h.aimed t' r hr
      exact ⟨hproper, x, .inl hx, htarget⟩
  · rintro x (hx | rfl)
    · exact hold x hx
    · rcases hcovered with ⟨y, hy, hle⟩ | ⟨b, hb, hle⟩
      · rcases hold y hy with hpeak | ⟨t', r, hr, hle'⟩
        · exact .inl (hle.trans hpeak)
        · exact .inr ⟨t', r, hr, hle.trans hle'⟩
      · exact .inr ⟨t, b, (Function.update_self ..).trans hb, hle⟩

/-- An access that has nothing to do with the peak, and counts no client. -/
theorem Peaked.plain (h : Peaked saw s running) (hsaw : saw s)
    (hpeak : s'.peakClients = s.peakClients) (hclients : s'.clients ≤ s.clients)
    (htask : ∀ r, running t ≠ some (.raise r)) (hnext : ∀ r, next ≠ some (.raise r)) :
    Peaked (orNow saw s') s' (Function.update running t next) := by
  refine h.access hpeak.ge ?_ (fun r hr => absurd hr (hnext r))
    (fun r hr => absurd hr (htask r)) (.inl ⟨s, hsaw, hclients⟩)
  rw [hpeak]
  exact h.reached

/-- A connection makes an access; it is uncounted only if clients are counted. -/
theorem Peaked.moves (h : Peaked saw s running) (hsaw : saw s) (hrunning : running t = some task)
    {after : ConnTask ⊕ Fate} (hmoves : Moves s task s' after)
    (hcounted : ∀ errors, task = .disconnect errors → 0 < s.connectedClients.toInt) :
    Peaked (orNow saw s') s' (Function.update running t (after.elim some fun _ => none)) := by
  have hother : ∀ {task' : ConnTask}, (∀ r, task' ≠ .raise r) → task = task' →
      ∀ r, running t ≠ some (.raise r) := by
    intro task' htask heq r hr
    rw [hrunning, Option.some.injEq] at hr
    exact htask r (heq.symm.trans hr)
  cases hmoves with
  | connect hpos =>
    refine h.access le_rfl h.reached (fun r hr => ?_)
      (fun r hr => absurd hr (hother (fun _ => by simp) rfl r)) ?_
    · cases hr
      exact ⟨trivial, _, .inr rfl, rfl⟩
    · exact .inr ⟨_, rfl, le_rfl⟩
  | unseen hneg =>
    refine h.plain hsaw rfl ?_ (hother (fun _ => by simp) rfl) (fun r hr => by cases hr)
    have hzero : (s.connectedClients + 1).toInt.toNat = 0 := by
      rw [Int.toNat_eq_zero]
      have hle := Int64.not_lt.mp hneg
      rwa [Int64.le_iff_toInt_le, Int64.toInt_zero] at hle
    exact hzero.le.trans (Nat.zero_le _)
  | look htarget hproper =>
    rename_i r b
    refine h.access le_rfl h.reached (fun r' hr' => ?_) (fun r' hr' => ?_)
      (.inl ⟨_, hsaw, le_rfl⟩)
    · cases hr'
      obtain ⟨-, x, hx, hclients⟩ := h.aimed t r hrunning
      exact ⟨hproper, x, .inl hx, hclients.trans htarget.symm⟩
    · rw [hrunning] at hr'
      cases hr'
      exact .inr ⟨b, rfl, htarget.ge⟩
  | raised hraised =>
    rename_i r peak
    obtain ⟨hproper, x, hx, hclients⟩ := h.aimed t r hrunning
    obtain ⟨htarget, hpeak, hwhich⟩ := hraised hproper
    refine h.access hpeak ?_ (fun r' hr' => by cases hr') (fun r' hr' => ?_)
      (.inl ⟨s, hsaw, le_rfl⟩)
    · rcases hwhich with hsame | hraise
      · obtain ⟨y, hy, hreached⟩ := h.reached
        exact ⟨y, hy, hreached.trans hsame.symm⟩
      · exact ⟨x, hx, hclients.trans hraise.symm⟩
    · rw [hrunning] at hr'
      cases hr'
      exact .inl htarget
  | disconnect errors =>
    refine h.plain hsaw rfl ?_ (hother (fun _ => by simp) rfl) (fun r hr => by cases hr)
    have hpos := hcounted errors rfl
    have hlt := Int64.toInt_lt s.connectedClients
    show (s.connectedClients - 1).toInt.toNat ≤ s.connectedClients.toInt.toNat
    have hpred : (s.connectedClients - 1).toInt = s.connectedClients.toInt - 1 := by
      rw [Int64.toInt_sub, Int64.toInt_one]
      exact Int.bmod_eq_of_le (by omega) (by omega)
    omega
  | _ =>
    exact h.plain hsaw rfl le_rfl (hother (fun _ => by simp) rfl) fun r hr => by cases hr

/-- The connections there have been so far. -/
abbrev Seen (maxConnections : Nat) (es : List (Threads.Event Accepted FrontInput)) :
    Front → Prop :=
  Saw sockets (start (new maxConnections)) es

variable {maxConnections : Nat} {es : List (Threads.Event Accepted FrontInput)}

theorem mostClients_mono {done : List (Threads.Event Accepted FrontInput)} (h : done <+: es) :
    mostClients maxConnections (serve maxConnections done) ≤
      mostClients maxConnections (serve maxConnections es) :=
  Nat.add_le_add_left (total_mono _ (trace_prefix_run sockets _ h)) _

/-- A connection that is about to be uncounted is counted. -/
theorem connected_pos (hmost : mostClients maxConnections (serve maxConnections es) < 2 ^ 63)
    {errors : Nat} (h : (serve maxConnections es).running t = some (.disconnect errors)) :
    0 < (serve maxConnections es).shared.connectedClients.toInt := by
  have hmem : t ∈ those ConnTask.connected (serve maxConnections es).running :=
    (Option.any_eq_true _ _).mpr ⟨_, h, rfl⟩
  have hpos := (Set.ncard_pos (finite_those sockets _ es _)).mpr ⟨t, hmem⟩
  have hle := uncounted_le maxConnections es
  rw [connectedClients_eq, Int64.toInt_ofNat_of_lt (hle.trans_lt hmost)]
  exact Int.natCast_pos.mpr (hpos.trans_le (Nat.le_add_right _ _))

theorem peaked_serve (hmost : mostClients maxConnections (serve maxConnections es) < 2 ^ 63) :
    Peaked (Seen maxConnections es) (serve maxConnections es).shared
      (serve maxConnections es).running := by
  induction es using List.reverseRecOn with
  | nil =>
    have hstart : Seen maxConnections [] (new maxConnections) := ⟨[], List.prefix_refl _, rfl⟩
    refine ⟨⟨_, hstart, rfl⟩, fun t r hr => (Option.noConfusion rfl (heq_of_eq hr)), ?_⟩
    rintro x ⟨done, hdone, rfl⟩
    rw [List.prefix_nil.mp hdone]
    exact .inl le_rfl
  | append_singleton es e ih =>
    have hsaw : Seen maxConnections (es ++ [e]) =
        orNow (Seen maxConnections es) (serve maxConnections (es ++ [e])).shared :=
      funext fun x => propext (saw_concat sockets _ es e x)
    have hnow : Seen maxConnections es (serve maxConnections es).shared :=
      ⟨es, List.prefix_refl _, rfl⟩
    have hrun : serve maxConnections (es ++ [e]) =
        (serve maxConnections es).perform sockets e := runAll_append es [e]
    replace hmost := (mostClients_mono (List.prefix_append es [e])).trans_lt hmost
    replace ih := ih hmost
    rw [hsaw, hrun]
    cases e with
    | call t i =>
      rw [Threads.perform]
      cases hrunning : (serve maxConnections es).running t with
      | some task =>
        rw [orNow_of hnow]
        exact ih
      | none =>
        exact ih.plain hnow rfl le_rfl (fun r hr => by rw [hrunning] at hr; cases hr)
          fun r hr => by cases i <;> cases hr
    | step t d =>
      cases hrunning : (serve maxConnections es).running t with
      | none =>
        rw [Threads.perform, hrunning, orNow_of hnow]
        exact ih
      | some task =>
        rw [shared_perform_step, running_perform_step hrunning, hrunning]
        exact ih.moves hnow hrunning (step_moves d _ task) fun errors htask =>
          connected_pos hmost (htask ▸ hrunning)

/-- The peak is a count that was reached, so at most as many more than the limit as connections
have panicked. When no connection is about to raise it, it is the greatest count there has
been. -/
theorem peak_clients (hmost : mostClients maxConnections (serve maxConnections es) < 2 ^ 63) :
    (serve maxConnections es).shared.peakClients ≤
        mostClients maxConnections (serve maxConnections es) ∧
      ((∀ t r, (serve maxConnections es).running t ≠ some (.raise r)) →
        IsGreatest {n | ∃ x, Saw sockets (start (new maxConnections)) es x ∧ x.clients = n}
          (serve maxConnections es).shared.peakClients) := by
  have h := peaked_serve hmost
  constructor
  · obtain ⟨x, ⟨done, hdone, rfl⟩, hpeak⟩ := h.reached
    have hlimit := connectedClients_le maxConnections done
    rw [← hpeak, clients]
    exact (Int.toNat_le.mpr hlimit).trans (mostClients_mono hdone)
  · intro hquiet
    refine ⟨h.reached, ?_⟩
    rintro n ⟨x, hx, rfl⟩
    rcases h.covered x hx with hle | ⟨t, r, hr, -⟩
    · exact hle
    · exact absurd hr (hquiet t r)

theorem peak_clients_onePanics :
    IsGreatest {n | ∃ x, Saw sockets (start (new 1)) onePanics x ∧ x.clients = n} 2 := by
  refine (@peak_clients 1 onePanics (by decide)).2 fun t r hr => ?_
  rw [running_onePanics] at hr
  cases hr

end Peak

end Front

end InMemoryCache
