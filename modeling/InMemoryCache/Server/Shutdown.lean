-- SUMMARY: The graceful shutdown, and which acknowledged writes the synced file holds.
import InMemoryCache.Aof.Writer
import InMemoryCache.Aof.Recovery

/-!
# Shutdown

`main` broadcasts the shutdown, syncs the append-only file and returns, which drops all
tasks. It does not wait for the connections, which may go on recording, applying and
acknowledging writes meanwhile. A record sent after the `Flush` of `main` is not in the
synced file.
-/

namespace InMemoryCache

open Lib Aof

/-- Where `main` stands: the accept loop, after the broadcast, in `sync` before and after
its `Flush` was sent (as message number `flush`), and returned. -/
inductive MainPhase where
  | serving
  | signalled
  | sending
  | syncing (flush : Nat)
  | returned (flush : Nat)

/-- A connection: the write it has recorded and not applied yet, and the writes whose
replies are in its output buffer. A write goes by the number of its record among the
messages sent to the writer. -/
structure Conn where
  recorded : Option Nat
  buffered : List Nat
  closed : Bool

/-- The number of the message with which `main` syncs, once it was sent. -/
def MainPhase.flush : MainPhase → Option Nat
  | .syncing q | .returned q => some q
  | _ => none

/-- The writes under way on a connection. -/
def Conn.writes (c : Conn) : List Nat := c.recorded.toList ++ c.buffered

/-- A connection reads its next command when it has applied the one before. -/
def Conn.ready (c : Conn) : Bool := c.recorded.isNone && !c.closed

/-- The server while it shuts down. `acked` are the records of the writes whose replies
were flushed to their clients. -/
structure Shutdown where
  aof : Pipeline
  main : MainPhase
  conns : Nat → Conn
  acked : List Nat

namespace Shutdown

/-- The server with a file that holds some content, and no command under way. -/
def start (file : Bytes) : Shutdown where
  aof := .start file
  main := .serving
  conns _ := { recorded := none, buffered := [], closed := false }
  acked := []

/-- What can happen: a connection records a write, applies it and buffers the reply, sends
the first replies of its buffer, or takes the shutdown signal; `main` broadcasts it, calls
`sync`, sends its `Flush`, or gets the reply and returns; the writer takes a message. -/
inductive Event where
  | record (conn : Nat) (frame : Frame)
  | apply (conn : Nat)
  | reply (conn : Nat) (count : Nat)
  | exit (conn : Nat)
  | signal
  | call
  | flush
  | return
  | receive (taken : Nat)

/-- An event while `main` runs; one that cannot happen changes nothing. -/
def step (s : Shutdown) : Event → Shutdown
  | .record conn frame =>
    if (s.conns conn).ready && s.aof.room then
      let c := { s.conns conn with recorded := some s.aof.sent.length }
      { s with aof := s.aof.perform (.record frame), conns := Function.update s.conns conn c }
    else s
  | .apply conn =>
    match (s.conns conn).recorded with
    | some pos =>
      let c := { s.conns conn with recorded := none, buffered := (s.conns conn).buffered ++ [pos] }
      { s with conns := Function.update s.conns conn c }
    | none => s
  | .reply conn count =>
    let c := { s.conns conn with buffered := (s.conns conn).buffered.drop count }
    { s with
      conns := Function.update s.conns conn c,
      acked := s.acked ++ (s.conns conn).buffered.take count }
  | .exit conn =>
    match s.main with
    | .serving => s
    | _ =>
      let c := { recorded := none, buffered := [], closed := true }
      { s with conns := Function.update s.conns conn c }
  | .signal =>
    match s.main with
    | .serving => { s with main := .signalled }
    | _ => s
  | .call =>
    match s.main with
    | .signalled => { s with aof := s.aof.perform .call, main := .sending }
    | _ => s
  | .flush =>
    match s.main with
    | .sending =>
      if s.aof.room then
        { s with aof := s.aof.perform (.flush 0), main := .syncing s.aof.sent.length }
      else s
    | _ => s
  | .return =>
    match s.main with
    | .syncing q =>
      if s.aof.replies.isEmpty then s
      else { s with aof := s.aof.perform (.return 0), main := .returned q }
    | _ => s
  | .receive taken => { s with aof := s.aof.perform (.receive taken) }

/-- Once `main` has returned, all tasks are gone. -/
def perform (s : Shutdown) (e : Event) : Shutdown :=
  match s.main with
  | .returned _ => s
  | _ => s.step e

/-- While `main` syncs, a write is acknowledged only if its record was sent before the
`Flush` of `main`. -/
def InTime (s : Shutdown) : Event → Prop
  | .reply conn count =>
    ∀ pos ∈ (s.conns conn).buffered.take count, ∀ q, s.main = .syncing q → pos < q
  | _ => True

/-- The synced file holds the record sent as message `pos`: it ends after a later one. -/
def Synced (file : Bytes) (s : Shutdown) (pos : Nat) : Prop :=
  ∃ n, s.aof.durable = file ++ content (s.aof.sent.take n) ∧ pos < n

/-! ## The channel and the phases -/

/-- The calls of `sync` that `main` has made in its phase. -/
def Calls (calls : List Call) : MainPhase → Prop
  | .serving | .signalled => calls = []
  | .sending => ∃ n, calls = [{ sentBefore := n, phase := .sending }]
  | .syncing _ => ∃ n, calls = [{ sentBefore := n, phase := .waiting }]
  | .returned _ => True

/-- What `main` has sent fits its phase, and every write is a record that was sent. -/
structure Consistent (file : Bytes) (s : Shutdown) : Prop where
  ordered : s.aof.Ordered file
  calls : Calls s.aof.calls s.main
  flushed : ∀ q, s.main.flush = some q → ∃ c, s.aof.sent[q]? = some (AofMsg.flush c)
  only : ∀ pos c, s.aof.sent[pos]? = some (AofMsg.flush c) → s.main.flush = some pos
  durable : ∀ q, s.main.flush = some q → q < s.aof.received →
    s.aof.durable = file ++ content (s.aof.sent.take q)
  replied : s.aof.replies ≠ [] → ∃ q, s.main.flush = some q ∧ q < s.aof.received
  returned : ∀ q, s.main = .returned q → q < s.aof.received
  writing : ∀ conn, ∀ pos ∈ (s.conns conn).writes,
    ∃ frame, s.aof.sent[pos]? = some (.record (record frame))
  acked : ∀ pos ∈ s.acked, ∃ frame, s.aof.sent[pos]? = some (.record (record frame))

theorem consistent_start (file : Bytes) : (start file).Consistent file where
  ordered := Pipeline.ordered_start file
  calls := rfl
  flushed q hq := by cases hq
  only pos c hpos := by cases hpos
  durable q hq := by cases hq
  replied h := absurd rfl h
  returned q hq := by cases hq
  writing conn pos hpos := by cases hpos
  acked pos hpos := by cases hpos

section Steps

variable {file : Bytes} {s : Shutdown}

/-- A record that was sent stays where it is when more is sent. -/
theorem sent_append {pos : Nat} {m : AofMsg} {sent : List AofMsg} (h : sent[pos]? = some m)
    (msg : AofMsg) : (sent ++ [msg])[pos]? = some m := by
  rw [List.getElem?_append_left (List.getElem?_eq_some_iff.mp h).1]
  exact h

theorem mem_writes_update {conns : Nat → Conn} {conn i pos : Nat} {c : Conn}
    (h : pos ∈ (Function.update conns conn c i).writes) : pos ∈ c.writes ∨ pos ∈ (conns i).writes := by
  by_cases hi : i = conn
  · subst hi
    rw [Function.update_self] at h
    exact .inl h
  · rw [Function.update_of_ne hi] at h
    exact .inr h

theorem consistent_record (h : s.Consistent file) (hroom : s.aof.room = true) (conn : Nat)
    (frame : Frame) :
    Consistent file
      { s with
        aof := s.aof.perform (.record frame),
        conns := Function.update s.conns conn
          { s.conns conn with recorded := some s.aof.sent.length } } := by
  have hsent : s.aof.perform (.record frame) = s.aof.send (.record (record frame)) := if_pos hroom
  have hordered := Pipeline.ordered_perform s.aof (.record frame) h.ordered
  rw [hsent] at hordered ⊢
  refine ⟨hordered, h.calls, fun q hq => ?_, fun pos c hpos => ?_, fun q hq hlt => ?_, h.replied,
    h.returned, fun i pos hpos => ?_, fun pos hpos => ?_⟩
  · obtain ⟨c, hc⟩ := h.flushed q hq
    exact ⟨c, sent_append hc _⟩
  · rcases Pipeline.getElem?_concat_eq hpos with hold | ⟨-, hnew⟩
    · exact h.only pos c hold
    · cases hnew
  · have hle : q ≤ s.aof.sent.length := hlt.le.trans h.ordered.received
    show s.aof.durable = file ++ content ((s.aof.sent ++ _).take q)
    rw [List.take_append_of_le_length hle]
    exact h.durable q hq hlt
  · have hwrites : pos = s.aof.sent.length ∨ ∃ c, pos ∈ (s.conns c).writes := by
      rcases mem_writes_update hpos with hnew | hold
      · rcases List.mem_cons.mp hnew with rfl | hbuffered
        · exact .inl rfl
        · exact .inr ⟨conn, List.mem_append_right _ hbuffered⟩
      · exact .inr ⟨i, hold⟩
    rcases hwrites with rfl | ⟨c, hold⟩
    · exact ⟨frame, List.getElem?_concat_length⟩
    · obtain ⟨f, hf⟩ := h.writing c pos hold
      exact ⟨f, sent_append hf _⟩
  · obtain ⟨f, hf⟩ := h.acked pos hpos
    exact ⟨f, sent_append hf _⟩

theorem consistent_flush (h : s.Consistent file) (hroom : s.aof.room = true)
    (hmain : s.main = .sending) :
    Consistent file
      { s with aof := s.aof.perform (.flush 0), main := .syncing s.aof.sent.length } := by
  have hcalls := h.calls
  have hnone : s.main.flush = none := by rw [hmain]; rfl
  rw [hmain] at hcalls
  obtain ⟨n, hcalls⟩ := hcalls
  have hordered := Pipeline.ordered_perform s.aof (.flush 0) h.ordered
  have hsent : s.aof.perform (.flush 0) =
      { s.aof.send (.flush 0) with calls := [{ sentBefore := n, phase := .waiting }] } := by
    rw [Pipeline.perform, hcalls]
    exact if_pos ⟨rfl, hroom⟩
  rw [hsent] at hordered ⊢
  refine ⟨hordered, ⟨n, rfl⟩, fun q hq => ?_, fun pos c hpos => ?_, fun q hq hlt => ?_,
    fun hne => ?_, fun q hq => ?_, fun c pos hpos => ?_, fun pos hpos => ?_⟩
  · cases hq
    exact ⟨0, List.getElem?_concat_length⟩
  · rcases Pipeline.getElem?_concat_eq hpos with hold | ⟨rfl, -⟩
    · have hflush := h.only pos c hold
      rw [hnone] at hflush
      cases hflush
    · rfl
  · cases hq
    exact absurd hlt (Nat.not_lt.mpr h.ordered.received)
  · obtain ⟨q, hq, -⟩ := h.replied hne
    rw [hnone] at hq
    cases hq
  · cases hq
  · obtain ⟨f, hf⟩ := h.writing c pos hpos
    exact ⟨f, sent_append hf _⟩
  · obtain ⟨f, hf⟩ := h.acked pos hpos
    exact ⟨f, sent_append hf _⟩

theorem consistent_receive (h : s.Consistent file) (taken : Nat) :
    Consistent file { s with aof := s.aof.perform (.receive taken) } := by
  have hordered := Pipeline.ordered_perform s.aof (.receive taken) h.ordered
  have hperform : s.aof.perform (.receive taken) = s.aof.receive taken := rfl
  rw [hperform, Pipeline.receive] at hordered ⊢
  cases hmsg : s.aof.sent[s.aof.received]? with
  | none => exact h
  | some msg =>
    rw [hmsg] at hordered
    cases msg with
    | record bytes =>
      refine ⟨hordered, h.calls, h.flushed, h.only, fun q hq hlt => ?_, fun hne => ?_,
        fun q hq => ?_, h.writing, h.acked⟩
      · rcases Nat.lt_succ_iff_lt_or_eq.mp hlt with hlt | rfl
        · exact h.durable q hq hlt
        · obtain ⟨c, hc⟩ := h.flushed _ hq
          rw [hmsg] at hc
          cases hc
      · obtain ⟨q, hq, hlt⟩ := h.replied hne
        exact ⟨q, hq, Nat.lt_succ_of_lt hlt⟩
      · exact Nat.lt_succ_of_lt (h.returned q hq)
    | flush c =>
      have hflush := h.only _ c hmsg
      refine ⟨hordered, h.calls, h.flushed, h.only, fun q hq hlt => ?_, fun _ => ?_,
        fun q hq => ?_, h.writing, h.acked⟩
      · have hq : s.main.flush = some q := hq
        rw [hflush, Option.some.injEq] at hq
        subst hq
        exact h.ordered.written
      · exact ⟨_, hflush, Nat.lt_succ_self _⟩
      · exact Nat.lt_succ_of_lt (h.returned q hq)

/-- That a call returns changes nothing else. -/
theorem return_frame (a : Pipeline) (c : Nat) :
    (a.perform (.return c)).sent = a.sent ∧ (a.perform (.return c)).received = a.received ∧
      (a.perform (.return c)).durable = a.durable ∧
        (a.perform (.return c)).replies = a.replies := by
  rw [Pipeline.perform]
  split
  · split <;> exact ⟨rfl, rfl, rfl, rfl⟩
  · exact ⟨rfl, rfl, rfl, rfl⟩

/-- `main` moves on without sending anything. -/
theorem consistent_main (h : s.Consistent file) {a : Pipeline} {main : MainPhase}
    (hordered : a.Ordered file) (hframe : a.sent = s.aof.sent ∧ a.received = s.aof.received ∧
      a.durable = s.aof.durable ∧ a.replies = s.aof.replies)
    (hcalls : Calls a.calls main) (hflush : main.flush = s.main.flush)
    (hreturned : ∀ q, main = .returned q → q < s.aof.received) :
    Consistent file { s with aof := a, main := main } := by
  obtain ⟨hsent, hreceived, hdurable, hreplies⟩ := hframe
  refine ⟨hordered, hcalls, fun q hq => ?_, fun pos c hpos => ?_, fun q hq hlt => ?_, fun hne => ?_,
    fun q hq => hreceived ▸ hreturned q hq, fun c pos hpos => hsent ▸ h.writing c pos hpos,
    fun pos hpos => hsent ▸ h.acked pos hpos⟩
  · exact hsent ▸ h.flushed q (hflush ▸ hq)
  · exact hflush.trans (h.only pos c (hsent ▸ hpos))
  · exact hdurable ▸ hsent ▸ h.durable q (hflush ▸ hq) (hreceived ▸ hlt)
  · obtain ⟨q, hq, hlt⟩ := h.replied (hreplies ▸ hne)
    exact ⟨q, hflush.trans hq, hreceived ▸ hlt⟩

/-- A connection moves on with some of the writes it has. -/
theorem consistent_conn (h : s.Consistent file) {conn : Nat} {c : Conn}
    (hwrites : ∀ pos ∈ c.writes, pos ∈ (s.conns conn).writes) {acked : List Nat}
    (hacked : ∀ pos ∈ acked, pos ∈ s.acked ∨ pos ∈ (s.conns conn).writes) :
    Consistent file { s with conns := Function.update s.conns conn c, acked := acked } := by
  refine ⟨h.ordered, h.calls, h.flushed, h.only, h.durable, h.replied, h.returned,
    fun i pos hpos => ?_, fun pos hpos => ?_⟩
  · rcases mem_writes_update hpos with hnew | hold
    · exact h.writing conn pos (hwrites pos hnew)
    · exact h.writing i pos hold
  · rcases hacked pos hpos with hold | hnew
    · exact h.acked pos hold
    · exact h.writing conn pos hnew

/-- The position moves from the recorded to the buffered ones. -/
theorem consistent_apply (h : s.Consistent file) (conn : Nat) :
    (s.step (.apply conn)).Consistent file := by
  rw [step]
  split
  · rename_i pos hrecorded
    refine consistent_conn h (fun p hp => ?_) fun p hp => .inl hp
    have hp : p ∈ (s.conns conn).buffered ++ [pos] := hp
    rw [Conn.writes, hrecorded]
    rcases List.mem_append.mp hp with hold | hnew
    · exact List.mem_cons_of_mem _ hold
    · rw [List.mem_singleton.mp hnew]
      exact List.mem_cons_self
  · exact h

/-- What is acknowledged now was buffered. -/
theorem consistent_reply (h : s.Consistent file) (conn count : Nat) :
    (s.step (.reply conn count)).Consistent file := by
  have hmem : ∀ p ∈ (s.conns conn).buffered, p ∈ (s.conns conn).writes :=
    fun p hp => List.mem_append_right _ hp
  refine consistent_conn h (fun p hp => ?_) fun p hp => ?_
  · rcases List.mem_append.mp hp with hrecorded | hbuffered
    · exact List.mem_append_left _ hrecorded
    · exact hmem p (List.mem_of_mem_drop hbuffered)
  · rcases List.mem_append.mp hp with hold | hnew
    · exact .inl hold
    · exact .inr (hmem p (List.mem_of_mem_take hnew))

theorem consistent_signal (h : s.Consistent file) : (s.step .signal).Consistent file := by
  rw [step]
  split
  · rename_i hmain
    have hcalls := h.calls
    rw [hmain] at hcalls
    exact consistent_main h h.ordered ⟨rfl, rfl, rfl, rfl⟩ hcalls (by rw [hmain]; rfl)
      fun q hq => by cases hq
  · exact h

/-- The last flush is the only call there is. -/
theorem consistent_call (h : s.Consistent file) : (s.step .call).Consistent file := by
  rw [step]
  split
  · rename_i hmain
    have hcalls := h.calls
    rw [hmain] at hcalls
    have hmade : (s.aof.perform .call).calls =
        [{ sentBefore := s.aof.sent.length, phase := .sending }] := by
      rw [Pipeline.perform, show s.aof.calls = [] from hcalls]
      rfl
    exact consistent_main h (Pipeline.ordered_perform s.aof .call h.ordered) ⟨rfl, rfl, rfl, rfl⟩
      ⟨_, hmade⟩ (by rw [hmain]; rfl) fun q hq => by cases hq
  · exact h

/-- The call returns on a reply, and the writer replies once the flush is behind it. -/
theorem consistent_return (h : s.Consistent file) : (s.step .return).Consistent file := by
  rw [step]
  split
  · rename_i q hmain
    split
    · exact h
    · rename_i hreplies
      have hflush : s.main.flush = some q := by rw [hmain]; rfl
      obtain ⟨q', hq', hlt⟩ := h.replied fun hnil => hreplies (by rw [hnil]; rfl)
      rw [hflush, Option.some.injEq] at hq'
      subst hq'
      refine consistent_main h (Pipeline.ordered_perform s.aof (.return 0) h.ordered)
        (return_frame s.aof 0) trivial hflush.symm fun r hr => ?_
      cases hr
      exact hlt
  · exact h

theorem consistent_step (s : Shutdown) (e : Event) (h : s.Consistent file) :
    (s.step e).Consistent file := by
  cases e with
  | record conn frame =>
    rw [step]
    split
    · rename_i hready
      exact consistent_record h (Bool.and_eq_true_iff.mp hready).2 conn frame
    · exact h
  | apply conn => exact consistent_apply h conn
  | reply conn count => exact consistent_reply h conn count
  | exit conn =>
    rw [step]
    split
    · exact h
    · exact consistent_conn h (fun p hp => by cases hp) fun p hp => .inl hp
  | signal => exact consistent_signal h
  | call => exact consistent_call h
  | flush =>
    rw [step]
    split
    · rename_i hmain
      split
      · rename_i hroom
        exact consistent_flush h hroom hmain
      · exact h
    · exact h
  | «return» => exact consistent_return h
  | receive taken => exact consistent_receive h taken

theorem consistent_perform (s : Shutdown) (e : Event) (h : s.Consistent file) :
    (s.perform e).Consistent file := by
  rw [perform]
  split
  · exact h
  · exact consistent_step s e h

end Steps

/-! ## Acknowledged writes -/

/-- Every acknowledged write was recorded before the `Flush` of `main`, if that was sent. -/
def AllInTime (s : Shutdown) : Prop := ∀ pos ∈ s.acked, ∀ q, s.main.flush = some q → pos < q

theorem allInTime_congr {s s' : Shutdown} (hacked : s'.acked = s.acked)
    (hflush : s'.main.flush = s.main.flush) : s'.AllInTime ↔ s.AllInTime := by
  rw [AllInTime, AllInTime, hacked, hflush]

/-- Only an acknowledgement and the `Flush` of `main` matter. -/
theorem step_frame (s : Shutdown) (e : Event) (hreply : ∀ conn count, e ≠ .reply conn count)
    (hflush : e ≠ .flush) :
    (s.step e).acked = s.acked ∧ (s.step e).main.flush = s.main.flush := by
  cases e with
  | reply conn count => exact absurd rfl (hreply conn count)
  | flush => exact absurd rfl hflush
  | record conn frame => rw [step]; split <;> exact ⟨rfl, rfl⟩
  | apply conn => rw [step]; split <;> exact ⟨rfl, rfl⟩
  | exit conn => rw [step]; split <;> exact ⟨rfl, rfl⟩
  | signal =>
    rw [step]
    split
    · rename_i hmain
      exact ⟨rfl, by rw [hmain]; rfl⟩
    · exact ⟨rfl, rfl⟩
  | call =>
    rw [step]
    split
    · rename_i hmain
      exact ⟨rfl, by rw [hmain]; rfl⟩
    · exact ⟨rfl, rfl⟩
  | «return» =>
    rw [step]
    split
    · rename_i q hmain
      split
      · exact ⟨rfl, rfl⟩
      · exact ⟨rfl, by rw [hmain]; rfl⟩
    · exact ⟨rfl, rfl⟩
  | receive taken => exact ⟨rfl, rfl⟩

theorem allInTime_reply (s : Shutdown) (conn count : Nat) (hrunning : ∀ q, s.main ≠ .returned q) :
    (s.step (.reply conn count)).AllInTime ↔ s.AllInTime ∧ s.InTime (.reply conn count) := by
  have hsyncing : ∀ q, s.main.flush = some q ↔ s.main = .syncing q := by
    intro q
    cases hmain : s.main with
    | returned r => exact absurd hmain (hrunning r)
    | syncing r => simp [MainPhase.flush]
    | _ => simp [MainPhase.flush]
  simp only [step, InTime, AllInTime, hsyncing, List.forall_mem_append]

theorem allInTime_flush {file : Bytes} {s : Shutdown} (h : s.Consistent file) :
    (s.step .flush).AllInTime ↔ s.AllInTime := by
  rw [step]
  split
  · rename_i hmain
    split
    · have hnone : s.main.flush = none := by rw [hmain]; rfl
      refine ⟨fun _ pos _ q hq => ?_, fun _ pos hpos q hq => ?_⟩
      · rw [hnone] at hq
        cases hq
      · -- what was acknowledged was sent
        obtain ⟨frame, hframe⟩ := h.acked pos hpos
        cases hq
        exact (List.getElem?_eq_some_iff.mp hframe).1
    · exact Iff.rfl
  · exact Iff.rfl

theorem allInTime_perform {file : Bytes} {s : Shutdown} (h : s.Consistent file) (e : Event) :
    (s.perform e).AllInTime ↔ s.AllInTime ∧ s.InTime e := by
  rw [perform]
  split
  · rename_i q hmain
    have htrivial : s.InTime e := by
      cases e with
      | reply conn count =>
        intro pos _ q' hq'
        rw [hmain] at hq'
        cases hq'
      | _ => trivial
    exact ⟨fun hs => ⟨hs, htrivial⟩, fun hs => hs.1⟩
  · rename_i hrunning
    have hframe (hreply : ∀ conn count, e ≠ .reply conn count) (hflush : e ≠ .flush) :
        (s.step e).AllInTime ↔ s.AllInTime :=
      allInTime_congr (step_frame s e hreply hflush).1 (step_frame s e hreply hflush).2
    cases e with
    | reply conn count => exact allInTime_reply s conn count hrunning
    | flush => exact (allInTime_flush h).trans (and_iff_left trivial).symm
    | record | apply | exit | signal | call | «return» | receive =>
      exact (hframe nofun nofun).trans (and_iff_left trivial).symm

theorem consistent_run (file : Bytes) (es : List Event) :
    (runAll perform (start file) es).Consistent file :=
  runAll_invariant consistent_perform (consistent_start file) es

theorem allowed_iff_allInTime (file : Bytes) (es : List Event) :
    Allowed perform InTime (start file) es ↔ (runAll perform (start file) es).AllInTime := by
  induction es using List.reverseRecOn with
  | nil => exact ⟨fun _ => nofun, fun _ => trivial⟩
  | append_singleton es e ih =>
    rw [allowed_append, runAll_append, ih]
    exact (and_congr_right fun _ => and_iff_left trivial).trans
      (allInTime_perform (consistent_run file es) e).symm

/-- A file that ends right before message `q` holds the records sent before it. -/
theorem synced_iff {file : Bytes} {s : Shutdown} (h : s.Consistent file) {q pos : Nat}
    (hq : s.main.flush = some q) (hlt : q < s.aof.received) (hpos : pos ∈ s.acked) :
    s.Synced file pos ↔ pos < q := by
  constructor
  · rintro ⟨n, hdurable, hn⟩
    obtain ⟨frame, hframe⟩ := h.acked pos hpos
    obtain ⟨c, hflush⟩ := h.flushed q hq
    by_contra hle
    have hne : q ≠ pos := by
      rintro rfl
      rw [hframe] at hflush
      cases hflush
    have hbefore : q ≤ pos := Nat.not_lt.mp hle
    rw [h.durable q hq hlt, List.append_cancel_left_eq] at hdurable
    -- the record is between the end of the file and message `n`
    have hrecord := Pipeline.take_succ_of_getElem? hframe
    have hfirst := length_content_mono s.aof.sent hbefore
    have hsecond := length_content_mono s.aof.sent hn
    have hbytes := Frame.writeToBuf_length_pos frame
    rw [hrecord, List.length_append, ← hdurable] at hsecond
    have hsize : (AofMsg.record (record frame)).bytes.length = frame.writeToBuf.length := rfl
    omega
  · intro hlt'
    exact ⟨q, h.durable q hq hlt, hlt'⟩

/-- When `main` returns, the synced file holds the record of every acknowledged write if and
only if no write was acknowledged that had been recorded after the `Flush` of `main`. -/
theorem synced_iff_inTime (file : Bytes) (es : List Event) {q : Nat}
    (hreturned : (runAll perform (start file) es).main = .returned q) :
    (∀ pos ∈ (runAll perform (start file) es).acked,
        (runAll perform (start file) es).Synced file pos) ↔
      Allowed perform InTime (start file) es := by
  have h := consistent_run file es
  have hq : (runAll perform (start file) es).main.flush = some q := by
    rw [hreturned]
    rfl
  rw [allowed_iff_allInTime]
  constructor
  · intro hsynced pos hpos q' hq'
    rw [hq, Option.some.injEq] at hq'
    subst hq'
    exact (synced_iff h hq (h.returned q hreturned) hpos).mp (hsynced pos hpos)
  · intro hall pos hpos
    exact (synced_iff h hq (h.returned q hreturned) hpos).mpr (hall pos hpos q hq)

/-- A connection that serves one `SET k v` from its record to its reply. -/
def oneWrite : List Event :=
  [.record 0 (.array [.bulk [83, 69, 84], .bulk [107], .bulk [118]]), .apply 0, .reply 0 1]

/-- The steps of `main`, with those of the writer and of the connections before and after its
`Flush`. -/
def shutDown (before after : List Event) : List Event :=
  before ++ [.signal, .call, .flush] ++ after ++ [.receive 0, .receive 0, .return]

/-- A write that was recorded before the `Flush`, and may be acknowledged after it. -/
theorem synced_iff_inTime_before :
    (∀ pos ∈ (runAll perform (start []) (shutDown oneWrite [])).acked,
        (runAll perform (start []) (shutDown oneWrite [])).Synced [] pos) ↔
      Allowed perform InTime (start []) (shutDown oneWrite []) :=
  synced_iff_inTime [] (shutDown oneWrite []) (q := 1) (by with_unfolding_all rfl)

/-- A connection that the signal has not stopped yet writes after the `Flush`: `main` returns
with an acknowledged write that is not in the file. -/
theorem acked_after_flush_not_synced :
    let s := runAll perform (start []) (shutDown [] oneWrite)
    s.main = .returned 0 ∧ s.acked = [1] ∧ ¬ s.Synced [] 1 := by
  have hmain : (runAll perform (start []) (shutDown [] oneWrite)).main = .returned 0 := by
    with_unfolding_all rfl
  have hacked : (runAll perform (start []) (shutDown [] oneWrite)).acked = [1] := by
    with_unfolding_all rfl
  have h := consistent_run [] (shutDown [] oneWrite)
  refine ⟨hmain, hacked, fun hsynced => ?_⟩
  have hflush : (runAll perform (start []) (shutDown [] oneWrite)).main.flush = some 0 := by
    rw [hmain]
    rfl
  exact absurd
    ((synced_iff h hflush (h.returned 0 hmain) (hacked ▸ List.mem_singleton_self 1)).mp hsynced)
    (Nat.not_lt_zero 1)

end Shutdown

end InMemoryCache
