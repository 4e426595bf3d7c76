-- SUMMARY: process_connection as a machine over reads, and when replies reach the client.
import InMemoryCache.Lib.Run
import InMemoryCache.Server.Request
import InMemoryCache.Wire.Connection

/-!
# Sessions

`process_connection` reads requests off its buffer and buffers the replies. It flushes
after an executed request that leaves the read buffer empty, after a rejected one, and
at a clean end. A session is quiet when it waits for the socket or has returned; the
question is what the client has been sent by then.
-/

namespace InMemoryCache

open Lib

/-! ## process_connection -/

/-- Where `process_connection` stands. -/
inductive Phase where
  /-- About to look for a frame in the read buffer. -/
  | reading
  /-- Waiting for the socket. -/
  | waiting
  | finished (ending : Connection.Ending)
  | subscriber (channels : List String)
  | panicked
  deriving DecidableEq

/-- Waiting for the client, or returned. -/
def Phase.quiet : Phase → Bool
  | .waiting | .finished _ => true
  | _ => false

/-- A connection with the store it shares. `sent` is what went out to the socket, and
`replies` the replies made so far. -/
structure Session (cfg : Config) where
  phase : Phase
  buffer : Bytes
  pending : Bytes
  sent : Bytes
  replies : List Frame
  db : Db cfg
  pubsub : PubSub

namespace Session

variable {cfg : Config}

/-- A new connection, about to read its first frame. -/
def new (db : Db cfg) (pubsub : PubSub) : Session cfg where
  phase := .reading
  buffer := []
  pending := []
  sent := []
  replies := []
  db := db
  pubsub := pubsub

/-- `has_queued_bytes` -/
def hasQueuedBytes (s : Session cfg) : Bool := !s.buffer.isEmpty

/-- `write_frame_buffered` -/
def writeFrameBuffered (taken : Nat) (frame : Frame) (s : Session cfg) : Session cfg :=
  let (out, kept) := writeAll taken s.pending frame.writeToBuf
  { s with sent := s.sent ++ out, pending := kept, replies := s.replies ++ [frame] }

/-- `flush` -/
def flush (s : Session cfg) : Session cfg := { s with sent := s.sent ++ s.pending, pending := [] }

/-- `write_frame` -/
def writeFrame (taken : Nat) (frame : Frame) (s : Session cfg) : Session cfg :=
  (s.writeFrameBuffered taken frame).flush

/-- Answer an executed request: the flush waits until the socket input is exhausted. -/
def respond (taken : Nat) (frame : Frame) (s : Session cfg) : Session cfg :=
  let s := s.writeFrameBuffered taken frame
  if s.hasQueuedBytes then s else s.flush

/-- One turn of the loop: take a request off the read buffer and answer it, or find that
there is no whole one. A malformed frame ends the connection by `?`. -/
def turn [Unicode] (ctx : Ctx) (taken : Nat) (s : Session cfg) : Session cfg :=
  match Connection.parseFrame s.buffer with
  | .ok none => { s with phase := .waiting }
  | .error e => { s with phase := .finished (.malformed e) }
  | .ok (some (frame, rest)) =>
    match handle ctx s.db s.pubsub frame with
    | .rejected err => writeFrame taken err { s with buffer := rest }
    | .subscribed channels => { s with buffer := rest, phase := .subscriber channels }
    | .replied _ response db pubsub =>
      respond taken response { s with buffer := rest, db := db, pubsub := pubsub }
    | .panicked => { s with buffer := rest, phase := .panicked }

/-- What the socket returns to a waiting `read_frame`; no bytes are the end of the stream. -/
def receive (chunk : Bytes) (s : Session cfg) : Session cfg :=
  if chunk.isEmpty then
    if s.buffer.isEmpty then { s.flush with phase := .finished .closed }
    else { s with phase := .finished .reset }
  else { s with phase := .reading, buffer := s.buffer ++ chunk }

/-- What can happen to a session: it takes a turn, the socket returns bytes, or others
change the store they share. -/
inductive Event (cfg : Config) where
  | turn (ctx : Ctx) (taken : Nat)
  | receive (chunk : Bytes)
  | others (db : Db cfg) (pubsub : PubSub)

/-- An event; one that the phase does not admit changes nothing. -/
def perform [Unicode] (s : Session cfg) : Event cfg → Session cfg
  | .turn ctx taken => if s.phase = .reading then s.turn ctx taken else s
  | .receive chunk => if s.phase = .waiting then s.receive chunk else s
  | .others db pubsub => { s with db := db, pubsub := pubsub }

/-! ## Replies reach the client -/

/-- The bytes buffered begin with a whole frame. -/
def WholeFrame (buffer : Bytes) : Prop :=
  ∃ frame rest, Connection.parseFrame buffer = .ok (some (frame, rest))

/-- All replies are accounted for, and unsent ones only wait for a request that is whole. -/
structure Prompt (s : Session cfg) : Prop where
  accounted : s.sent ++ s.pending = s.replies.flatMap Frame.writeToBuf
  flushed : s.pending = [] ∨ s.phase.quiet = false ∧ (s.phase = .reading → WholeFrame s.buffer)

theorem prompt_new (db : Db cfg) (pubsub : PubSub) : (new db pubsub).Prompt where
  accounted := rfl
  flushed := .inl rfl

theorem Prompt.sent_eq {s : Session cfg} (h : s.Prompt) (hquiet : s.phase.quiet = true) :
    s.sent = s.replies.flatMap Frame.writeToBuf := by
  have hpending : s.pending = [] := h.flushed.resolve_right fun hbusy => by
    rw [hquiet] at hbusy
    cases hbusy.1
  rw [← h.accounted, hpending, List.append_nil]

/-- A session about to read that has no whole frame has sent everything. -/
theorem Prompt.pending_eq_nil {s : Session cfg} (h : s.Prompt) (hphase : s.phase = .reading)
    (hnone : ¬ WholeFrame s.buffer) : s.pending = [] :=
  h.flushed.resolve_right fun hbusy => hnone (hbusy.2 hphase)

section Writes

variable {s : Session cfg}

@[simp] theorem phase_writeFrameBuffered (taken : Nat) (frame : Frame) :
    (s.writeFrameBuffered taken frame).phase = s.phase := rfl

@[simp] theorem buffer_writeFrameBuffered (taken : Nat) (frame : Frame) :
    (s.writeFrameBuffered taken frame).buffer = s.buffer := rfl

theorem accounted_writeFrameBuffered (h : s.sent ++ s.pending = s.replies.flatMap Frame.writeToBuf)
    (taken : Nat) (frame : Frame) :
    (s.writeFrameBuffered taken frame).sent ++ (s.writeFrameBuffered taken frame).pending =
      (s.writeFrameBuffered taken frame).replies.flatMap Frame.writeToBuf := by
  simp only [writeFrameBuffered, List.append_assoc, writeAll_append, List.flatMap_append,
    List.flatMap_singleton, ← h]

theorem prompt_flush (h : s.sent ++ s.pending = s.replies.flatMap Frame.writeToBuf) :
    s.flush.Prompt where
  accounted := by
    rw [flush, List.append_nil]
    exact h
  flushed := .inl rfl

theorem prompt_respond (h : s.sent ++ s.pending = s.replies.flatMap Frame.writeToBuf)
    (hphase : s.phase = .reading) (hrest : s.buffer = [] ∨ WholeFrame s.buffer) (taken : Nat)
    (frame : Frame) : (s.respond taken frame).Prompt := by
  have hwritten := accounted_writeFrameBuffered h taken frame
  rw [respond]
  split
  · rename_i hqueued
    have hwhole : WholeFrame s.buffer := hrest.resolve_left fun hnil => by
      rw [hasQueuedBytes, buffer_writeFrameBuffered, hnil] at hqueued
      cases hqueued
    refine ⟨hwritten, .inr ⟨?_, fun _ => hwhole⟩⟩
    rw [phase_writeFrameBuffered, hphase]
    rfl
  · exact prompt_flush hwritten

end Writes

theorem prompt_receive {s : Session cfg} (h : s.Prompt) (hphase : s.phase = .waiting)
    (chunk : Bytes) : (s.receive chunk).Prompt := by
  have hpending : s.pending = [] := h.flushed.resolve_right fun hbusy => by
    rw [hphase] at hbusy
    cases hbusy.1
  rw [receive]
  split
  · split
    · exact ⟨(prompt_flush h.accounted).accounted, .inl rfl⟩
    · exact ⟨h.accounted, .inl hpending⟩
  · exact ⟨h.accounted, .inl hpending⟩

section Runs

variable [Unicode]

/-- A turn that executes a request leaves nothing behind, or a whole frame first. -/
def Calm (s : Session cfg) : Event cfg → Prop
  | .turn ctx _ => ∀ frame rest recorded response db pubsub,
      Connection.parseFrame s.buffer = .ok (some (frame, rest)) →
        handle ctx s.db s.pubsub frame = .replied recorded response db pubsub →
          rest = [] ∨ WholeFrame rest
  | _ => True

/-- Without a whole frame a turn makes the session quiet and does nothing else. -/
theorem turn_of_not_whole {s : Session cfg} (h : ¬ WholeFrame s.buffer) (ctx : Ctx) (taken : Nat) :
    ∃ phase : Phase, phase.quiet = true ∧ s.turn ctx taken = { s with phase := phase } := by
  rw [turn]
  cases hparse : Connection.parseFrame s.buffer with
  | error e => exact ⟨_, rfl, rfl⟩
  | ok found =>
    cases found with
    | none => exact ⟨_, rfl, rfl⟩
    | some found => exact absurd ⟨found.1, found.2, hparse⟩ h

theorem turn_of_frame {s : Session cfg} {frame : Frame} {rest : Bytes}
    (h : Connection.parseFrame s.buffer = .ok (some (frame, rest))) (ctx : Ctx) (taken : Nat) :
    s.turn ctx taken =
      match handle ctx s.db s.pubsub frame with
      | .rejected err => writeFrame taken err { s with buffer := rest }
      | .subscribed channels => { s with buffer := rest, phase := .subscriber channels }
      | .replied _ response db pubsub =>
        respond taken response { s with buffer := rest, db := db, pubsub := pubsub }
      | .panicked => { s with buffer := rest, phase := .panicked } := by
  rw [turn, h]

theorem prompt_turn {s : Session cfg} (h : s.Prompt) (hphase : s.phase = .reading) {ctx : Ctx}
    {taken : Nat} (hcalm : s.Calm (.turn ctx taken)) : (s.turn ctx taken).Prompt := by
  by_cases hwhole : WholeFrame s.buffer
  · obtain ⟨frame, rest, hparse⟩ := hwhole
    rw [turn_of_frame hparse]
    cases hhandle : handle ctx s.db s.pubsub frame with
    | rejected err => exact prompt_flush (accounted_writeFrameBuffered h.accounted taken err)
    | subscribed channels => exact ⟨h.accounted, .inr ⟨rfl, fun hread => by cases hread⟩⟩
    | panicked => exact ⟨h.accounted, .inr ⟨rfl, fun hread => by cases hread⟩⟩
    | replied recorded response db pubsub =>
      have hrest := hcalm frame rest recorded response db pubsub hparse hhandle
      exact prompt_respond (s := { s with buffer := rest, db := db, pubsub := pubsub }) h.accounted
        hphase hrest taken response
  · obtain ⟨phase, -, hturn⟩ := turn_of_not_whole hwhole ctx taken
    rw [hturn]
    exact ⟨h.accounted, .inl (h.pending_eq_nil hphase hwhole)⟩

theorem prompt_perform (s : Session cfg) (e : Event cfg) (h : s.Prompt) (hcalm : s.Calm e) :
    (s.perform e).Prompt := by
  cases e with
  | turn ctx taken =>
    rw [perform]
    split
    · rename_i hphase
      exact prompt_turn h hphase hcalm
    · exact h
  | receive chunk =>
    rw [perform]
    split
    · rename_i hphase
      exact prompt_receive h hphase chunk
    · exact h
  | others db pubsub => exact ⟨h.accounted, h.flushed⟩

/-- In a run in which every executed request leaves nothing behind in the read buffer, or
a whole frame first, the client has been sent exactly the replies made so far whenever
the session waits for it or has returned. -/
theorem sent_of_calm {db : Db cfg} {pubsub : PubSub} {es : List (Event cfg)}
    (h : Allowed perform Calm (new db pubsub) es)
    (hquiet : (runAll perform (new db pubsub) es).phase.quiet = true) :
    (runAll perform (new db pubsub) es).sent =
      (runAll perform (new db pubsub) es).replies.flatMap Frame.writeToBuf :=
  (h.invariant prompt_perform (prompt_new db pubsub)).sent_eq hquiet

theorem calm_of_none {s : Session cfg} (h : Connection.parseFrame s.buffer = .ok none) (ctx : Ctx)
    (taken : Nat) : s.Calm (.turn ctx taken) := by
  intro frame rest recorded response db pubsub hparse
  rw [h] at hparse
  cases hparse

theorem calm_of_frame {s : Session cfg} {frame : Frame} {rest : Bytes}
    (h : Connection.parseFrame s.buffer = .ok (some (frame, rest)))
    (hrest : rest = [] ∨ WholeFrame rest) (ctx : Ctx) (taken : Nat) : s.Calm (.turn ctx taken) := by
  intro frame' rest' recorded response db pubsub hparse _
  rw [h] at hparse
  cases hparse
  exact hrest

/-- Otherwise the reply is withheld: if an executed request leaves bytes that do not begin
with a whole frame, and its reply fits the write buffer, the next turn is quiet with the
reply unsent. -/
theorem withheld_of_not_whole {s : Session cfg} (h : s.Prompt) {ctx ctx' : Ctx}
    {taken taken' : Nat} {frame response : Frame} {rest : Bytes} {recorded : Bool} {db : Db cfg}
    {pubsub : PubSub} (hparse : Connection.parseFrame s.buffer = .ok (some (frame, rest)))
    (hhandle : handle ctx s.db s.pubsub frame = .replied recorded response db pubsub)
    (hrest : rest ≠ []) (hnone : ¬ WholeFrame rest)
    (hfits : s.pending.length + response.writeToBuf.length < bufWriterCapacity) :
    ((s.turn ctx taken).turn ctx' taken').phase.quiet = true ∧
      ((s.turn ctx taken).turn ctx' taken').sent ≠
        ((s.turn ctx taken).turn ctx' taken').replies.flatMap Frame.writeToBuf := by
  have hqueued : rest.isEmpty = false := List.isEmpty_eq_false_iff.mpr hrest
  have hwritten : writeAll taken s.pending response.writeToBuf =
      ([], s.pending ++ response.writeToBuf) := by
    rw [writeAll, if_pos ⟨by omega, by omega⟩]
  have hfirst : s.turn ctx taken =
      { s with
        buffer := rest, pending := s.pending ++ response.writeToBuf,
        replies := s.replies ++ [response], db := db, pubsub := pubsub } := by
    rw [turn_of_frame hparse, hhandle]
    simp [respond, writeFrameBuffered, hwritten, hasQueuedBytes, hqueued]
  obtain ⟨phase, hquiet, hsecond⟩ := turn_of_not_whole (s := s.turn ctx taken)
    (by rw [hfirst]; exact hnone) ctx' taken'
  rw [hsecond, hfirst]
  refine ⟨hquiet, fun hsent => ?_⟩
  -- the reply would have to be empty
  have hlen := congrArg List.length hsent
  have hpos := Frame.writeToBuf_length_pos response
  simp only [List.flatMap_append, List.flatMap_singleton, ← h.accounted, List.length_append] at hlen
  omega

end Runs

/-- Two pipelined `PING`s in one read, and a third later. -/
def pings : List (Event (.standard 0 List.length)) :=
  let ping : Bytes := [42, 49, 13, 10, 36, 52, 13, 10, 80, 73, 78, 71, 13, 10]
  [.turn (.reading 0) 0, .receive (ping ++ ping), .turn (.reading 0) 0, .turn (.reading 0) 0,
    .turn (.reading 0) 0, .receive ping, .turn (.reading 0) 0, .turn (.reading 0) 0]

theorem sent_of_calm_pings :
    let s := runAll (@perform _ Unicode.ascii) (new Db.empty { channels := ∅ }) pings
    s.replies.length = 3 ∧ s.sent = s.replies.flatMap Frame.writeToBuf := by
  have hping : WholeFrame [42, 49, 13, 10, 36, 52, 13, 10, 80, 73, 78, 71, 13, 10] :=
    ⟨.array [.bulk [80, 73, 78, 71]], [], by decide +kernel⟩
  refine ⟨by decide +kernel, @sent_of_calm _ Unicode.ascii Db.empty { channels := ∅ } pings
    ⟨?_, trivial, ?_, ?_, ?_, trivial, ?_, ?_, trivial⟩ (by decide +kernel)⟩
  · exact @calm_of_none _ Unicode.ascii _ (by decide +kernel) _ _
  · exact @calm_of_frame _ Unicode.ascii _ (.array [.bulk [80, 73, 78, 71]]) _ (by decide +kernel)
      (.inr hping) _ _
  · exact @calm_of_frame _ Unicode.ascii _ (.array [.bulk [80, 73, 78, 71]]) _ (by decide +kernel)
      (.inl rfl) _ _
  · exact @calm_of_none _ Unicode.ascii _ (by decide +kernel) _ _
  · exact @calm_of_frame _ Unicode.ascii _ (.array [.bulk [80, 73, 78, 71]]) _ (by decide +kernel)
      (.inl rfl) _ _
  · exact @calm_of_none _ Unicode.ascii _ (by decide +kernel) _ _

/-- `PING` and the first bytes of a second request in one read: the session waits for the
rest with the reply unsent. With a malformed second request it returns and drops the reply. -/
theorem reply_withheld :
    let ping : Bytes := [42, 49, 13, 10, 36, 52, 13, 10, 80, 73, 78, 71, 13, 10]
    let after (more : Bytes) : Session (.standard 0 List.length) :=
      runAll (@perform _ Unicode.ascii) (new Db.empty { channels := ∅ })
        [.turn (.reading 0) 0, .receive (ping ++ more), .turn (.reading 0) 0, .turn (.reading 0) 0]
    ((after [42, 49]).phase = .waiting ∧ (after [42, 49]).replies = [.simple "PONG"] ∧
        (after [42, 49]).sent = []) ∧
      (after [58, 120, 13, 10]).phase = .finished (.malformed (.other "invalid integer digits")) ∧
        (after [58, 120, 13, 10]).replies = [.simple "PONG"] ∧ (after [58, 120, 13, 10]).sent = [] := by
  decide +kernel

end Session

end InMemoryCache
