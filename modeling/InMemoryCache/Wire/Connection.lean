-- SUMMARY: Reading frames off a socket, however the stream is cut into reads.
import InMemoryCache.Wire.FrameLaws

/-!
# Connections

A connection holds the bytes it has buffered. The socket is the list of chunks that
later reads will return, followed by the end of the stream. `readAll` calls
`read_frame` until it returns no frame; its frames and its ending are those of the
frame decoder on the whole stream. What is written passes through a write buffer.
-/

namespace InMemoryCache

open Lib

namespace Connection

/-- `parse_frame`: a frame and the buffer after it, if a whole one is buffered. -/
def parseFrame (buffer : Bytes) : Except FrameError (Option (Frame × Bytes)) :=
  match Frame.check buffer with
  | .ok (_, rest) =>
    let len := buffer.length - rest.length
    match Frame.parse buffer with
    | .ok (frame, _) => .ok (some (frame, buffer.drop len))
    | .error e => .error e
  | .error .incomplete => .ok none
  | .error e => .error e

/-- What `read_frame` returns: a frame, with the buffer and the socket it leaves; `None`
at a clean end; or an error, which is a reset or a malformed frame. -/
inductive ReadResult where
  | frame (f : Frame) (buffer : Bytes) (chunks : List Bytes)
  | closed
  | reset
  | malformed (e : FrameError)

/-- One turn of the loop in `read_frame`: return a buffered frame, or `wait`. -/
def attempt (buffer : Bytes) (chunks : List Bytes) (wait : ReadResult) : ReadResult :=
  match parseFrame buffer with
  | .ok (some (frame, buffer)) => .frame frame buffer chunks
  | .ok none => wait
  | .error e => .malformed e

/-- `read_frame` -/
def readFrame (buffer : Bytes) : List Bytes → ReadResult
  | [] => attempt buffer [] (if buffer.isEmpty then .closed else .reset)
  | chunk :: chunks => attempt buffer (chunk :: chunks) (readFrame (buffer ++ chunk) chunks)

/-- How a connection's stream of frames ends. -/
inductive Ending where
  | closed
  | reset
  | malformed (e : FrameError)
  deriving DecidableEq, Repr

-- ---------------------------------------------------------------------------
-- The decoder behind parse_frame
-- ---------------------------------------------------------------------------

theorem parseFrame_eq_some {buffer rest : Bytes} {frame : Frame} :
    parseFrame buffer = .ok (some (frame, rest)) ↔
      Frame.decoder.decode buffer = .frame frame rest := by
  show _ ↔ Reader.checkThenParse Frame.check Frame.parse buffer = _
  rw [parseFrame, Reader.checkThenParse]
  cases hcheck : Frame.check buffer with
  | ok v =>
    obtain ⟨⟨⟩, r⟩ := v
    obtain ⟨p, rfl⟩ := Frame.reads_check.suffix hcheck
    cases Frame.parse (p ++ r) <;> simp
  | error e => cases e <;> simp

theorem parseFrame_eq_none {buffer : Bytes} :
    parseFrame buffer = .ok none ↔ Frame.decoder.decode buffer = .more := by
  show _ ↔ Reader.checkThenParse Frame.check Frame.parse buffer = _
  rw [parseFrame, Reader.checkThenParse]
  cases hcheck : Frame.check buffer with
  | ok v =>
    obtain ⟨⟨⟩, r⟩ := v
    cases Frame.parse buffer <;> simp
  | error e => cases e <;> simp

theorem parseFrame_eq_error {buffer : Bytes} {e : FrameError} :
    parseFrame buffer = .error e ↔ Frame.decoder.decode buffer = .bad e := by
  show _ ↔ Reader.checkThenParse Frame.check Frame.parse buffer = _
  rw [parseFrame, Reader.checkThenParse]
  cases hcheck : Frame.check buffer with
  | ok v =>
    obtain ⟨⟨⟩, r⟩ := v
    cases Frame.parse buffer <;> simp
  | error e' => cases e' <;> simp

/-- What one turn of `read_frame` does, in terms of the decoder. -/
theorem attempt_eq (buffer : Bytes) (chunks : List Bytes) (wait : ReadResult) :
    attempt buffer chunks wait =
      match Frame.decoder.decode buffer with
      | .frame frame rest => .frame frame rest chunks
      | .more => wait
      | .bad e => .malformed e := by
  rw [attempt]
  cases h : Frame.decoder.decode buffer with
  | frame f r => rw [parseFrame_eq_some.mpr h]
  | more => rw [parseFrame_eq_none.mpr h]
  | bad e => rw [parseFrame_eq_error.mpr h]

/-- A read takes the first frame of the whole stream, or ends as the stream does. -/
theorem readFrame_eq (buffer : Bytes) (chunks : List Bytes) :
    match readFrame buffer chunks with
    | .frame frame buffer' chunks' =>
      Frame.decoder.decode (buffer ++ chunks.flatten) = .frame frame (buffer' ++ chunks'.flatten)
    | .closed => buffer ++ chunks.flatten = []
    | .reset =>
      buffer ++ chunks.flatten ≠ [] ∧ Frame.decoder.decode (buffer ++ chunks.flatten) = .more
    | .malformed e => Frame.decoder.decode (buffer ++ chunks.flatten) = .bad e := by
  induction chunks generalizing buffer with
  | nil =>
    rw [readFrame, attempt_eq, List.flatten_nil, List.append_nil]
    cases hd : Frame.decoder.decode buffer with
    | frame f r => simp
    | more =>
      cases buffer with
      | nil => rfl
      | cons b buffer => exact ⟨List.cons_ne_nil _ _, rfl⟩
    | bad e => rfl
  | cons chunk chunks ih =>
    rw [readFrame, attempt_eq]
    cases hd : Frame.decoder.decode buffer with
    | frame f r => exact Frame.decoder.frame_stable _ hd
    | more =>
      have hrest := ih (buffer ++ chunk)
      rwa [List.append_assoc, ← List.flatten_cons] at hrest
    | bad e => exact Frame.decoder.bad_stable _ hd

theorem readFrame_length {buffer buffer' : Bytes} {chunks chunks' : List Bytes} {frame : Frame}
    (h : readFrame buffer chunks = .frame frame buffer' chunks') :
    (buffer' ++ chunks'.flatten).length < (buffer ++ chunks.flatten).length := by
  have hread := readFrame_eq buffer chunks
  rw [h] at hread
  exact Frame.decoder.rest_length_lt hread

/-- Call `read_frame` until it returns no frame. -/
def readAll (buffer : Bytes) (chunks : List Bytes) : List Frame × Ending :=
  match _h : readFrame buffer chunks with
  | .frame f buffer chunks => (f :: (readAll buffer chunks).1, (readAll buffer chunks).2)
  | .closed => ([], .closed)
  | .reset => ([], .reset)
  | .malformed e => ([], .malformed e)
termination_by (buffer ++ chunks.flatten).length
decreasing_by all_goals exact readFrame_length _h

/-- The ending a drained stream stands for. -/
def Ending.ofStop : Stop UInt8 FrameError → Ending
  | .starved [] => .closed
  | .starved (_ :: _) => .reset
  | .bad e => .malformed e

/-- Reading drains the stream, however it is cut. -/
theorem readAll_eq_drain (buffer : Bytes) (chunks : List Bytes) :
    readAll buffer chunks =
      ((Frame.decoder.drain (buffer ++ chunks.flatten)).1,
        Ending.ofStop (Frame.decoder.drain (buffer ++ chunks.flatten)).2) := by
  induction hn : (buffer ++ chunks.flatten).length using Nat.strongRecOn generalizing buffer chunks
    with
  | ind n ih =>
    have hread := readFrame_eq buffer chunks
    rw [readAll]
    split
    · rename_i frame buffer' chunks' h
      rw [h] at hread
      rw [Frame.decoder.drain_frame hread, ih _ (hn ▸ readFrame_length h) buffer' chunks' rfl]
    · rename_i h
      rw [h] at hread
      rw [hread, Frame.decoder.drain_nil]
      rfl
    · rename_i h
      rw [h] at hread
      rw [Frame.decoder.drain_more hread.2]
      cases hs : buffer ++ chunks.flatten with
      | nil => exact absurd hs hread.1
      | cons b s => rfl
    · rename_i e h
      rw [h] at hread
      rw [Frame.decoder.drain_bad hread]
      rfl

end Connection

-- ---------------------------------------------------------------------------
-- The write buffer
-- ---------------------------------------------------------------------------

/-- The default capacity of a `BufWriter`. -/
def bufWriterCapacity : Nat := 8 * 1024

/-- `write_all` on the `BufWriter`: what goes out to the socket or file and what
stays. Bytes that fit stay; when they do not, some number of them goes out. -/
def writeAll (taken : Nat) (pending bytes : Bytes) : Bytes × Bytes :=
  if pending.length + bytes.length ≤ bufWriterCapacity ∧ bytes.length < bufWriterCapacity then
    ([], pending ++ bytes)
  else ((pending ++ bytes).take taken, (pending ++ bytes).drop taken)

theorem writeAll_append (taken : Nat) (pending bytes : Bytes) :
    (writeAll taken pending bytes).1 ++ (writeAll taken pending bytes).2 = pending ++ bytes := by
  rw [writeAll]
  split
  · rfl
  · exact List.take_append_drop taken _

end InMemoryCache
