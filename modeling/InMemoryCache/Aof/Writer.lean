-- SUMMARY: The append-only file's writer task, its channel, and what a sync makes durable.
import InMemoryCache.Aof.Load
import InMemoryCache.Lib.Run
import InMemoryCache.Wire.Connection

/-!
# The writer task

`record` and `sync` send messages on a bounded FIFO channel, and the writer task takes
one after the other. A record is in the channel, in the write buffer or in the file. At
every moment file and buffer together are the records received so far, so a `Flush`
makes durable exactly the records sent before it.
-/

namespace InMemoryCache

open Lib

/-- `AofMsg`; a `Flush` carries the number of the `sync` call that waits for its reply. -/
inductive AofMsg where
  | record (bytes : Bytes)
  | flush (call : Nat)

/-- What a message adds to the file. -/
def AofMsg.bytes : AofMsg → Bytes
  | .record bytes => bytes
  | .flush _ => []

namespace Aof

/-- The bytes that messages add to the file. -/
def content (msgs : List AofMsg) : Bytes := msgs.flatMap AofMsg.bytes

/-- More messages add more to the file. -/
theorem length_content_mono (msgs : List AofMsg) {i j : Nat} (h : i ≤ j) :
    (content (msgs.take i)).length ≤ (content (msgs.take j)).length := by
  obtain ⟨more, hmore⟩ := List.take_prefix_take_left h (l := msgs)
  rw [← hmore, content, content, List.flatMap_append, List.length_append]
  exact Nat.le_add_right _ _

/-- The capacity of the channel. -/
def channelCapacity : Nat := 2048

/-- Where a `sync` call stands: it has yet to send its `Flush`, it waits for the reply,
or it has returned. -/
inductive CallPhase where
  | sending
  | waiting
  | returned
  deriving DecidableEq

/-- A `sync` call, and how many messages had been sent when it was made. -/
structure Call where
  sentBefore : Nat
  phase : CallPhase

/-- The reply to a `sync` call, with what `sync_all` had then made durable. -/
structure Reply where
  call : Nat
  durable : Bytes

/-- The channel and the writer task. `sent` are all messages ever sent, oldest first, of
which the writer has taken the first `received`. -/
structure Pipeline where
  sent : List AofMsg
  received : Nat
  buffer : Bytes
  file : Bytes
  durable : Bytes
  calls : List Call
  replies : List Reply
  returned : List Reply

namespace Pipeline

/-- `start` on a file with some content. -/
def start (file : Bytes) : Pipeline where
  sent := []
  received := 0
  buffer := []
  file := file
  durable := []
  calls := []
  replies := []
  returned := []

/-- The channel has room for a message. -/
def room (s : Pipeline) : Bool := decide (s.sent.length - s.received < channelCapacity)

def send (msg : AofMsg) (s : Pipeline) : Pipeline := { s with sent := s.sent ++ [msg] }

/-- One turn of the writer's loop, if there is a message. -/
def receive (taken : Nat) (s : Pipeline) : Pipeline :=
  match s.sent[s.received]? with
  | some (.record bytes) =>
    let (out, kept) := writeAll taken s.buffer bytes
    { s with received := s.received + 1, file := s.file ++ out, buffer := kept }
  | some (.flush call) =>
    let file := s.file ++ s.buffer
    { s with
      received := s.received + 1, file := file, buffer := [], durable := file,
      replies := s.replies ++ [{ call := call, durable := file }] }
  | none => s

/-- What can happen: the send of a `record` completes; a `sync` is called, its send
completes, or it returns; the writer takes a message. -/
inductive Event where
  | record (frame : Frame)
  | call
  | flush (call : Nat)
  | receive (taken : Nat)
  | return (call : Nat)

/-- An event; one that cannot happen changes nothing. -/
def perform (s : Pipeline) : Event → Pipeline
  | .record frame => if s.room then s.send (.record (record frame)) else s
  | .call => { s with calls := s.calls ++ [{ sentBefore := s.sent.length, phase := .sending }] }
  | .flush c =>
    match s.calls[c]? with
    | some call =>
      if call.phase = .sending ∧ s.room then
        { s.send (.flush c) with calls := s.calls.set c { call with phase := .waiting } }
      else s
    | none => s
  | .receive taken => s.receive taken
  | .return c =>
    match s.calls[c]?, s.replies.find? fun r => r.call == c with
    | some call, some reply =>
      if call.phase = .waiting then
        { s with
          calls := s.calls.set c { call with phase := .returned },
          returned := s.returned ++ [reply] }
      else s
    | _, _ => s

/-! ## Nothing is lost, doubled or torn -/

/-- The reply is to a `Flush` sent after the call was made, and what was durable then is
what the file started with and the records sent before that `Flush`. -/
def Covers (file : Bytes) (s : Pipeline) (r : Reply) : Prop :=
  ∃ call pos, s.calls[r.call]? = some call ∧ call.sentBefore ≤ pos ∧
    s.sent[pos]? = some (AofMsg.flush r.call) ∧ r.durable = file ++ content (s.sent.take pos)

/-- A record is in the file, in the buffer or in the channel, in that order. -/
structure Ordered (file : Bytes) (s : Pipeline) : Prop where
  received : s.received ≤ s.sent.length
  written : s.file ++ s.buffer = file ++ content (s.sent.take s.received)
  encoded : ∀ bytes, AofMsg.record bytes ∈ s.sent → ∃ frame, bytes = Aof.record frame
  made : ∀ call ∈ s.calls, call.sentBefore ≤ s.sent.length
  called : ∀ pos c, s.sent[pos]? = some (AofMsg.flush c) →
    ∃ call, s.calls[c]? = some call ∧ call.sentBefore ≤ pos
  replied : ∀ r ∈ s.replies, s.Covers file r
  answered : ∀ r ∈ s.returned, r ∈ s.replies

theorem ordered_start (file : Bytes) : (start file).Ordered file where
  received := le_rfl
  written := by simp [start, content]
  encoded := by simp [start]
  made := by simp [start]
  called := by simp [start]
  replied := by simp [start]
  answered := by simp [start]

/-- Later states have sent more and know the calls that were made. -/
structure Extends (s s' : Pipeline) : Prop where
  sent : s.sent <+: s'.sent
  calls : ∀ (c : Nat) (call : Call), s.calls[c]? = some call →
    ∃ call' : Call, s'.calls[c]? = some call' ∧ call'.sentBefore = call.sentBefore

theorem Extends.covers {file : Bytes} {s s' : Pipeline} (h : s.Extends s') {r : Reply}
    (hr : s.Covers file r) : s'.Covers file r := by
  obtain ⟨call, pos, hcall, hbefore, hpos, hdurable⟩ := hr
  obtain ⟨call', hcall', hsame⟩ := h.calls _ _ hcall
  obtain ⟨more, hmore⟩ := h.sent
  have hlt : pos < s.sent.length := (List.getElem?_eq_some_iff.mp hpos).1
  refine ⟨call', pos, hcall', hsame ▸ hbefore, ?_, ?_⟩
  · rw [← hmore, List.getElem?_append_left hlt]
    exact hpos
  · rw [← hmore, List.take_append_of_le_length hlt.le]
    exact hdurable

/-- A call moves on, and stays the call it was. -/
theorem extends_set {s : Pipeline} {c : Nat} {call : Call} (hcall : s.calls[c]? = some call)
    (phase : CallPhase) {s' : Pipeline} (hsent : s.sent <+: s'.sent)
    (hcalls : s'.calls = s.calls.set c { call with phase := phase }) : s.Extends s' where
  sent := hsent
  calls d call' hd := by
    rw [hcalls]
    by_cases hcd : c = d
    · subst hcd
      rw [hcall, Option.some.injEq] at hd
      rw [List.getElem?_set_self (List.getElem?_eq_some_iff.mp hcall).1]
      exact ⟨_, rfl, hd ▸ rfl⟩
    · rw [List.getElem?_set_ne hcd]
      exact ⟨call', hd, rfl⟩

theorem getElem?_concat_eq {l : List α} {a b : α} {i : Nat} (h : (l ++ [a])[i]? = some b) :
    l[i]? = some b ∨ i = l.length ∧ b = a := by
  rw [List.getElem?_append] at h
  split at h
  · exact .inl h
  · rw [List.getElem?_singleton] at h
    split at h
    · cases h
      exact .inr ⟨by omega, rfl⟩
    · cases h

section Steps

variable {file : Bytes} {s s' : Pipeline}

/-- A message goes on the channel; a `Flush` is that of a call made before. -/
theorem Ordered.send (h : s.Ordered file) (hext : s.Extends s') {msg : AofMsg}
    (hsent : s'.sent = s.sent ++ [msg]) (hreceived : s'.received = s.received)
    (hfile : s'.file ++ s'.buffer = s.file ++ s.buffer) (hreplies : s'.replies = s.replies)
    (hreturned : s'.returned = s.returned)
    (hrecord : ∀ bytes, msg = .record bytes → ∃ frame, bytes = Aof.record frame)
    (hmade : ∀ call ∈ s'.calls, call.sentBefore ≤ s.sent.length)
    (hflush : ∀ c, msg = .flush c → ∃ call, s'.calls[c]? = some call) :
    s'.Ordered file where
  received := by
    rw [hreceived, hsent, List.length_append]
    exact h.received.trans (Nat.le_add_right _ _)
  written := by
    rw [hreceived, hfile, hsent, List.take_append_of_le_length h.received]
    exact h.written
  encoded bytes hbytes := by
    rw [hsent] at hbytes
    rcases List.mem_append.mp hbytes with hold | hnew
    · exact h.encoded bytes hold
    · exact hrecord bytes (List.mem_singleton.mp hnew).symm
  made call hcall := by
    rw [hsent, List.length_append]
    exact (hmade call hcall).trans (Nat.le_add_right _ _)
  called pos c hpos := by
    rw [hsent] at hpos
    rcases getElem?_concat_eq hpos with hold | ⟨rfl, hnew⟩
    · obtain ⟨call, hcall, hle⟩ := h.called pos c hold
      obtain ⟨call', hcall', hsame⟩ := hext.calls c call hcall
      exact ⟨call', hcall', hsame ▸ hle⟩
    · obtain ⟨call, hcall⟩ := hflush c hnew.symm
      exact ⟨call, hcall, hmade call (List.mem_of_getElem? hcall)⟩
  replied r hr := hext.covers (h.replied r (hreplies ▸ hr))
  answered r hr := hreplies ▸ h.answered r (hreturned ▸ hr)

/-- The calls and what was returned have changed, and nothing else. -/
theorem Ordered.calls (h : s.Ordered file) (hext : s.Extends s') (hsent : s'.sent = s.sent)
    (hreceived : s'.received = s.received) (hfile : s'.file ++ s'.buffer = s.file ++ s.buffer)
    (hmade : ∀ call ∈ s'.calls, call.sentBefore ≤ s.sent.length)
    (hreplies : s'.replies = s.replies) (hreturned : ∀ r ∈ s'.returned, r ∈ s.replies) :
    s'.Ordered file where
  received := by
    rw [hreceived, hsent]
    exact h.received
  written := by
    rw [hreceived, hfile, hsent]
    exact h.written
  encoded bytes hbytes := h.encoded bytes (hsent ▸ hbytes)
  made call hcall := hsent ▸ hmade call hcall
  called pos c hpos := by
    rw [hsent] at hpos
    obtain ⟨call, hcall, hle⟩ := h.called pos c hpos
    obtain ⟨call', hcall', hsame⟩ := hext.calls c call hcall
    exact ⟨call', hcall', hsame ▸ hle⟩
  replied r hr := hext.covers (h.replied r (hreplies ▸ hr))
  answered r hr := hreplies ▸ hreturned r hr

theorem take_succ_of_getElem? {l : List AofMsg} {i : Nat} {msg : AofMsg} (h : l[i]? = some msg) :
    content (l.take (i + 1)) = content (l.take i) ++ msg.bytes := by
  rw [List.take_add_one, h, Option.toList_some, content, content, List.flatMap_append,
    List.flatMap_singleton]

/-- The writer takes a message: a record goes through the buffer to the file, and a
`Flush` empties the buffer and is replied to. -/
theorem Ordered.receive (h : s.Ordered file) (taken : Nat) : (s.receive taken).Ordered file := by
  rw [Pipeline.receive]
  cases hmsg : s.sent[s.received]? with
  | none => exact h
  | some msg =>
    have hlt : s.received < s.sent.length := (List.getElem?_eq_some_iff.mp hmsg).1
    have hnext := take_succ_of_getElem? hmsg
    cases msg with
    | record bytes =>
      refine ⟨hlt, ?_, h.encoded, h.made, h.called, h.replied, h.answered⟩
      show s.file ++ (writeAll taken s.buffer bytes).1 ++ (writeAll taken s.buffer bytes).2 = _
      rw [List.append_assoc, writeAll_append, ← List.append_assoc, h.written, hnext,
        List.append_assoc]
      rfl
    | flush c =>
      obtain ⟨call, hcall, hle⟩ := h.called _ _ hmsg
      refine ⟨hlt, ?_, h.encoded, h.made, h.called, fun r hr => ?_, fun r hr => ?_⟩
      · show s.file ++ s.buffer ++ [] = _
        rw [hnext, h.written, List.append_nil]
        exact congrArg _ (List.append_nil _).symm
      · rcases List.mem_append.mp hr with hold | hnew
        · exact h.replied r hold
        · cases List.mem_singleton.mp hnew
          exact ⟨call, s.received, hcall, hle, hmsg, h.written⟩
      · exact List.mem_append_left _ (h.answered r hr)

/-- A call that has moved on was made when it was. -/
theorem Ordered.made_set (h : s.Ordered file) {c : Nat} {call : Call}
    (hcall : s.calls[c]? = some call) (phase : CallPhase) :
    ∀ call' ∈ s.calls.set c { call with phase := phase }, call'.sentBefore ≤ s.sent.length := by
  intro call' hmem
  rcases List.mem_or_eq_of_mem_set hmem with hold | rfl
  · exact h.made call' hold
  · exact h.made call (List.mem_of_getElem? hcall)

theorem ordered_perform (s : Pipeline) (e : Event) (h : s.Ordered file) :
    (s.perform e).Ordered file := by
  cases e with
  | record frame =>
    rw [perform]
    split
    · exact h.send ⟨List.prefix_append _ _, fun c call hc => ⟨call, hc, rfl⟩⟩ rfl rfl rfl rfl rfl
        (fun bytes hb => ⟨frame, by cases hb; rfl⟩) h.made (fun c hc => by cases hc)
    · exact h
  | call =>
    refine h.calls ⟨List.prefix_refl _, fun c call hc => ⟨call, ?_, rfl⟩⟩ rfl rfl rfl
      (fun call hcall => ?_) rfl h.answered
    · show (s.calls ++ _)[c]? = some call
      rw [List.getElem?_append_left (List.getElem?_eq_some_iff.mp hc).1]
      exact hc
    · rcases List.mem_append.mp hcall with hold | hnew
      · exact h.made call hold
      · cases List.mem_singleton.mp hnew
        exact le_rfl
  | flush c =>
    rw [perform]
    split
    · rename_i call hcall
      split
      · refine h.send (extends_set hcall .waiting (List.prefix_append _ _) rfl) rfl rfl rfl rfl rfl
          (fun bytes hb => by cases hb) (h.made_set hcall .waiting) fun d hd => ?_
        cases hd
        exact ⟨_, List.getElem?_set_self (List.getElem?_eq_some_iff.mp hcall).1⟩
      · exact h
    · exact h
  | receive taken => exact h.receive taken
  | «return» c =>
    rw [perform]
    split
    · rename_i call reply hcall hreply
      split
      · refine h.calls (extends_set hcall .returned (List.prefix_refl _) rfl) rfl rfl rfl
          (h.made_set hcall .returned) rfl fun r hr => ?_
        rcases List.mem_append.mp hr with hold | hnew
        · exact h.answered r hold
        · cases List.mem_singleton.mp hnew
          exact List.mem_of_find?_eq_some hreply
      · exact h
    · exact h

/-- Whenever a `sync` returns, its `sync_all` had made durable what the file started with
and, whole, once and in order, the records sent before its `Flush`, among them all that
had been sent when it was called. -/
theorem durable_of_returned (file : Bytes) (es : List Event) :
    (∀ r ∈ (runAll perform (start file) es).returned,
      (runAll perform (start file) es).Covers file r) ∧
      ∀ bytes, AofMsg.record bytes ∈ (runAll perform (start file) es).sent →
        ∃ frame, bytes = Aof.record frame := by
  have h := runAll_invariant ordered_perform (ordered_start file) es
  exact ⟨fun r hr => h.replied r (h.answered r hr), h.encoded⟩

end Steps

end Pipeline

end Aof

end InMemoryCache
