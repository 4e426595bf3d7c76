-- SUMMARY: Every client of the hub is a subscriber, and is pushed no message twice.
import InMemoryCache.Lib.Domain
import InMemoryCache.Server.Delivery
import InMemoryCache.Server.Hub

/-!
# Listeners

A client of the hub has positions in the channels, and everybody moves the channels. What it
sees of them is a `Subscriber` (`Client.Simulates`): a receiver's queue is what it has yet to
take, and what the others do is that they publish. What is true of a subscriber in every run is
therefore true of every client, whatever the publishers and the other clients do.
-/

namespace InMemoryCache

open Lib
open scoped List

namespace Subscriber

/-- The frame, if the entry is one that was sent. -/
def Entry.frame? : Entry → Option Frame
  | .published _ _ => none
  | .sent frame => some frame

/-- What the client was sent. -/
def frames (history : List Entry) : List Frame := history.filterMap Entry.frame?

/-- The messages of a channel that frames push. -/
def pushedBy (ch : String) (sent : List Frame) : List Bytes :=
  sent.filterMap fun frame => (Entry.sent frame).pushed? ch

theorem pushed_eq (ch : String) (history : List Entry) :
    pushed ch history = pushedBy ch (frames history) := by
  rw [pushed, pushedBy, frames, List.filterMap_filterMap]
  refine congrArg (List.filterMap · history) (funext fun entry => ?_)
  cases entry <;> rfl

theorem frames_concat (history : List Entry) (entry : Entry) :
    frames (history ++ [entry]) = frames history ++ entry.frame?.toList :=
  filterMap_concat _ history entry

/-- The states of a subscriber's runs. -/
def Runs [Unicode] (s : Subscriber) : Prop :=
  ∃ channels es, s = runAll step (start channels) es

theorem Runs.step [Unicode] {s : Subscriber} (h : s.Runs) (e : Event) : (s.step e).Runs := by
  obtain ⟨channels, es, rfl⟩ := h
  refine ⟨channels, es ++ [e], ?_⟩
  rw [runAll_append]
  rfl

end Subscriber

open Subscriber

/-- What was sent on a channel of the hub. -/
def Hub.sentOn (hub : Hub) (ch : String) : List Bytes := (hub.channel ch).sent

/-- What a receiver of the hub has yet to take. -/
def Hub.waiting (hub : Hub) (ch : String) (cursor : Nat) : List Bytes :=
  (hub.channel ch).waiting channelCapacity cursor

/-- The subscriber was sent these frames, and saw the end of what was sent on the channels. -/
structure Hub.Tells (hub : Hub) (sent : List Frame) (s : Subscriber) : Prop where
  sent : frames s.history = sent
  published : ∀ ch, published ch s.history <:+ hub.sentOn ch

/-- What a client sees of the hub is a subscriber. -/
structure Client.Simulates (hub : Hub) (c : Client) (s : Subscriber) : Prop where
  tells : hub.Tells c.sent s
  phase : s.phase = c.phase
  streams : ∀ ch, s.subscriptions.get? ch = (c.streams.get? ch).map (hub.waiting ch)
  cursors : ∀ ch cursor, c.streams.get? ch = some cursor → cursor ≤ (hub.sentOn ch).length

-- ---------------------------------------------------------------------------
-- The client goes on
-- ---------------------------------------------------------------------------

section Own

variable {hub hub' : Hub} {c : Client} {s : Subscriber}

/-- Only what was sent matters of the hub. -/
theorem Hub.waiting_congr {ch : String} (h : hub'.sentOn ch = hub.sentOn ch) (cursor : Nat) :
    hub'.waiting ch cursor = hub.waiting ch cursor :=
  Broadcast.waiting_of_sent_eq h

theorem Hub.Tells.congr {sent : List Frame} (h : hub.Tells sent s)
    (hsent : ∀ ch, hub'.sentOn ch = hub.sentOn ch) : hub'.Tells sent s where
  sent := h.sent
  published ch := hsent ch ▸ h.published ch

theorem Client.Simulates.congr (h : c.Simulates hub s)
    (hsent : ∀ ch, hub'.sentOn ch = hub.sentOn ch) : c.Simulates hub' s where
  tells := h.tells.congr hsent
  phase := h.phase
  streams ch := by rw [h.streams, funext (Hub.waiting_congr (hsent ch))]
  cursors ch cursor hcursor := hsent ch ▸ h.cursors ch cursor hcursor

theorem Hub.sentOn_subscribe (hub : Hub) (ch c : String) :
    (hub.subscribe ch).2.sentOn c = hub.sentOn c := by
  rw [sentOn, channel_subscribe]
  split
  · rename_i hc
    rw [hc]
    rfl
  · rfl

theorem Hub.sentOn_drop (hub : Hub) (ch c : String) : (hub.drop ch).sentOn c = hub.sentOn c := by
  rw [sentOn, channel_drop]
  split
  · rename_i hc
    rw [hc]
    rfl
  · rfl

theorem Client.Simulates.setPhase (h : c.Simulates hub s) (phase : Phase) :
    Client.Simulates hub { c with phase := phase } { s with phase := phase } where
  tells := ⟨h.tells.sent, h.tells.published⟩
  phase := rfl
  streams := h.streams
  cursors := h.cursors

theorem Client.Simulates.write (h : c.Simulates hub s) (frame : Frame) (phase : Phase) :
    (c.write frame phase).Simulates hub (s.write frame phase) where
  tells := by
    refine ⟨?_, fun ch => ?_⟩
    · rw [Client.write, Subscriber.write, frames_concat, h.tells.sent]
      rfl
    · rw [Subscriber.write, published_concat]
      exact (List.append_nil _).symm ▸ h.tells.published ch
  phase := rfl
  streams := h.streams
  cursors := h.cursors

/-- The client gets a receiver that has nothing to take. -/
theorem Client.Simulates.subscribe (h : c.Simulates hub s) (ch : String) (phase : Phase) :
    Client.Simulates (hub.subscribe ch).2
      { c with streams := c.streams.insert ch (hub.subscribe ch).1, phase := phase }
      { s with subscriptions := s.subscriptions.insert ch [], phase := phase } := by
  have h : c.Simulates (hub.subscribe ch).2 s := h.congr (hub.sentOn_subscribe ch)
  refine ⟨⟨h.tells.sent, h.tells.published⟩, rfl, fun c' => ?_, fun c' cursor hcursor => ?_⟩
  · rw [Table.get?_insert, Table.get?_insert]
    split
    · rename_i hc
      rw [Option.map_some, hc, Hub.waiting, Hub.channel_subscribe, if_pos rfl]
      exact congrArg some Broadcast.waiting_subscribe.symm
    · exact h.streams c'
  · rw [Table.get?_insert] at hcursor
    split at hcursor
    · rename_i hc
      cases hcursor
      rw [hc, hub.sentOn_subscribe]
      exact le_rfl
    · exact h.cursors c' cursor hcursor

theorem Client.Simulates.contains (h : c.Simulates hub s) (ch : String) :
    s.subscriptions.contains ch = c.streams.contains ch := by
  rw [Table.contains, Table.contains, h.streams, Option.isSome_map]

theorem Client.Simulates.size (h : c.Simulates hub s) : s.subscriptions.size = c.streams.size := by
  rw [← Table.card_dom, ← Table.card_dom]
  refine congrArg Finset.card (Finset.ext fun ch => ?_)
  rw [Table.mem_dom_iff_contains, Table.mem_dom_iff_contains, h.contains]

/-- The assertion about a thread: a client is where some subscriber is. -/
def Hub.Follows [Unicode] (hub : Hub) : HubTask → Prop
  | .listen c => ∃ s : Subscriber, s.Runs ∧ c.Simulates hub s
  | .replace ch cursor c => ∃ s : Subscriber, s.Runs ∧
      Client.Simulates hub { c with streams := c.streams.insert ch cursor } s
  | .close _ sent => ∃ s : Subscriber, s.Runs ∧ hub.Tells sent s
  | .count _ _ | .send _ _ _ => True

/-- The assertion about what it returns. -/
def Hub.Ended [Unicode] (hub : Hub) : HubResult → Prop
  | .closed sent => ∃ s : Subscriber, s.Runs ∧ hub.Tells sent s
  | .published _ => True

variable [Unicode]

/-- Going on, the client stays a subscriber. -/
theorem Client.Simulates.advance (h : c.Simulates hub s) (hs : s.Runs) :
    (c.advance hub).1.Follows (c.advance hub).2 := by
  have hnext := hs.step .advance
  have hphase := h.phase
  change s.advance.Runs at hnext
  rw [Subscriber.advance] at hnext
  rw [Client.advance]
  split
  · rename_i hc
    rw [hc] at hphase
    rw [hphase] at hnext
    exact ⟨_, hnext, h.setPhase _⟩
  · rename_i i ch channels hc
    rw [hc] at hphase
    rw [hphase] at hnext
    split
    · exact ⟨_, hnext, h.subscribe ch _⟩
    · exact ⟨s, hs, h⟩
  · rename_i hc
    rw [hc] at hphase
    rw [hphase] at hnext
    exact ⟨_, hnext, h.write _ _⟩
  · rename_i hc
    rw [hc] at hphase
    rw [hphase] at hnext
    exact ⟨_, hnext, h.write _ _⟩
  · rename_i hc
    rw [hc] at hphase
    rw [hphase] at hnext
    exact ⟨_, hnext, h.setPhase _⟩
  · rename_i ch channels hc
    rw [hc] at hphase
    simp only [hphase, h.contains] at hnext
    split
    · rename_i hcontains
      rw [if_pos hcontains] at hnext
      exact ⟨_, hnext, h.setPhase _⟩
    · rename_i hcontains
      rw [if_neg hcontains] at hnext
      split
      · exact ⟨_, hnext, h.subscribe ch _⟩
      · exact ⟨s, hs, h⟩
  · rename_i hc
    rw [hc] at hphase
    rw [hphase] at hnext
    rw [← h.size]
    exact ⟨_, hnext, h.write _ _⟩
  · rename_i hc
    rw [hc] at hphase
    rw [hphase] at hnext
    exact ⟨_, hnext, h.write _ _⟩
  · exact ⟨s, hs, h⟩
  · exact ⟨s, hs, h.tells⟩

omit [Unicode] in
/-- A receiver is moved to where the subscriber has its queue. -/
theorem Client.Simulates.move (h : c.Simulates hub s) {s' : Subscriber} {phase : Phase} {ch : String}
    {cursor : Nat} (hhistory : s'.history = s.history) (hphase : s'.phase = phase)
    (hget : ∀ c', s'.subscriptions.get? c' =
      if c' = ch then some (hub.waiting ch cursor) else s.subscriptions.get? c')
    (hcursor : cursor ≤ (hub.sentOn ch).length) :
    Client.Simulates hub { c with streams := c.streams.insert ch cursor, phase := phase } s' where
  tells := ⟨hhistory ▸ h.tells.sent, hhistory ▸ h.tells.published⟩
  phase := hphase
  streams c' := by
    rw [hget, Table.get?_insert]
    split
    · rename_i hc
      rw [hc, Option.map_some]
    · exact h.streams c'
  cursors c' cursor' hc' := by
    rw [Table.get?_insert] at hc'
    split at hc'
    · rename_i hc
      cases hc'
      exact hc ▸ hcursor
    · exact h.cursors c' cursor' hc'

/-- So it does when it takes a message, or hears that it lags behind. -/
theorem Client.Simulates.take (h : c.Simulates hub s) (hs : s.Runs) (ch : String) :
    hub.Follows (.listen (c.take hub ch)) := by
  rw [Client.take]
  split
  · rename_i cursor hc hcursor
    have hstream := h.streams ch
    rw [hcursor, Option.map_some] at hstream
    split
    · rename_i msg cursor' hrecv
      obtain ⟨hwaiting, hle⟩ := Broadcast.recv_message hrecv
      have hnext := hs.step (.take ch)
      rw [Subscriber.step, h.phase, hc, hstream, Hub.waiting, hwaiting] at hnext
      exact ⟨_, hnext, h.move rfl rfl (fun c' => Table.get?_insert ..) hle⟩
    · rename_i cursor' hrecv
      obtain ⟨hwaiting, hle⟩ := Broadcast.recv_lagged hrecv
      refine ⟨s, hs, h.move rfl h.phase (fun c' => ?_) hle⟩
      split
      · rename_i hc'
        rw [hc', hstream]
        exact congrArg some hwaiting.symm
      · rfl
    · exact ⟨s, hs, h⟩
  · exact ⟨s, hs, h⟩

theorem Client.Simulates.request (h : c.Simulates hub s) (hs : s.Runs) (now : Instant)
    (frame : Option Frame) : hub.Follows (.listen (c.request now frame)) := by
  rw [Client.request]
  split
  · rename_i hc
    have hnext := hs.step (.request now frame)
    rw [Subscriber.step, h.phase, hc] at hnext
    exact ⟨_, hnext, h.setPhase _⟩
  · exact ⟨s, hs, h⟩

end Own

-- ---------------------------------------------------------------------------
-- The others go on
-- ---------------------------------------------------------------------------

section Others

variable {hub hub' : Hub} {c : Client} {s : Subscriber}

/-- What an access sends: nothing, or a message on a channel that has receivers. -/
inductive Hub.Sends (hub hub' : Hub) : Prop where
  | nothing (h : ∀ c, hub'.sentOn c = hub.sentOn c)
  | message (ch : String) (msg : Bytes) (hreceivers : hub.receivers ch ≠ 0)
      (h : ∀ c, hub'.sentOn c = (if c = ch then (hub.channel c).send msg else hub.channel c).sent)

theorem Hub.sends_subscribe (hub : Hub) (ch : String) : hub.Sends (hub.subscribe ch).2 :=
  .nothing (hub.sentOn_subscribe ch)

theorem Hub.sends_drop (hub : Hub) (ch : String) : hub.Sends (hub.drop ch) :=
  .nothing (hub.sentOn_drop ch)

theorem Hub.sends_self (hub : Hub) : hub.Sends hub := .nothing fun _ => rfl

theorem Hub.sends_send (hub : Hub) (ch : String) (msg : Bytes) : hub.Sends (hub.send ch msg) := by
  by_cases hreceivers : hub.receivers ch = 0
  · refine .nothing fun c => ?_
    rw [sentOn, channel_send]
    split
    · rename_i hc
      rw [Broadcast.send, if_pos (show (hub.channel ch).receivers = 0 from hreceivers), hc]
      rfl
    · rfl
  · refine .message ch msg hreceivers fun c => ?_
    rw [sentOn, channel_send]
    split
    · rename_i hc
      rw [hc]
    · rfl

theorem Hub.sends_advance (hub : Hub) (c : Client) : hub.Sends (c.advance hub).1 := by
  rw [Client.advance]
  split
  · exact hub.sends_self
  · split
    · exact hub.sends_subscribe _
    · exact hub.sends_self
  · exact hub.sends_self
  · exact hub.sends_self
  · exact hub.sends_self
  · split
    · exact hub.sends_self
    · split
      · exact hub.sends_subscribe _
      · exact hub.sends_self
  · exact hub.sends_self
  · exact hub.sends_self
  · exact hub.sends_self
  · exact hub.sends_self

variable [Unicode]

theorem Hub.sends_step (d : HubInput) (hub : Hub) (task : HubTask) :
    hub.Sends (Hub.step d hub task).1 := by
  cases task with
  | count ch msg =>
    rw [step]
    split
    · exact .nothing fun _ => rfl
    · exact hub.sends_self
  | send ch msg count =>
    -- giving the lock back sends nothing
    cases hub.sends_send ch msg with
    | nothing h => exact .nothing h
    | message c m hreceivers h => exact .message c m hreceivers h
  | listen c =>
    cases d with
    | advance => exact hub.sends_advance c
    | take | request | stop => exact hub.sends_self
  | replace ch cursor c =>
    rw [step]
    dsimp only
    split
    · exact hub.sends_drop ch
    · exact hub.sends_self
  | close streams sent =>
    rw [step]
    split
    · exact hub.sends_self
    · exact hub.sends_drop _

omit [Unicode] in
/-- What `message` sends, as the subscribers see it published. -/
theorem Hub.sentOn_message {ch : String} {msg : Bytes} (hreceivers : hub.receivers ch ≠ 0)
    (h : ∀ c, hub'.sentOn c = (if c = ch then (hub.channel c).send msg else hub.channel c).sent)
    (c : String) : hub'.sentOn c = hub.sentOn c ++ if ch = c then [msg] else [] := by
  rw [h]
  split
  · rename_i hc
    rw [if_pos hc.symm, hc, Broadcast.sent_send hreceivers]
    rfl
  · rename_i hc
    rw [if_neg (Ne.symm hc), List.append_nil]
    rfl

omit [Unicode] in
/-- A message comes last in the queue of a receiver. -/
theorem Hub.waiting_message {ch : String} {msg : Bytes} {cursor : Nat}
    (hreceivers : hub.receivers ch ≠ 0)
    (h : ∀ c, hub'.sentOn c = (if c = ch then (hub.channel c).send msg else hub.channel c).sent)
    (hcursor : cursor ≤ (hub.sentOn ch).length) :
    hub'.waiting ch cursor = receive (hub.waiting ch cursor) msg := by
  have hsent := h ch
  rw [if_pos rfl] at hsent
  exact (Broadcast.waiting_of_sent_eq hsent).trans (Broadcast.waiting_send hreceivers hcursor)

theorem Hub.Tells.publish {sent : List Frame} (h : hub.Tells sent s) {ch : String} {msg : Bytes}
    (hsent : ∀ c, hub'.sentOn c = hub.sentOn c ++ if ch = c then [msg] else []) :
    hub'.Tells sent (s.step (.publish ch msg)) where
  sent := by
    rw [Subscriber.step, frames_concat, h.sent]
    exact List.append_nil _
  published c := by
    rw [Subscriber.step, published_concat, published?_toList, hsent]
    exact List.suffix_append_self_iff.mpr (h.published c)

theorem Client.Simulates.publish (h : c.Simulates hub s) {ch : String} {msg : Bytes}
    (hreceivers : hub.receivers ch ≠ 0)
    (hsent : ∀ c, hub'.sentOn c = (if c = ch then (hub.channel c).send msg else hub.channel c).sent) :
    c.Simulates hub' (s.step (.publish ch msg)) where
  tells := h.tells.publish (Hub.sentOn_message hreceivers hsent)
  phase := h.phase
  streams c' := by
    rw [Subscriber.step, Table.get?_overwrite, h.streams, h.streams]
    split
    · rename_i hc
      subst hc
      rw [Option.map_map]
      refine Option.map_congr fun cursor hcursor => ?_
      rw [Hub.waiting_message hreceivers hsent (h.cursors c' cursor hcursor), Function.comp]
    · rename_i hc
      refine Option.map_congr fun cursor _ => (Hub.waiting_congr ?_ cursor).symm
      rw [hsent, if_neg hc]
      rfl
  cursors c' cursor hcursor := by
    rw [Hub.sentOn_message hreceivers hsent, List.length_append]
    exact (h.cursors c' cursor hcursor).trans (Nat.le_add_right _ _)

/-- What anybody sends, a client hears as published. -/
theorem Hub.Sends.simulates (hsends : hub.Sends hub') (h : c.Simulates hub s) (hs : s.Runs) :
    ∃ s' : Subscriber, s'.Runs ∧ c.Simulates hub' s' := by
  cases hsends with
  | nothing hsent => exact ⟨s, hs, h.congr hsent⟩
  | message ch msg hreceivers hsent =>
    exact ⟨s.step (.publish ch msg), hs.step _, h.publish hreceivers hsent⟩

theorem Hub.Sends.tells (hsends : hub.Sends hub') {sent : List Frame} (h : hub.Tells sent s)
    (hs : s.Runs) : ∃ s' : Subscriber, s'.Runs ∧ hub'.Tells sent s' := by
  cases hsends with
  | nothing hsent => exact ⟨s, hs, h.congr hsent⟩
  | message ch msg hreceivers hsent =>
    exact ⟨s.step (.publish ch msg), hs.step _, h.publish (Hub.sentOn_message hreceivers hsent)⟩

theorem Hub.Sends.follows (hsends : hub.Sends hub') {task : HubTask} (h : hub.Follows task) :
    hub'.Follows task := by
  cases task with
  | listen | replace =>
    obtain ⟨s, hs, h⟩ := h
    exact hsends.simulates h hs
  | close =>
    obtain ⟨s, hs, h⟩ := h
    exact hsends.tells h hs
  | count | send => trivial

omit [Unicode] in
theorem Client.simulates_start (hub : Hub) (channels : List String) :
    (Client.start channels).Simulates hub (Subscriber.start channels) where
  tells := ⟨rfl, fun _ => List.nil_suffix⟩
  phase := rfl
  streams _ := rfl
  cursors _ _ hcursor := by cases hcursor

theorem Hub.follows_step (d : HubInput) (hub : Hub) (task : HubTask) (h : hub.Follows task) :
    (Hub.step d hub task).2.elim (Hub.step d hub task).1.Follows (Hub.step d hub task).1.Ended := by
  cases task with
  | count ch msg =>
    rw [step]
    split <;> trivial
  | send => trivial
  | listen c =>
    obtain ⟨s, hs, h⟩ := h
    cases d with
    | advance => exact h.advance hs
    | take ch => exact h.take hs ch
    | request now frame => exact h.request hs now frame
    | stop => exact ⟨s, hs, h.tells⟩
  | replace ch cursor c =>
    have hsends : hub.Sends (if c.streams.contains ch then hub.drop ch else hub) := by
      split
      · exact hub.sends_drop ch
      · exact hub.sends_self
    obtain ⟨s, hs, h⟩ := h
    exact hsends.simulates h hs
  | close streams sent =>
    rw [step]
    split
    · exact h
    · obtain ⟨s, hs, h⟩ := h
      exact (hub.sends_drop _).tells h hs

theorem Hub.asserts_follows : Threads.Asserts connections new Hub.Follows Hub.Ended where
  enter hub i := by
    cases i with
    | publish => trivial
    | subscribe channels =>
      exact ⟨.start channels, ⟨channels, [], rfl⟩, Client.simulates_start hub channels⟩
  own d hub task h := hub.follows_step d task h
  tasks _ _ _ _ task' d _ _ _ h := (Hub.sends_step d _ task').follows h
  results d hub task r h := by
    cases r with
    | published => trivial
    | closed sent =>
      obtain ⟨s, hs, h⟩ := h
      exact (hub.sends_step d task).tells h hs

end Others

-- ---------------------------------------------------------------------------
-- What the clients are pushed
-- ---------------------------------------------------------------------------

section Pushed

variable [Unicode]

/-- The messages of a channel on their way to a client. -/
def Client.pending (hub : Hub) (ch : String) (c : Client) : List Bytes :=
  c.phase.hand ch ++ ((c.streams.get? ch).map (hub.waiting ch)).getD []

/-- Every client is at all times where a run of a subscriber is. -/
theorem Hub.listeners_simulate {es : List (Threads.Event HubCall HubInput)} {t : Nat} {c : Client}
    (h : (serve es).running t = some (.listen c)) :
    ∃ channels events,
      c.Simulates (serve es).shared (runAll Subscriber.step (start channels) events) := by
  obtain ⟨s, ⟨channels, events, rfl⟩, hs⟩ := (asserts_follows.run es).tasks t _ h
  exact ⟨channels, events, hs⟩

/-- Two clients subscribe to a channel. A publisher counts the first of them, which sends its
confirmation before the message is sent and takes the message; the second waits for the lock. -/
def Hub.oneMessage : List (Threads.Event HubCall HubInput) :=
  [.call 0 (.subscribe ["c"]), .call 1 (.subscribe ["c"]), .step 0 .advance, .step 0 .advance,
    .call 2 (.publish "c" [109]), .step 2 .advance, .step 1 .advance, .step 0 .advance,
    .step 2 .advance, .step 0 .advance, .step 1 .advance, .step 0 (.take "c"), .step 0 .advance]

omit [Unicode] in
theorem Hub.listeners_simulate_oneMessage :
    ∃ c : Client, (@serve Unicode.ascii oneMessage).running 0 = some (.listen c) ∧
      c.sent = [confirmation "c" 1, pushFrame "c" [109]] ∧
      ∃ channels events, c.Simulates (@serve Unicode.ascii oneMessage).shared
        (runAll (@Subscriber.step Unicode.ascii) (start channels) events) :=
  ⟨_, rfl, rfl, @listeners_simulate Unicode.ascii oneMessage 0 _ rfl⟩

theorem Hub.Tells.sublist {hub : Hub} {sent : List Frame} {s : Subscriber} (h : hub.Tells sent s)
    (hs : s.Runs) (ch : String) : pushedBy ch sent ++ s.pending ch <+ hub.sentOn ch := by
  obtain ⟨channels, events, rfl⟩ := hs
  rw [← h.sent, ← pushed_eq]
  exact (held_sublist channels events ch).trans (h.published ch).sublist

/-- What clients are pushed of a channel, and what is on its way to them, is what was sent there,
in the same order and each message once, with messages left out. -/
theorem Hub.pushed_sublist (es : List (Threads.Event HubCall HubInput)) (ch : String) :
    (∀ t c, (serve es).running t = some (.listen c) →
      pushedBy ch c.sent ++ c.pending (serve es).shared ch <+ (serve es).shared.sentOn ch) ∧
    ∀ t sent, (t, .inr (.closed sent)) ∈ (serve es).trace →
      pushedBy ch sent <+ (serve es).shared.sentOn ch := by
  refine ⟨fun t c h => ?_, fun t sent h => ?_⟩
  · obtain ⟨s, hs, h⟩ := (asserts_follows.run es).tasks t _ h
    have hpending : s.pending ch = c.pending (serve es).shared ch := by
      rw [Subscriber.pending, Client.pending, h.phase, h.streams]
      rfl
    rw [← hpending]
    exact h.tells.sublist hs ch
  · obtain ⟨s, hs, h⟩ := (asserts_follows.run es).results t _ h
    exact (List.sublist_append_left _ _).trans (h.sublist hs ch)

end Pushed

end InMemoryCache
