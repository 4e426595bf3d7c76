-- SUMMARY: The hub with any number of publishers and subscribers, and what PUBLISH counts.
import InMemoryCache.Lib.Books
import InMemoryCache.Lib.Broadcast
import InMemoryCache.Server.Subscriber

/-!
# The hub

`publish` holds the hub's lock for reading while it counts the receivers and sends, and
`subscribe` takes it for writing. Messages are taken and receivers dropped without it. What
`PUBLISH` replies is the number of receivers there were when it counted; there can only be
fewer when it sends. The initial list of a `SUBSCRIBE` has a second receiver of a channel
between subscribing it and dropping the one it replaces, and is then counted twice.
-/

namespace InMemoryCache

open Lib

/-- The channels, and how many publishers hold the lock. -/
structure Hub where
  channels : Table String (Broadcast Bytes)
  readers : Nat

/-- A connection in subscriber mode: the receivers of its `StreamMap`, where it stands, and
what it was sent. -/
structure Client where
  streams : Table String Nat
  phase : Subscriber.Phase
  sent : List Frame

/-- What a thread does at the hub. -/
inductive HubTask where
  /-- In `publish`, before it takes the lock, and before it sends. -/
  | count (ch : String) (msg : Bytes)
  | send (ch : String) (msg : Bytes) (count : Nat)
  /-- In `run_subscriber_mode`. -/
  | listen (c : Client)
  /-- In the loop over the initial list, between `subscribe` and `insert`. -/
  | replace (ch : String) (cursor : Nat) (c : Client)
  /-- The `StreamMap` is dropped. -/
  | close (streams : Table String Nat) (sent : List Frame)

inductive HubCall where
  | publish (ch : String) (msg : Bytes)
  | subscribe (channels : List String)

inductive HubResult where
  | published (count : Nat)
  | closed (sent : List Frame)

/-- How a subscriber goes on; it stops when it cannot be written to, and at a shutdown. -/
inductive HubInput where
  | advance
  | take (ch : String)
  | request (now : Instant) (frame : Option Frame)
  | stop

namespace Hub

def new : Hub where
  channels := ∅
  readers := 0

def channel (hub : Hub) (ch : String) : Broadcast Bytes := (hub.channels.get? ch).getD .new

def receivers (hub : Hub) (ch : String) : Nat := (hub.channel ch).receivers

/-- `PubSub::subscribe` -/
def subscribe (hub : Hub) (ch : String) : Nat × Hub :=
  let (cursor, b) := (hub.channel ch).subscribe
  (cursor, { hub with channels := hub.channels.insert ch b })

/-- A receiver of the channel is dropped. -/
def drop (hub : Hub) (ch : String) : Hub :=
  { hub with channels := hub.channels.overwrite ch ((hub.channels.get? ch).map .drop) }

def send (hub : Hub) (ch : String) (msg : Bytes) : Hub :=
  { hub with channels := hub.channels.overwrite ch ((hub.channels.get? ch).map (·.send msg)) }

end Hub

namespace Client

open Subscriber (confirmation pushFrame pong onlySubscribe)

def start (channels : List String) : Client where
  streams := ∅
  phase := .initial 0 channels
  sent := []

def write (frame : Frame) (phase : Subscriber.Phase) (c : Client) : Client :=
  { c with phase := phase, sent := c.sent ++ [frame] }

/-- From one await point to the next. A `subscribe` waits for the publishers. -/
def advance (hub : Hub) (c : Client) : Hub × HubTask :=
  match c.phase with
  | .initial _ [] => (hub, .listen { c with phase := .listening })
  | .initial i (ch :: channels) =>
    if hub.readers = 0 then
      let (cursor, hub) := hub.subscribe ch
      (hub, .replace ch cursor { c with phase := .initialConfirm i ch channels })
    else (hub, .listen c)
  | .initialConfirm i ch channels =>
    (hub, .listen (c.write (confirmation ch (i + 1)) (.initial (i + 1) channels)))
  | .pushing ch msg => (hub, .listen (c.write (pushFrame ch msg) .listening))
  | .later [] => (hub, .listen { c with phase := .listening })
  | .later (ch :: channels) =>
    if c.streams.contains ch then (hub, .listen { c with phase := .laterConfirm ch channels })
    else if hub.readers = 0 then
      let (cursor, hub) := hub.subscribe ch
      (hub, .listen
        { c with streams := c.streams.insert ch cursor, phase := .laterConfirm ch channels })
    else (hub, .listen c)
  | .laterConfirm ch channels =>
    (hub, .listen (c.write (confirmation ch c.streams.size) (.later channels)))
  | .answering served =>
    (hub, .listen (c.write (if served then pong else onlySubscribe) .listening))
  | .listening => (hub, .listen c)
  | .closed => (hub, .close c.streams c.sent)

/-- The stream of the channel wins the `select!`, if it has something. -/
def take (hub : Hub) (ch : String) (c : Client) : Client :=
  match c.phase, c.streams.get? ch with
  | .listening, some cursor =>
    match (hub.channel ch).recv channelCapacity cursor with
    | (.message msg, cursor) =>
      { c with streams := c.streams.insert ch cursor, phase := .pushing ch msg }
    | (.lagged, cursor) => { c with streams := c.streams.insert ch cursor }
    | (.empty, _) => c
  | _, _ => c

def request [Unicode] (now : Instant) (frame : Option Frame) (c : Client) : Client :=
  match c.phase with
  | .listening => { c with phase := Subscriber.request now frame }
  | _ => c

end Client

namespace Hub

open Threads

section Run

variable [Unicode]

/-- One access of a thread. -/
def step (d : HubInput) (hub : Hub) : HubTask → Hub × (HubTask ⊕ HubResult)
  | .count ch msg =>
    match hub.channels.get? ch with
    | some b => ({ hub with readers := hub.readers + 1 }, .inl (.send ch msg b.receivers))
    | none => (hub, .inr (.published 0))
  | .send ch msg count =>
    ({ hub.send ch msg with readers := hub.readers - 1 }, .inr (.published count))
  | .listen c =>
    match d with
    | .advance => ((c.advance hub).1, .inl (c.advance hub).2)
    | .take ch => (hub, .inl (.listen (c.take hub ch)))
    | .request now frame => (hub, .inl (.listen (c.request now frame)))
    | .stop => (hub, .inl (.close c.streams c.sent))
  | .replace ch cursor c =>
    (if c.streams.contains ch then hub.drop ch else hub,
      .inl (.listen { c with streams := c.streams.insert ch cursor }))
  | .close streams sent =>
    match streams.keys with
    | [] => (hub, .inr (.closed sent))
    | ch :: _ => (hub.drop ch, .inl (.close (streams.erase ch) sent))

/-- Publishers and subscribers. -/
def connections : Sections Hub HubTask HubCall HubResult HubInput where
  enter
    | .publish ch msg => .count ch msg
    | .subscribe channels => .listen (.start channels)
  step := step

/-- What happens at a hub that nobody has used yet. -/
def serve (es : List (Threads.Event HubCall HubInput)) : Threads Hub HubTask HubCall HubResult :=
  runAll (Threads.perform connections) (Threads.start new) es

end Run

end Hub

namespace HubTask

/-- The receivers that the task has for good. -/
def streams : HubTask → Table String Nat
  | .listen c | .replace _ _ c => c.streams
  | .close streams _ => streams
  | .count _ _ | .send _ _ _ => ∅

def subscribed (ch : String) (task : HubTask) : Bool := task.streams.contains ch

/-- The task has one more receiver of the channel. -/
def replaces (ch : String) : HubTask → Bool
  | .replace c _ _ => decide (c = ch)
  | _ => false

/-- The task holds the lock. -/
def reads : HubTask → Bool
  | .send _ _ _ => true
  | _ => false

/-- The receivers of a channel that a task has. -/
def receivers (ch : String) (task : HubTask) : Nat :=
  (task.subscribed ch).toNat + (task.replaces ch).toNat

end HubTask

namespace Hub

open Threads

-- ---------------------------------------------------------------------------
-- What PUBLISH counts
-- ---------------------------------------------------------------------------

section Counts

variable {hub : Hub}

theorem channel_subscribe (hub : Hub) (ch c : String) :
    (hub.subscribe ch).2.channel c = if c = ch then (hub.channel ch).subscribe.2 else hub.channel c := by
  rw [subscribe, channel]
  dsimp only
  rw [Table.get?_insert]
  split <;> rfl

theorem channel_drop (hub : Hub) (ch c : String) :
    (hub.drop ch).channel c = if c = ch then (hub.channel ch).drop else hub.channel c := by
  rw [drop, channel, Table.get?_overwrite]
  split
  · rw [channel]
    cases hub.channels.get? ch <;> rfl
  · rfl

theorem channel_send (hub : Hub) (ch c : String) (msg : Bytes) :
    (hub.send ch msg).channel c = if c = ch then (hub.channel ch).send msg else hub.channel c := by
  rw [send, channel, Table.get?_overwrite]
  split
  · rw [channel]
    cases hub.channels.get? ch <;> rfl
  · rfl

theorem receivers_subscribe (hub : Hub) (ch c : String) :
    (hub.subscribe ch).2.receivers c = hub.receivers c + (decide (ch = c)).toNat := by
  rw [receivers, channel_subscribe]
  split
  · rename_i hc
    rw [decide_eq_true hc.symm, hc]
    rfl
  · rename_i hc
    rw [decide_eq_false (Ne.symm hc)]
    rfl

theorem receivers_drop (hub : Hub) (ch c : String) :
    (hub.drop ch).receivers c = hub.receivers c - (decide (ch = c)).toNat := by
  rw [receivers, channel_drop]
  split
  · rename_i hc
    rw [decide_eq_true hc.symm, hc]
    rfl
  · rename_i hc
    rw [decide_eq_false (Ne.symm hc)]
    rfl

theorem receivers_send (hub : Hub) (ch c : String) (msg : Bytes) :
    (hub.send ch msg).receivers c = hub.receivers c := by
  rw [receivers, channel_send]
  split
  · rename_i hc
    rw [Broadcast.receivers_send, hc]
    rfl
  · rfl

theorem contains_insert (streams : Table String Nat) (ch c : String) (cursor : Nat) :
    (streams.insert ch cursor).contains c = (decide (ch = c) || streams.contains c) := by
  rw [Table.contains, Table.get?_insert]
  split
  · rename_i hc
    rw [decide_eq_true hc.symm]
    rfl
  · rename_i hc
    rw [decide_eq_false (Ne.symm hc)]
    rfl

theorem contains_erase (streams : Table String Nat) (ch c : String) :
    (streams.erase ch).contains c = (!decide (ch = c) && streams.contains c) := by
  rw [Table.contains, Table.get?_erase]
  split
  · rename_i hc
    rw [decide_eq_true hc.symm]
    rfl
  · rename_i hc
    rw [decide_eq_false (Ne.symm hc)]
    rfl

/-- Going on, a subscriber has one more receiver for each time it subscribes. -/
theorem receivers_advance (hub : Hub) (c : Client) (ch : String) :
    (c.advance hub).1.receivers ch + (HubTask.listen c).receivers ch =
      hub.receivers ch + (c.advance hub).2.receivers ch := by
  rw [Client.advance]
  split
  · rfl
  · split
    · dsimp only
      rw [receivers_subscribe]
      simp only [HubTask.receivers, HubTask.subscribed, HubTask.replaces, HubTask.streams,
        Bool.toNat_false]
      omega
    · rfl
  · rfl
  · rfl
  · rfl
  · split
    · rfl
    · rename_i added _ _ hcontains
      split
      · dsimp only
        rw [receivers_subscribe]
        simp only [HubTask.receivers, HubTask.subscribed, HubTask.replaces, HubTask.streams,
          Bool.toNat_false, contains_insert]
        by_cases hch : added = ch
        · subst hch
          rw [Bool.eq_false_iff.mpr hcontains, decide_eq_true rfl]
          rfl
        · rw [decide_eq_false hch]
          rfl
      · rfl
  · rfl
  · rfl
  · rfl
  · rfl

theorem streams_take (hub : Hub) (ch c : String) (client : Client) :
    (client.take hub ch).streams.contains c = client.streams.contains c := by
  have hinsert : ∀ cursor cursor', client.streams.get? ch = some cursor →
      (client.streams.insert ch cursor').contains c = client.streams.contains c := by
    intro cursor cursor' hcursor
    rw [contains_insert]
    by_cases hc : ch = c
    · rw [← hc, decide_eq_true rfl, Table.contains, hcursor]
      rfl
    · rw [decide_eq_false hc, Bool.false_or]
  rw [Client.take]
  split
  · rename_i hcursor
    split
    · exact hinsert _ _ hcursor
    · exact hinsert _ _ hcursor
    · rfl
  · rfl

theorem streams_request [Unicode] (now : Instant) (frame : Option Frame) (c : Client) :
    (c.request now frame).streams = c.streams := by
  rw [Client.request]
  split <;> rfl

theorem receivers_listen {c c' : Client} {ch : String}
    (h : c'.streams.contains ch = c.streams.contains ch) :
    (HubTask.listen c').receivers ch = (HubTask.listen c).receivers ch := by
  rw [HubTask.receivers, HubTask.receivers, HubTask.subscribed, HubTask.subscribed]
  exact congrArg (fun b : Bool => b.toNat + 0) h

variable [Unicode]

/-- Every access changes the number of receivers by those its thread gets or gives up. -/
theorem receivers_step (d : HubInput) (hub : Hub) (task : HubTask) (ch : String)
    (h : task.receivers ch ≤ hub.receivers ch) :
    (step d hub task).1.receivers ch + task.receivers ch =
      hub.receivers ch + (step d hub task).2.elim (·.receivers ch) fun _ => 0 := by
  cases task with
  | count c msg =>
    rw [step]
    split <;> rfl
  | send c msg count =>
    show (hub.send c msg).receivers ch + 0 = _
    rw [receivers_send]
    rfl
  | listen c =>
    cases d with
    | advance => exact receivers_advance hub c ch
    | take taken =>
      exact congrArg (hub.receivers ch + ·) (receivers_listen (streams_take hub taken ch c)).symm
    | request now frame =>
      exact congrArg (hub.receivers ch + ·)
        (receivers_listen (by rw [streams_request now frame c])).symm
    | stop => rfl
  | replace c cursor client =>
    simp only [step, Sum.elim_inl]
    simp only [HubTask.receivers, HubTask.subscribed, HubTask.replaces, HubTask.streams,
      contains_insert] at h ⊢
    split
    · rename_i hcontains
      rw [receivers_drop]
      by_cases hc : c = ch
      · subst hc
        rw [hcontains] at h ⊢
        rw [decide_eq_true rfl] at h ⊢
        simp only [Bool.toNat_true, Bool.true_or, Bool.toNat_false] at h ⊢
        omega
      · rw [decide_eq_false hc]
        simp
    · rename_i hcontains
      by_cases hc : c = ch
      · subst hc
        rw [Bool.eq_false_iff.mpr hcontains, decide_eq_true rfl]
        rfl
      · rw [decide_eq_false hc]
        simp
  | close streams sent =>
    rw [step]
    split
    · rename_i hkeys
      have hnone : streams.contains ch = false := by
        rw [Table.contains, Table.get?_eq_none.mpr (by rw [hkeys]; exact List.not_mem_nil)]
        rfl
      simp only [HubTask.receivers, HubTask.subscribed, HubTask.streams, HubTask.replaces, hnone]
      rfl
    · rename_i c rest hkeys
      simp only [HubTask.receivers, HubTask.subscribed, HubTask.streams, HubTask.replaces,
        contains_erase, Sum.elim_inl] at h ⊢
      rw [receivers_drop]
      by_cases hc : c = ch
      · subst hc
        have hsome : streams.contains c = true := by
          rw [Table.contains, Option.isSome_iff_exists]
          exact Table.mem_keys.mp (by rw [hkeys]; exact List.mem_cons_self)
        rw [hsome] at h ⊢
        simp only [decide_true, Bool.toNat_true, Bool.toNat_false, Bool.not_true, Bool.false_and]
          at h ⊢
        omega
      · rw [decide_eq_false hc]
        simp

omit [Unicode] in
theorem readers_advance (hub : Hub) (c : Client) :
    (c.advance hub).1.readers = hub.readers ∧ (c.advance hub).2.reads = false := by
  rw [Client.advance]
  split
  · exact ⟨rfl, rfl⟩
  · split <;> exact ⟨rfl, rfl⟩
  · exact ⟨rfl, rfl⟩
  · exact ⟨rfl, rfl⟩
  · exact ⟨rfl, rfl⟩
  · split
    · exact ⟨rfl, rfl⟩
    · split <;> exact ⟨rfl, rfl⟩
  · exact ⟨rfl, rfl⟩
  · exact ⟨rfl, rfl⟩
  · exact ⟨rfl, rfl⟩
  · exact ⟨rfl, rfl⟩

/-- So does the number of publishers that hold the lock. -/
theorem readers_step (d : HubInput) (hub : Hub) (task : HubTask) (h : task.reads.toNat ≤ hub.readers) :
    (step d hub task).1.readers + task.reads.toNat =
      hub.readers + (step d hub task).2.elim (·.reads.toNat) fun _ => 0 := by
  cases task with
  | count c msg =>
    rw [step]
    split <;> rfl
  | send c msg count => exact Nat.sub_add_cancel h
  | listen c =>
    cases d with
    | advance =>
      obtain ⟨hreaders, hreads⟩ := readers_advance hub c
      simp only [step, Sum.elim_inl, hreaders, hreads]
      rfl
    | take | request | stop => rfl
  | replace c cursor client =>
    rw [step]
    dsimp only
    split <;> rfl
  | close streams sent =>
    rw [step]
    split <;> rfl

/-- While a publisher holds the lock nobody subscribes. -/
theorem receivers_step_le (d : HubInput) {hub : Hub} (hreaders : hub.readers ≠ 0) (task : HubTask)
    (ch : String) : (step d hub task).1.receivers ch ≤ hub.receivers ch := by
  have hdrop : ∀ c, (hub.drop c).receivers ch ≤ hub.receivers ch := by
    intro c
    rw [receivers_drop]
    exact Nat.sub_le _ _
  cases task with
  | count c msg =>
    rw [step]
    split <;> exact le_rfl
  | send c msg count => exact (receivers_send hub c ch msg).le
  | listen c =>
    cases d with
    | advance =>
      have hadvance : (c.advance hub).1 = hub := by
        rw [Client.advance]
        simp only [if_neg hreaders]
        split
        · rfl
        · rfl
        · rfl
        · rfl
        · rfl
        · split <;> rfl
        · rfl
        · rfl
        · rfl
        · rfl
      exact (congrArg (receivers · ch) hadvance).le
    | take | request | stop => exact le_rfl
  | replace c cursor client =>
    rw [step]
    dsimp only
    split
    · exact hdrop c
    · exact le_rfl
  | close streams sent =>
    rw [step]
    split
    · exact le_rfl
    · exact hdrop _

variable (es : List (Threads.Event HubCall HubInput))

/-- The channel has the receivers of the subscribed threads, and those that replace another. -/
theorem receivers_counted (ch : String) : (serve es).shared.receivers ch =
    (those (HubTask.subscribed ch) (serve es).running).ncard +
      (those (HubTask.replaces ch) (serve es).running).ncard := by
  obtain ⟨n, hn, hsum⟩ := weighed (m := connections) (q := fun hub => hub.receivers ch)
    (w := HubTask.receivers ch) (x := new) rfl (fun i => by cases i <;> rfl)
    (fun d hub task => receivers_step d hub task ch) es
  have hidle : ∀ t, n ≤ t → (serve es).running t = none :=
    fun t ht => running_eq_none_of_thread_lt hn ht
  rw [← weight_toNat hidle, ← weight_toNat hidle, ← weight_add]
  exact hsum

theorem readers_counted :
    (serve es).shared.readers = (those HubTask.reads (serve es).running).ncard := by
  obtain ⟨n, hn, hsum⟩ := weighed (m := connections) (q := fun hub => hub.readers)
    (w := fun task => task.reads.toNat) (x := new) rfl (fun i => by cases i <;> rfl)
    (fun d hub task => readers_step d hub task) es
  have hidle : ∀ t, n ≤ t → (serve es).running t = none :=
    fun t ht => running_eq_none_of_thread_lt hn ht
  rw [← weight_toNat hidle]
  exact hsum

/-- What a publisher counted bounds the receivers it sends to. -/
def Bounded (hub : Hub) : HubTask → Prop
  | .send ch _ count => hub.receivers ch ≤ count
  | _ => True

omit [Unicode] in
theorem bounded_of_not_reads {hub : Hub} {task : HubTask} (h : task.reads = false) :
    Bounded hub task := by
  cases task with
  | send => cases h
  | _ => trivial

theorem asserts_bounded : Asserts connections new Bounded fun _ _ => True where
  enter hub i := by cases i <;> trivial
  own d hub task h := by
    cases task with
    | count ch msg =>
      simp only [connections, step]
      split
      · rename_i b hchannel
        refine le_of_eq ?_
        show ((hub.channels.get? ch).getD .new).receivers = b.receivers
        rw [hchannel]
        rfl
      · trivial
    | listen c =>
      cases d with
      | advance => exact bounded_of_not_reads (readers_advance hub c).2
      | take | request | stop => trivial
    | close streams sent =>
      simp only [connections, step]
      split <;> trivial
    | send | replace => trivial
  tasks es t t' task task' d ht htask htask' h := by
    cases task with
    | send ch msg count =>
      have hreaders : (serve es).shared.readers ≠ 0 := by
        rw [readers_counted]
        exact Set.ncard_ne_zero_of_mem ((Option.any_eq_true _ _).mpr ⟨_, htask, rfl⟩)
          (finite_those _ _ _ _)
      exact (receivers_step_le d hreaders task' ch).trans h
    | _ => trivial
  results _ _ _ _ _ := trivial

/-- The receivers of a channel that the threads have. -/
noncomputable def receiversOf (ch : String) (s : Threads Hub HubTask HubCall HubResult) : Nat :=
  (those (HubTask.subscribed ch) s.running).ncard + (those (HubTask.replaces ch) s.running).ncard

omit es in
theorem step_eq_send {d : HubInput} {hub : Hub} {task : HubTask} {ch : String} {msg : Bytes}
    {k : Nat} (h : (step d hub task).2 = .inl (.send ch msg k)) :
    task = .count ch msg ∧ hub.receivers ch = k := by
  cases task with
  | count c m =>
    rw [step] at h
    split at h
    · rename_i b hchannel
      cases h
      refine ⟨rfl, ?_⟩
      rw [receivers, channel, hchannel]
      rfl
    · cases h
  | listen c =>
    cases d with
    | advance =>
      have hreads := (readers_advance hub c).2
      rw [Sum.inl.inj h] at hreads
      cases hreads
    | take | request | stop => cases h
  | close streams sent =>
    rw [step] at h
    split at h <;> cases h
  | send | replace => cases h

/-- A publisher that is about to send counted the receivers before. -/
theorem exists_count {es : List (Threads.Event HubCall HubInput)} {t : Nat} {ch : String}
    {msg : Bytes} {k : Nat} (h : (serve es).running t = some (.send ch msg k)) :
    ∃ done d later, es = done ++ .step t d :: later ∧ (∀ d', .step t d' ∉ later) ∧
      (serve done).running t = some (.count ch msg) ∧ (serve done).shared.receivers ch = k := by
  induction es using List.reverseRecOn with
  | nil => cases h
  | append_singleton es e ih =>
    rw [serve, runAll_append] at h
    change ((serve es).perform connections e).running t = _ at h
    cases hrunning : (serve es).running t with
    | none =>
      -- a call does not begin there
      exfalso
      cases e with
      | call t' i =>
        by_cases ht : t = t'
        · subst ht
          rw [perform, hrunning] at h
          change Function.update _ t _ t = _ at h
          rw [Function.update_self] at h
          cases i <;> cases h
        · rw [running_perform_thread_ne _ _ ht, hrunning] at h
          cases h
      | step t' d =>
        by_cases ht : t = t'
        · subst ht
          rw [perform, hrunning] at h
          rw [hrunning] at h
          cases h
        · rw [running_perform_thread_ne _ _ ht, hrunning] at h
          cases h
    | some task =>
      by_cases he : ∃ d, e = .step t d
      · obtain ⟨d, rfl⟩ := he
        rw [running_perform_self hrunning] at h
        cases hnext : (connections.step d (serve es).shared task).2 with
        | inr r =>
          rw [hnext] at h
          cases h
        | inl next =>
          rw [hnext] at h
          cases h
          obtain ⟨rfl, hcount⟩ := step_eq_send hnext
          exact ⟨es, d, [], rfl, fun _ => List.not_mem_nil, hrunning, hcount⟩
      · have hne : ∀ d, e ≠ .step t d := fun d hd => he ⟨d, hd⟩
        rw [running_perform_of_ne hrunning hne] at h
        obtain ⟨done, d, later, hes, hlater, hcounted⟩ := ih (hrunning.trans h)
        refine ⟨done, d, later ++ [e], by rw [hes, List.append_assoc]; rfl, fun d' hd' => ?_,
          hcounted⟩
        rcases List.mem_append.mp hd' with hd' | hd'
        · exact hlater d' hd'
        · exact hne d' (List.mem_singleton.mp hd').symm

/-- `PUBLISH` replies how many receivers the subscribers had when it counted them. When it sends,
they have no more. -/
theorem publish_counts {es : List (Threads.Event HubCall HubInput)} {t : Nat} {ch : String}
    {msg : Bytes} {k : Nat} (h : (serve es).running t = some (.send ch msg k)) :
    (∃ done d later, es = done ++ .step t d :: later ∧ (∀ d', .step t d' ∉ later) ∧
      (serve done).running t = some (.count ch msg) ∧ receiversOf ch (serve done) = k) ∧
      receiversOf ch (serve es) ≤ k := by
  obtain ⟨done, d, later, hes, hlater, hrunning, hcount⟩ := exists_count h
  rw [receivers_counted] at hcount
  refine ⟨⟨done, d, later, hes, hlater, hrunning, hcount⟩, ?_⟩
  have hbound := (asserts_bounded.run es).tasks t _ h
  change (serve es).shared.receivers ch ≤ k at hbound
  rwa [receivers_counted] at hbound

end Counts

/-- A subscriber of one channel, and a publisher that has counted it. -/
theorem publish_counts_one :
    let es : List (Threads.Event HubCall HubInput) :=
      [.call 0 (.subscribe ["c"]), .step 0 .advance, .step 0 .advance, .call 1 (.publish "c" [109]),
        .step 1 .advance]
    (∃ done d later, es = done ++ .step 1 d :: later ∧ (∀ d', .step 1 d' ∉ later) ∧
      (@serve Unicode.ascii done).running 1 = some (.count "c" [109]) ∧
        receiversOf "c" (@serve Unicode.ascii done) = 1) ∧
      receiversOf "c" (@serve Unicode.ascii es) ≤ 1 := by
  intro es
  exact @publish_counts Unicode.ascii es 1 "c" [109] 1 (by with_unfolding_all rfl)

end Hub

end InMemoryCache
