-- SUMMARY: Subscriber mode, and which published messages reach the subscriber.
import Mathlib.Data.List.TakeWhile
import InMemoryCache.Lib.Run
import InMemoryCache.Cmd.Apply

/-!
# Subscriber mode

`run_subscriber_mode` subscribes the channels of the initial `SUBSCRIBE` one after the
other, and then takes turns between the messages of its receivers and the client's
requests. The initial list replaces the receiver of a channel it names twice; a later
`SUBSCRIBE` keeps it.
-/

namespace InMemoryCache

open Lib

namespace Subscriber

-- ---------------------------------------------------------------------------
-- What the client is sent
-- ---------------------------------------------------------------------------

def confirmation (ch : String) (count : Nat) : Frame :=
  .array [.bulk (asBytes "subscribe"), .bulk (asBytes ch), .ofUsize count]

def pushFrame (ch : String) (msg : Bytes) : Frame :=
  .array [.bulk (asBytes "message"), .bulk (asBytes ch), .bulk msg]

def pong : Frame := .array [.bulk (asBytes "pong"), .bulk (asBytes "")]

def onlySubscribe : Frame :=
  .error
    "ERR only (P)SUBSCRIBE / (P)UNSUBSCRIBE / PING / QUIT are allowed in this context"

/-- What happened, in order: other connections published, and the subscriber was sent
frames. -/
inductive Entry where
  | published (channel : String) (msg : Bytes)
  | sent (frame : Frame)

/-- The message, if the entry publishes one on `ch`. -/
def Entry.published? (ch : String) : Entry → Option Bytes
  | .published channel msg => if channel = ch then some msg else none
  | .sent _ => none

/-- The message, if the entry pushes one of `ch`. -/
def Entry.pushed? (ch : String) : Entry → Option Bytes
  | .sent (.array [.bulk kind, .bulk channel, .bulk msg]) =>
    if kind = asBytes "message" ∧ channel = asBytes ch then some msg else none
  | _ => none

/-- The entry confirms a subscription to `ch`. -/
def Entry.confirms (ch : String) : Entry → Bool
  | .sent (.array [.bulk kind, .bulk channel, .integer _]) =>
    decide (kind = asBytes "subscribe" ∧ channel = asBytes ch)
  | _ => false

def published (ch : String) (history : List Entry) : List Bytes :=
  history.filterMap (Entry.published? ch)

def pushed (ch : String) (history : List Entry) : List Bytes :=
  history.filterMap (Entry.pushed? ch)

def confirmed (ch : String) (history : List Entry) : Bool := history.any (Entry.confirms ch)

/-- The messages published on `ch` after its first confirmation. -/
def after (ch : String) (history : List Entry) : List Bytes :=
  published ch (history.dropWhile fun entry => !entry.confirms ch)

-- ---------------------------------------------------------------------------
-- run_subscriber_mode
-- ---------------------------------------------------------------------------

/-- A receiver, by the messages it has yet to take. One that falls behind by more than the
capacity of the channel loses the oldest. -/
def receive (queue : List Bytes) (msg : Bytes) : List Bytes :=
  (queue ++ [msg]).drop (queue.length + 1 - channelCapacity)

/-- What sending does to each receiver of a channel. -/
theorem pending_send (channel : Channel) (msg : Bytes) :
    (channel.send msg).pending = channel.pending.map (receive · msg) := rfl

/-- Where `run_subscriber_mode` stands. -/
inductive Phase where
  /-- In the loop over the initial list, with `i` channels done. -/
  | initial (i : Nat) (channels : List String)
  | initialConfirm (i : Nat) (ch : String) (channels : List String)
  /-- At the `select!`. -/
  | listening
  | pushing (ch : String) (msg : Bytes)
  /-- In the loop over the channels of a later `SUBSCRIBE`. -/
  | later (channels : List String)
  | laterConfirm (ch : String) (channels : List String)
  /-- About to answer a `PING`, or to refuse another command. -/
  | answering (served : Bool)
  | closed

/-- What can happen: another connection publishes, the stream of a channel or the client
wins the `select!`, or the subscriber goes on to its next await point. -/
inductive Event where
  | publish (ch : String) (msg : Bytes)
  | take (ch : String)
  | request (now : Instant) (frame : Option Frame)
  | advance

end Subscriber

/-- A subscriber: the streams of its `StreamMap`, where it stands, and what happened. -/
structure Subscriber where
  subscriptions : Table String (List Bytes)
  phase : Subscriber.Phase
  history : List Subscriber.Entry

namespace Subscriber

def start (channels : List String) : Subscriber where
  subscriptions := ∅
  phase := .initial 0 channels
  history := []

def write (frame : Frame) (phase : Phase) (s : Subscriber) : Subscriber :=
  { s with phase := phase, history := s.history ++ [.sent frame] }

/-- From one await point to the next. -/
def advance (s : Subscriber) : Subscriber :=
  match s.phase with
  | .initial _ [] => { s with phase := .listening }
  | .initial i (ch :: channels) =>
    { s with subscriptions := s.subscriptions.insert ch [], phase := .initialConfirm i ch channels }
  | .initialConfirm i ch channels => s.write (confirmation ch (i + 1)) (.initial (i + 1) channels)
  | .pushing ch msg => s.write (pushFrame ch msg) .listening
  | .later [] => { s with phase := .listening }
  | .later (ch :: channels) =>
    if s.subscriptions.contains ch then { s with phase := .laterConfirm ch channels }
    else
      { s with subscriptions := s.subscriptions.insert ch [], phase := .laterConfirm ch channels }
  | .laterConfirm ch channels => s.write (confirmation ch s.subscriptions.size) (.later channels)
  | .answering served => s.write (if served then pong else onlySubscribe) .listening
  | .listening | .closed => s

/-- What the client's next request leads to. -/
def request [Unicode] (now : Instant) : Option Frame → Phase
  | none => .closed
  | some frame =>
    match Command.fromFrame now frame with
    | .ok (.pubSub (.subscribe channels)) => .later channels
    | .ok (.ping _) => .answering true
    | .panic => .closed
    | _ => .answering false

def step [Unicode] (s : Subscriber) : Event → Subscriber
  | .publish ch msg =>
    { s with
      subscriptions :=
        s.subscriptions.overwrite ch ((s.subscriptions.get? ch).map (receive · msg)),
      history := s.history ++ [.published ch msg] }
  | .take ch =>
    match s.phase, s.subscriptions.get? ch with
    | .listening, some (msg :: queue) =>
      { s with subscriptions := s.subscriptions.insert ch queue, phase := .pushing ch msg }
    | _, _ => s
  | .request now frame =>
    match s.phase with
    | .listening => { s with phase := request now frame }
    | _ => s
  | .advance => s.advance

-- ---------------------------------------------------------------------------
-- Delivery
-- ---------------------------------------------------------------------------

/-- The message of `ch` that was taken and not written yet. -/
def Phase.hand (ch : String) : Phase → List Bytes
  | .pushing channel msg => if channel = ch then [msg] else []
  | _ => []

/-- The messages of `ch` that are on their way to the client. -/
def pending (ch : String) (s : Subscriber) : List Bytes :=
  s.phase.hand ch ++ (s.subscriptions.get? ch).getD []

/-- What was pushed or is on its way is the end of what was published on the channel, each
message once and in order, and all that was published after the first confirmation. -/
def Delivers (s : Subscriber) (ch : String) : Prop :=
  after ch s.history <:+ pushed ch s.history ++ s.pending ch ∧
    pushed ch s.history ++ s.pending ch <:+ published ch s.history

/-- Each receiver keeps fewer messages than its channel holds. -/
def KeepsUp (s : Subscriber) : Event → Prop
  | .publish ch _ =>
    ∀ queue, s.subscriptions.get? ch = some queue → queue.length + 1 < channelCapacity
  | _ => True

/-- A channel that the initial list names again has had no message since its first
confirmation. -/
def Untouched (s : Subscriber) : Event → Prop
  | .advance => ∀ i ch channels, s.phase = .initial i (ch :: channels) → after ch s.history = []
  | _ => True

/-! ## The history, one entry longer -/

theorem asBytes_injective {s t : String} (h : asBytes s = asBytes t) : s = t := by
  have hread := congrArg fromUtf8 h
  rw [fromUtf8_asBytes, fromUtf8_asBytes] at hread
  exact Option.some.inj hread

theorem filterMap_concat {α β : Type} (f : α → Option β) (l : List α) (a : α) :
    (l ++ [a]).filterMap f = l.filterMap f ++ (f a).toList := by
  rw [List.filterMap_append]
  cases h : f a with
  | none => rw [List.filterMap_cons_none h]; rfl
  | some b => rw [List.filterMap_cons_some h]; rfl

theorem published_concat (ch : String) (history : List Entry) (entry : Entry) :
    published ch (history ++ [entry]) = published ch history ++ (entry.published? ch).toList :=
  filterMap_concat _ history entry

theorem pushed_concat (ch : String) (history : List Entry) (entry : Entry) :
    pushed ch (history ++ [entry]) = pushed ch history ++ (entry.pushed? ch).toList :=
  filterMap_concat _ history entry

theorem confirmed_concat (ch : String) (history : List Entry) (entry : Entry) :
    confirmed ch (history ++ [entry]) = (confirmed ch history || entry.confirms ch) := by
  rw [confirmed, List.any_append, List.any_cons, List.any_nil, Bool.or_false]
  rfl

theorem dropWhile_eq_nil {ch : String} {history : List Entry} :
    history.dropWhile (fun entry => !entry.confirms ch) = [] ↔ confirmed ch history = false := by
  rw [List.dropWhile_eq_nil_iff, confirmed, List.any_eq_false]
  exact forall₂_congr fun entry _ => by rw [Bool.not_eq_true', Bool.not_eq_true]

theorem after_of_not_confirmed {ch : String} {history : List Entry}
    (h : confirmed ch history = false) : after ch history = [] := by
  rw [after, dropWhile_eq_nil.mpr h]
  rfl

theorem after_concat (ch : String) (history : List Entry) (entry : Entry) :
    after ch (history ++ [entry]) =
      if confirmed ch history then after ch history ++ (entry.published? ch).toList else [] := by
  rw [after, List.dropWhile_append]
  cases h : confirmed ch history with
  | true =>
    have hne : history.dropWhile (fun entry => !entry.confirms ch) ≠ [] := fun hnil => by
      rw [dropWhile_eq_nil.mp hnil] at h
      cases h
    rw [if_neg (by rwa [List.isEmpty_iff]), if_pos rfl]
    exact published_concat ch _ entry
  | false =>
    rw [if_pos (by rw [dropWhile_eq_nil.mpr h]; rfl), if_neg Bool.false_ne_true]
    cases hentry : entry.confirms ch with
    | true =>
      -- a confirmation publishes nothing itself
      rw [List.dropWhile_cons_of_neg (by rw [hentry]; decide)]
      cases entry with
      | published => cases hentry
      | sent => rfl
    | false =>
      rw [List.dropWhile_cons_of_pos (by rw [hentry]; rfl)]
      rfl

/-! ## What a frame is to the client -/

theorem pushed?_pushFrame (ch channel : String) (msg : Bytes) :
    (Entry.sent (pushFrame channel msg)).pushed? ch = if channel = ch then some msg else none := by
  rw [pushFrame, Entry.pushed?]
  refine if_congr ⟨fun h => asBytes_injective h.2, fun h => ⟨rfl, by rw [h]⟩⟩ rfl rfl

theorem confirms_confirmation (ch channel : String) (count : Nat) :
    (Entry.sent (confirmation channel count)).confirms ch = decide (channel = ch) := by
  rw [confirmation, Frame.ofUsize, Entry.confirms, decide_eq_decide]
  exact ⟨fun h => asBytes_injective h.2, fun h => ⟨rfl, by rw [h]⟩⟩

theorem pushed?_answer (ch : String) (served : Bool) :
    (Entry.sent (if served then pong else onlySubscribe)).pushed? ch = none := by
  cases served <;> rfl

theorem confirms_answer (ch : String) (served : Bool) :
    (Entry.sent (if served then pong else onlySubscribe)).confirms ch = false := by
  cases served <;> rfl

/-! ## Steps -/

def held (ch : String) (s : Subscriber) : List Bytes := pushed ch s.history ++ s.pending ch

/-- The channel whose stream the phase relies on. -/
def Phase.channel? : Phase → Option String
  | .initialConfirm _ ch _ | .laterConfirm ch _ | .pushing ch _ => some ch
  | _ => none

def Phase.isInitial : Phase → Bool
  | .initial _ _ | .initialConfirm _ _ _ => true
  | _ => false

/-- A channel holds the end of what was published on it, nothing before it is subscribed,
and nothing of it is pushed before the initial list is done. -/
structure Consistent (s : Subscriber) : Prop where
  ordered : ∀ ch, s.held ch <:+ published ch s.history
  unsubscribed : ∀ ch, s.subscriptions.get? ch = none →
    s.held ch = [] ∧ confirmed ch s.history = false
  subscribed : ∀ ch, s.phase.channel? = some ch → s.subscriptions.get? ch ≠ none
  quiet : s.phase.isInitial = true → ∀ ch, pushed ch s.history = []

theorem consistent_start (channels : List String) : (start channels).Consistent where
  ordered ch := List.nil_suffix
  unsubscribed ch _ := ⟨rfl, rfl⟩
  subscribed ch h := by cases h
  quiet _ ch := rfl

theorem delivers_iff {s : Subscriber} (h : s.Consistent) {ch : String} :
    s.Delivers ch ↔ after ch s.history <:+ s.held ch :=
  and_iff_left (h.ordered ch)

/-- A step that moves no message, or moves one from hand to hand. -/
structure Keeps (s s' : Subscriber) : Prop where
  held : ∀ ch, s'.held ch = s.held ch
  published : ∀ ch, published ch s'.history = published ch s.history
  after : ∀ ch, after ch s'.history = after ch s.history

section Steps

variable {s s' : Subscriber}

theorem Keeps.delivers_iff (hkeeps : s.Keeps s') (h : s.Consistent) (h' : s'.Consistent)
    {ch : String} : s'.Delivers ch ↔ s.Delivers ch := by
  rw [Subscriber.delivers_iff h, Subscriber.delivers_iff h', hkeeps.held, hkeeps.after]

/-- The phase changes, and hands nothing over. -/
theorem keeps_phase {phase : Phase} (hhand : ∀ ch, phase.hand ch = s.phase.hand ch) :
    s.Keeps { s with phase := phase } where
  held ch := by rw [held, held, pending, pending, hhand]
  published ch := rfl
  after ch := rfl

theorem consistent_phase (h : s.Consistent) {phase : Phase}
    (hhand : ∀ ch, phase.hand ch = s.phase.hand ch)
    (hsubscribed : ∀ ch, phase.channel? = some ch → s.subscriptions.get? ch ≠ none)
    (hinitial : phase.isInitial = true → s.phase.isInitial = true) :
    Consistent { s with phase := phase } where
  ordered ch := (keeps_phase hhand).held ch ▸ h.ordered ch
  unsubscribed ch hnone := (keeps_phase hhand).held ch ▸ h.unsubscribed ch hnone
  subscribed := hsubscribed
  quiet hphase := h.quiet (hinitial hphase)

/-- A frame is written: what it pushes was in hand. -/
theorem keeps_write {frame : Frame} {phase : Phase}
    (hhand : ∀ ch, ((Entry.sent frame).pushed? ch).toList ++ phase.hand ch = s.phase.hand ch) :
    s.Keeps (s.write frame phase) where
  held ch := by
    show pushed ch (s.history ++ [.sent frame]) ++ (phase.hand ch ++ _) = _
    rw [pushed_concat, List.append_assoc, ← List.append_assoc _ (phase.hand ch), hhand]
    rfl
  published ch := by
    show published ch (s.history ++ [.sent frame]) = _
    rw [published_concat]
    exact List.append_nil _
  after ch := by
    show after ch (s.history ++ [.sent frame]) = _
    rw [after_concat]
    split
    · exact List.append_nil _
    · rename_i hconfirmed
      exact (after_of_not_confirmed (Bool.not_eq_true _ ▸ hconfirmed)).symm

theorem consistent_write (h : s.Consistent) {frame : Frame} {phase : Phase}
    (hhand : ∀ ch, ((Entry.sent frame).pushed? ch).toList ++ phase.hand ch = s.phase.hand ch)
    (hconfirms : ∀ ch, (Entry.sent frame).confirms ch = true → s.phase.channel? = some ch)
    (hchannel : phase.channel? = none)
    (hinitial : phase.isInitial = true →
      s.phase.isInitial = true ∧ ∀ ch, (Entry.sent frame).pushed? ch = none) :
    (s.write frame phase).Consistent where
  ordered ch := by
    rw [(keeps_write hhand).held, (keeps_write hhand).published]
    exact h.ordered ch
  unsubscribed ch hnone := by
    obtain ⟨hheld, hconfirmed⟩ := h.unsubscribed ch hnone
    refine ⟨(keeps_write hhand).held ch ▸ hheld, ?_⟩
    show confirmed ch (s.history ++ [.sent frame]) = false
    rw [confirmed_concat, hconfirmed, Bool.false_or, Bool.eq_false_iff]
    exact fun hsent => h.subscribed ch (hconfirms ch hsent) hnone
  subscribed ch hch := by
    rw [write, hchannel] at hch
    cases hch
  quiet hphase ch := by
    obtain ⟨hold, hpushed⟩ := hinitial hphase
    show pushed ch (s.history ++ [.sent frame]) = []
    rw [pushed_concat, h.quiet hold, hpushed]
    rfl

/-- The streams change, and what a channel holds does not. -/
theorem consistent_streams (h : s.Consistent) {subscriptions : Table String (List Bytes)}
    {phase : Phase}
    (hkeeps : s.Keeps { s with subscriptions := subscriptions, phase := phase })
    (hnone : ∀ ch, subscriptions.get? ch = none → s.subscriptions.get? ch = none)
    (hsubscribed : ∀ ch, phase.channel? = some ch → subscriptions.get? ch ≠ none)
    (hinitial : phase.isInitial = false) :
    Consistent { s with subscriptions := subscriptions, phase := phase } where
  ordered ch := hkeeps.held ch ▸ h.ordered ch
  unsubscribed ch hch := hkeeps.held ch ▸ h.unsubscribed ch (hnone ch hch)
  subscribed := hsubscribed
  quiet hphase := absurd hphase (Bool.eq_false_iff.mp hinitial)

/-- A channel without a stream gets an empty one. -/
theorem keeps_subscribe {ch : String} {channels : List String}
    (hphase : s.phase = .later (ch :: channels)) (hnone : s.subscriptions.get? ch = none) :
    s.Keeps
      { s with
        subscriptions := s.subscriptions.insert ch [], phase := .laterConfirm ch channels } where
  held c := by
    rw [held, held, pending, pending, hphase, Table.get?_insert]
    split
    · rename_i hc
      rw [hc, hnone]
      rfl
    · rfl
  published ch := rfl
  after ch := rfl

/-- The next message of a stream is taken in hand. -/
theorem keeps_take {ch : String} {msg : Bytes} {queue : List Bytes}
    (hphase : s.phase = .listening) (hqueue : s.subscriptions.get? ch = some (msg :: queue)) :
    s.Keeps
      { s with subscriptions := s.subscriptions.insert ch queue, phase := .pushing ch msg } where
  held c := by
    have hhand : (Phase.pushing ch msg).hand c = if ch = c then [msg] else [] := rfl
    rw [held, held, pending, pending, hphase, Table.get?_insert, hhand]
    split
    · rename_i hc
      rw [← hc, if_pos rfl, hqueue]
      rfl
    · rename_i hc
      rw [if_neg (Ne.symm hc)]
      rfl
  published ch := rfl
  after ch := rfl

/-! ### The initial list -/

/-- The stream of a channel of the initial list is replaced, and what it held is gone. -/
theorem held_replace {i : Nat} {ch : String} {channels : List String} (h : s.Consistent)
    (hphase : s.phase = .initial i (ch :: channels)) (c : String) :
    held c { s with
        subscriptions := s.subscriptions.insert ch [], phase := .initialConfirm i ch channels } =
      if c = ch then [] else s.held c := by
  rw [held, held, pending, pending, hphase, Table.get?_insert,
    h.quiet (by rw [hphase]; rfl) c]
  split <;> rfl

theorem consistent_replace {i : Nat} {ch : String} {channels : List String} (h : s.Consistent)
    (hphase : s.phase = .initial i (ch :: channels)) :
    Consistent { s with
      subscriptions := s.subscriptions.insert ch [], phase := .initialConfirm i ch channels } where
  ordered c := by
    rw [held_replace h hphase]
    split
    · exact List.nil_suffix
    · exact h.ordered c
  unsubscribed c hnone := by
    rw [Table.get?_insert] at hnone
    split at hnone
    · cases hnone
    · rename_i hc
      rw [held_replace h hphase, if_neg hc]
      exact h.unsubscribed c hnone
  subscribed c hc := by
    cases hc
    rw [Table.get?_insert, if_pos rfl]
    exact Option.some_ne_none []
  quiet _ := h.quiet (by rw [hphase]; rfl)

theorem delivers_replace {i : Nat} {ch : String} {channels : List String} (h : s.Consistent)
    (hphase : s.phase = .initial i (ch :: channels)) :
    (∀ c, Delivers { s with
        subscriptions := s.subscriptions.insert ch [], phase := .initialConfirm i ch channels } c) ↔
      (∀ c, s.Delivers c) ∧ after ch s.history = [] := by
  simp only [delivers_iff h, delivers_iff (consistent_replace h hphase), held_replace h hphase]
  constructor
  · intro hall
    have hch := hall ch
    rw [if_pos rfl, List.suffix_nil] at hch
    refine ⟨fun c => ?_, hch⟩
    by_cases hc : c = ch
    · rw [hc, hch]
      exact List.nil_suffix
    · have hother := hall c
      rwa [if_neg hc] at hother
  · rintro ⟨hall, hch⟩ c
    split
    · rename_i hc
      rw [hc]
      exact List.suffix_nil.mpr hch
    · exact hall c

/-! ### Publishing -/

/-- A receiver that keeps up loses nothing. -/
theorem receive_eq {queue : List Bytes} {msg : Bytes} (h : queue.length + 1 < channelCapacity) :
    receive queue msg = queue ++ [msg] := by
  rw [receive, Nat.sub_eq_zero_of_le h.le, List.drop_zero]

theorem get?_publish [Unicode] (ch c : String) (msg : Bytes) (h : s.KeepsUp (.publish ch msg)) :
    (s.step (.publish ch msg)).subscriptions.get? c =
      (s.subscriptions.get? c).map (· ++ if ch = c then [msg] else []) := by
  rw [step, Table.get?_overwrite]
  split
  · rename_i hc
    subst hc
    rw [if_pos rfl]
    cases hqueue : s.subscriptions.get? c with
    | none => simp only [Option.map_none]
    | some queue => exact congrArg some (receive_eq (h queue hqueue))
  · rename_i hc
    rw [if_neg (Ne.symm hc)]
    cases s.subscriptions.get? c with
    | none => rfl
    | some queue => exact congrArg some (List.append_nil queue).symm

theorem pending_publish [Unicode] (ch c : String) (msg : Bytes) (h : s.KeepsUp (.publish ch msg)) :
    (s.step (.publish ch msg)).pending c =
      s.pending c ++
        if s.subscriptions.get? c = none then [] else if ch = c then [msg] else [] := by
  rw [pending, pending, get?_publish ch c msg h, List.append_assoc]
  congr 1
  cases s.subscriptions.get? c with
  | none => rfl
  | some queue => rfl

theorem held_publish [Unicode] (ch c : String) (msg : Bytes) (h : s.KeepsUp (.publish ch msg)) :
    (s.step (.publish ch msg)).held c =
      s.held c ++ if s.subscriptions.get? c = none then [] else if ch = c then [msg] else [] := by
  rw [held, pending_publish ch c msg h, held, List.append_assoc]
  congr 1
  show pushed c (s.history ++ [.published ch msg]) = _
  rw [pushed_concat]
  exact List.append_nil _

theorem published?_toList (ch c : String) (msg : Bytes) :
    ((Entry.published ch msg).published? c).toList = if ch = c then [msg] else [] := by
  rw [Entry.published?]
  split <;> rfl

theorem consistent_publish [Unicode] (h : s.Consistent) (ch : String) (msg : Bytes)
    (hkeepsUp : s.KeepsUp (.publish ch msg)) : (s.step (.publish ch msg)).Consistent where
  ordered c := by
    rw [held_publish ch c msg hkeepsUp]
    show _ <:+ published c (s.history ++ [.published ch msg])
    rw [published_concat, published?_toList]
    split
    · rename_i hnone
      rw [(h.unsubscribed c hnone).1]
      exact List.nil_suffix
    · exact List.suffix_append_self_iff.mpr (h.ordered c)
  unsubscribed c hnone := by
    rw [get?_publish ch c msg hkeepsUp, Option.map_eq_none_iff] at hnone
    obtain ⟨hheld, hconfirmed⟩ := h.unsubscribed c hnone
    constructor
    · rw [held_publish ch c msg hkeepsUp, if_pos hnone, hheld]
      rfl
    · show confirmed c (s.history ++ [.published ch msg]) = false
      rw [confirmed_concat, hconfirmed]
      rfl
  subscribed c hc := by
    rw [get?_publish ch c msg hkeepsUp, Ne, Option.map_eq_none_iff]
    exact h.subscribed c hc
  quiet hphase c := by
    show pushed c (s.history ++ [.published ch msg]) = []
    rw [pushed_concat, h.quiet hphase c]
    rfl

theorem delivers_publish [Unicode] (h : s.Consistent) (ch : String) (msg : Bytes)
    (hkeepsUp : s.KeepsUp (.publish ch msg)) (c : String) :
    (s.step (.publish ch msg)).Delivers c ↔ s.Delivers c := by
  rw [delivers_iff h, delivers_iff (consistent_publish h ch msg hkeepsUp),
    held_publish ch c msg hkeepsUp]
  show after c (s.history ++ [.published ch msg]) <:+ _ ↔ _
  rw [after_concat, published?_toList]
  cases hconfirmed : confirmed c s.history with
  | true =>
    have hsome : s.subscriptions.get? c ≠ none := fun hnone => by
      rw [(h.unsubscribed c hnone).2] at hconfirmed
      cases hconfirmed
    rw [if_pos rfl, if_neg hsome]
    exact List.suffix_append_self_iff
  | false =>
    rw [if_neg Bool.false_ne_true, after_of_not_confirmed hconfirmed]
    exact iff_of_true List.nil_suffix List.nil_suffix

/-! ### Any step -/

/-- With nothing in hand the subscriber goes back to listening. -/
theorem keeps_listening (h : s.Consistent)
    (hhand : ∀ ch, Phase.listening.hand ch = s.phase.hand ch) :
    s.Keeps { s with phase := .listening } ∧ Consistent { s with phase := .listening } := by
  have hchannel : ∀ ch, Phase.listening.channel? = some ch → s.subscriptions.get? ch ≠ none :=
    fun ch hch => absurd hch (Option.some_ne_none ch).symm
  have hinitial : Phase.listening.isInitial = true → s.phase.isInitial = true :=
    fun hphase => absurd hphase Bool.false_ne_true
  exact ⟨keeps_phase hhand, consistent_phase h hhand hchannel hinitial⟩

/-- The channel being subscribed is confirmed. -/
theorem keeps_confirmation (h : s.Consistent) {ch : String} (n : Nat) {phase : Phase}
    (hhand : ∀ c, phase.hand c = s.phase.hand c) (hconfirms : s.phase.channel? = some ch)
    (hchannel : phase.channel? = none)
    (hinitial : phase.isInitial = true → s.phase.isInitial = true) :
    s.Keeps (s.write (confirmation ch n) phase) ∧
      (s.write (confirmation ch n) phase).Consistent := by
  have hwritten : ∀ c, ((Entry.sent (confirmation ch n)).pushed? c).toList ++ phase.hand c =
      s.phase.hand c := hhand
  refine ⟨keeps_write hwritten, consistent_write h hwritten (fun c hc => ?_) hchannel fun hp => ?_⟩
  · rw [confirms_confirmation, decide_eq_true_iff] at hc
    rw [hconfirms, hc]
  · exact ⟨hinitial hp, fun _ => rfl⟩

/-- A frame that confirms nothing is written, and the subscriber listens again. -/
theorem keeps_answer (h : s.Consistent) {frame : Frame}
    (hhand : ∀ c, ((Entry.sent frame).pushed? c).toList ++ Phase.listening.hand c = s.phase.hand c)
    (hconfirms : ∀ c, (Entry.sent frame).confirms c = false) :
    s.Keeps (s.write frame .listening) ∧ (s.write frame .listening).Consistent := by
  refine ⟨keeps_write hhand, consistent_write h hhand (fun c hc => ?_) rfl fun hinitial => ?_⟩
  · exact absurd hc (Bool.eq_false_iff.mp (hconfirms c))
  · exact absurd hinitial Bool.false_ne_true

/-- A channel of a later list keeps its stream, or gets an empty one. -/
theorem keeps_later (h : s.Consistent) {ch : String} {channels : List String}
    (hphase : s.phase = .later (ch :: channels)) : s.Keeps s.advance ∧ s.advance.Consistent := by
  rw [advance, hphase]
  show s.Keeps (ite _ _ _) ∧ Consistent (ite _ _ _)
  split
  · rename_i hcontains
    have hhand : ∀ c, (Phase.laterConfirm ch channels).hand c = s.phase.hand c := by
      rw [hphase]
      exact fun _ => rfl
    refine ⟨keeps_phase hhand, consistent_phase h hhand (fun c hc => ?_) fun hinitial => ?_⟩
    · cases hc
      exact Option.isSome_iff_ne_none.mp hcontains
    · exact absurd hinitial Bool.false_ne_true
  · rename_i hcontains
    have hnone : s.subscriptions.get? ch = none := Option.not_isSome_iff_eq_none.mp hcontains
    have hkeeps := keeps_subscribe hphase hnone
    refine ⟨hkeeps, consistent_streams h hkeeps (fun c hc => ?_) (fun c hc => ?_) rfl⟩
    · rw [Table.get?_insert] at hc
      split at hc
      · cases hc
      · exact hc
    · cases hc
      rw [Table.get?_insert, if_pos rfl]
      exact Option.some_ne_none []

/-- Every other step of the subscriber keeps what each channel holds. -/
theorem keeps_advance (h : s.Consistent)
    (hinitial : ∀ i ch channels, s.phase ≠ .initial i (ch :: channels)) :
    s.Keeps s.advance ∧ s.advance.Consistent := by
  cases hphase : s.phase with
  | initial i channels =>
    cases channels with
    | cons ch channels => exact absurd hphase (hinitial i ch channels)
    | nil =>
      -- the initial list is done
      rw [advance, hphase]
      refine keeps_listening h ?_
      rw [hphase]
      exact fun _ => rfl
  | initialConfirm i ch channels =>
    rw [advance, hphase]
    refine keeps_confirmation h (i + 1) ?_ ?_ rfl ?_
    · rw [hphase]
      exact fun _ => rfl
    · rw [hphase]
      rfl
    · rw [hphase]
      exact fun _ => rfl
  | listening =>
    rw [advance, hphase]
    exact ⟨⟨fun _ => rfl, fun _ => rfl, fun _ => rfl⟩, h⟩
  | closed =>
    rw [advance, hphase]
    exact ⟨⟨fun _ => rfl, fun _ => rfl, fun _ => rfl⟩, h⟩
  | pushing ch msg =>
    rw [advance, hphase]
    refine keeps_answer h (fun c => ?_) fun c => rfl
    rw [hphase, pushed?_pushFrame, Phase.hand]
    split <;> rfl
  | later channels =>
    cases channels with
    | cons ch channels => exact keeps_later h hphase
    | nil =>
      rw [advance, hphase]
      refine keeps_listening h ?_
      rw [hphase]
      exact fun _ => rfl
  | laterConfirm ch channels =>
    rw [advance, hphase]
    refine keeps_confirmation h s.subscriptions.size ?_ ?_ rfl ?_
    · rw [hphase]
      exact fun _ => rfl
    · rw [hphase]
      rfl
    · exact fun hp => absurd hp Bool.false_ne_true
  | answering served =>
    rw [advance, hphase]
    refine keeps_answer h (fun c => ?_) fun c => confirms_answer c served
    rw [hphase, pushed?_answer]
    rfl

/-- The client's request only changes the phase. -/
theorem keeps_request [Unicode] (h : s.Consistent) (now : Instant) (frame : Option Frame) :
    s.Keeps (s.step (.request now frame)) ∧ (s.step (.request now frame)).Consistent := by
  rw [step]
  split
  · rename_i hphase
    have hrequest : (∀ ch, (request now frame).hand ch = []) ∧
        (request now frame).channel? = none ∧ (request now frame).isInitial = false := by
      cases frame with
      | none => exact ⟨fun _ => rfl, rfl, rfl⟩
      | some frame =>
        simp only [request]
        split <;> exact ⟨fun _ => rfl, rfl, rfl⟩
    have hhand : ∀ ch, (request now frame).hand ch = s.phase.hand ch := by
      intro ch
      rw [hrequest.1, hphase]
      rfl
    refine ⟨keeps_phase hhand, consistent_phase h hhand (fun ch hch => ?_) fun hinitial => ?_⟩
    · rw [hrequest.2.1] at hch
      cases hch
    · rw [hrequest.2.2] at hinitial
      cases hinitial
  · exact ⟨⟨fun _ => rfl, fun _ => rfl, fun _ => rfl⟩, h⟩

theorem keeps_taking [Unicode] (h : s.Consistent) (ch : String) :
    s.Keeps (s.step (.take ch)) ∧ (s.step (.take ch)).Consistent := by
  rw [step]
  split
  · rename_i msg queue hphase hqueue
    have hkeeps := keeps_take hphase hqueue
    refine ⟨hkeeps, consistent_streams h hkeeps (fun c hc => ?_) (fun c hc => ?_) rfl⟩
    · rw [Table.get?_insert] at hc
      split at hc
      · cases hc
      · exact hc
    · cases hc
      rw [Table.get?_insert, if_pos rfl]
      exact Option.some_ne_none queue
  · exact ⟨⟨fun _ => rfl, fun _ => rfl, fun _ => rfl⟩, h⟩

theorem Keeps.delivers_all (hkeeps : s.Keeps s' ∧ s'.Consistent) (h : s.Consistent) {p : Prop}
    (hp : p) : (∀ ch, s'.Delivers ch) ↔ (∀ ch, s.Delivers ch) ∧ p :=
  (forall_congr' fun _ => hkeeps.1.delivers_iff h hkeeps.2).trans (and_iff_left hp).symm

theorem delivers_advance (h : s.Consistent) :
    s.advance.Consistent ∧ ((∀ ch, s.advance.Delivers ch) ↔
      (∀ ch, s.Delivers ch) ∧
        ∀ i ch channels, s.phase = .initial i (ch :: channels) → after ch s.history = []) := by
  by_cases hinitial : ∃ i ch channels, s.phase = .initial i (ch :: channels)
  · obtain ⟨i, ch, channels, hphase⟩ := hinitial
    have hadvance : s.advance = { s with
        subscriptions := s.subscriptions.insert ch [],
        phase := .initialConfirm i ch channels } := by rw [advance, hphase]
    rw [hadvance]
    refine ⟨consistent_replace h hphase, (delivers_replace h hphase).trans (and_congr_right fun _ => ?_)⟩
    constructor
    · intro hafter i' ch' channels' hphase'
      rw [hphase] at hphase'
      cases hphase'
      exact hafter
    · exact fun hafter => hafter i ch channels hphase
  · have hnot : ∀ i ch channels, s.phase ≠ .initial i (ch :: channels) :=
      fun i ch channels hphase => hinitial ⟨i, ch, channels, hphase⟩
    have hkeeps := keeps_advance h hnot
    exact ⟨hkeeps.2, Keeps.delivers_all hkeeps h
      fun i ch channels hphase => absurd hphase (hnot i ch channels)⟩

theorem delivers_step [Unicode] (h : s.Consistent) (e : Event) (hkeepsUp : s.KeepsUp e) :
    (s.step e).Consistent ∧
      ((∀ ch, (s.step e).Delivers ch) ↔ (∀ ch, s.Delivers ch) ∧ s.Untouched e) := by
  cases e with
  | publish ch msg =>
    exact ⟨consistent_publish h ch msg hkeepsUp,
      (forall_congr' (delivers_publish h ch msg hkeepsUp)).trans (and_iff_left trivial).symm⟩
  | take ch => exact ⟨(keeps_taking h ch).2, Keeps.delivers_all (keeps_taking h ch) h trivial⟩
  | request now frame =>
    exact ⟨(keeps_request h now frame).2, Keeps.delivers_all (keeps_request h now frame) h trivial⟩
  | advance => exact delivers_advance h

end Steps

-- ---------------------------------------------------------------------------
-- Runs
-- ---------------------------------------------------------------------------

section Runs

variable [Unicode]

theorem consistent_run {channels : List String} {es : List Event}
    (hkeepsUp : Allowed step KeepsUp (start channels) es) :
    (runAll step (start channels) es).Consistent :=
  hkeepsUp.invariant (fun _ e h he => (delivers_step h e he).1) (consistent_start channels)

/-- Every channel delivers if and only if the initial list names no channel again after a
message that followed its first confirmation. -/
theorem delivers_iff_untouched (channels : List String) (es : List Event)
    (hkeepsUp : Allowed step KeepsUp (start channels) es) :
    (∀ ch, (runAll step (start channels) es).Delivers ch) ↔
      Allowed step Untouched (start channels) es := by
  induction es using List.reverseRecOn with
  | nil => exact iff_of_true (fun ch => ⟨List.nil_suffix, List.nil_suffix⟩) trivial
  | append_singleton es e ih =>
    obtain ⟨hes, he, -⟩ := allowed_append.mp hkeepsUp
    rw [runAll_append, allowed_append, ← ih hes]
    exact (delivers_step (consistent_run hes) e he).2.trans
      (and_congr_right fun _ => (and_iff_left trivial).symm)

/-- The turns in which the subscriber takes and pushes `n` messages of a channel. -/
def turns (ch : String) (n : Nat) : List Event := (List.replicate n [.take ch, .advance]).flatten

/-- What waits in a stream is pushed, in order, as the subscriber takes its turns. -/
theorem pushed_turns {s : Subscriber} {ch : String} {queue : List Bytes}
    (hphase : s.phase = .listening) (hqueue : s.subscriptions.get? ch = some queue) :
    (runAll step s (turns ch queue.length)).pending ch = [] ∧
      pushed ch (runAll step s (turns ch queue.length)).history = pushed ch s.history ++ queue := by
  induction queue generalizing s with
  | nil =>
    refine ⟨?_, (List.append_nil _).symm⟩
    show s.pending ch = []
    rw [pending, hphase, hqueue]
    rfl
  | cons msg queue ih =>
    have hturn : (s.step (.take ch)).step .advance =
        { s with
          subscriptions := s.subscriptions.insert ch queue,
          phase := .listening,
          history := s.history ++ [.sent (pushFrame ch msg)] } := by
      rw [step, hphase, hqueue]
      rfl
    have hrest := ih (s := (s.step (.take ch)).step .advance) (by rw [hturn])
      (by rw [hturn, Table.get?_insert, if_pos rfl])
    refine ⟨hrest.1, hrest.2.trans ?_⟩
    rw [hturn, pushed_concat, pushed?_pushFrame, if_pos rfl]
    exact List.append_assoc _ _ _

end Runs

/-- `SUBSCRIBE a b` and messages on both channels, one of them before the subscriber gets to its
loop. In the end two are pushed and one is on its way. -/
def twoChannels : List Event :=
  [.advance, .advance, .publish "a" [109], .advance, .advance, .publish "b" [110],
    .publish "a" [111], .advance, .take "b", .advance, .take "a", .advance, .take "a"]

theorem delivers_iff_untouched_twoChannels :
    let s := runAll (@step Unicode.ascii) (start ["a", "b"]) twoChannels
    (∀ ch, s.Delivers ch) ∧ pushed "a" s.history = [[109]] ∧ s.pending "a" = [[111]] := by
  intro s
  have hkeeps : Allowed (@step Unicode.ascii) KeepsUp (start ["a", "b"]) twoChannels := by
    refine ⟨trivial, trivial, fun queue hqueue => ?_, trivial, trivial, fun queue hqueue => ?_,
      fun queue hqueue => ?_, trivial, trivial, trivial, trivial, trivial, trivial, trivial⟩ <;>
      cases hqueue
    · decide
    · decide
    · decide
  have huntouched : Allowed (@step Unicode.ascii) Untouched (start ["a", "b"]) twoChannels := by
    refine ⟨fun i ch channels h => ?_, fun i ch channels h => ?_, trivial,
      fun i ch channels h => ?_, fun i ch channels h => ?_, trivial, trivial,
      fun i ch channels h => ?_, trivial, fun i ch channels h => ?_, trivial,
      fun i ch channels h => ?_, trivial, trivial⟩ <;>
      cases h
    · rfl
    · rfl
  exact ⟨(@delivers_iff_untouched Unicode.ascii ["a", "b"] twoChannels hkeeps).mpr huntouched,
    rfl, rfl⟩

/-- `SUBSCRIBE c c`, with a message between the two confirmations: the subscriber gets to
its loop, and nothing of the message is left. -/
theorem not_delivers_twice :
    let es : List Event :=
      [.advance, .advance, .publish "c" [109], .advance, .advance, .advance]
    let s := runAll (@step Unicode.ascii) (start ["c", "c"]) es
    Allowed (@step Unicode.ascii) KeepsUp (start ["c", "c"]) es ∧ s.phase = .listening ∧
      after "c" s.history = [[109]] ∧ pushed "c" s.history = [] ∧ s.pending "c" = [] ∧
        ¬ s.Delivers "c" := by
  intro es s
  have hafter : after "c" s.history = [[109]] := by decide +kernel
  have hpushed : pushed "c" s.history = [] := by decide +kernel
  have hpending : s.pending "c" = [] := by decide +kernel
  refine ⟨⟨trivial, trivial, fun queue hqueue => ?_, trivial, trivial, trivial, trivial⟩,
    by with_unfolding_all rfl, hafter, hpushed, hpending, fun h => ?_⟩
  · cases hqueue
    decide
  · have hsuffix := h.1
    rw [hafter, hpushed, hpending] at hsuffix
    exact absurd hsuffix.length_le (by decide)

end Subscriber

end InMemoryCache
