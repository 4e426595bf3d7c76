-- SUMMARY: A session answers the requests of its stream one after the other.
import InMemoryCache.Server.Session

/-!
# Sessions, request by request

However the stream of a client is cut into reads, and whenever other connections change the
store in between, `process_connection` does what a server does that takes the requests of the
stream one at a time and replies to each of them at once.
-/

namespace InMemoryCache

open Lib

variable {cfg : Config}

/-- What happens to a server that takes one request at a time: a request, or a change that
others make to the store. -/
inductive Work (cfg : Config) where
  | request (ctx : Ctx) (frame : Frame)
  | others (db : Db cfg) (pubsub : PubSub)

namespace Work

def frame? : Work cfg → Option Frame
  | .request _ frame => some frame
  | .others _ _ => none

def change? : Work cfg → Option (Db cfg × PubSub)
  | .request _ _ => none
  | .others db pubsub => some (db, pubsub)

/-- The requests that were taken. -/
def frames (work : List (Work cfg)) : List Frame := work.filterMap frame?

def changes (work : List (Work cfg)) : List (Db cfg × PubSub) := work.filterMap change?

end Work

/-- The replies of such a server, and how it goes on after the last request. -/
structure Served (cfg : Config) where
  replies : List Frame
  phase : Phase
  db : Db cfg
  pubsub : PubSub

namespace Served

def new (db : Db cfg) (pubsub : PubSub) : Served cfg where
  replies := []
  phase := .reading
  db := db
  pubsub := pubsub

def serve [Unicode] (s : Served cfg) : Work cfg → Served cfg
  | .request ctx frame =>
    match handle ctx s.db s.pubsub frame with
    | .rejected err => { s with replies := s.replies ++ [err] }
    | .subscribed channels => { s with phase := .subscriber channels }
    | .replied _ response db pubsub =>
      { s with replies := s.replies ++ [response], db := db, pubsub := pubsub }
    | .panicked => { s with phase := .panicked }
  | .others db pubsub => { s with db := db, pubsub := pubsub }

end Served

namespace Session

/-- The change that an event makes to the store from outside. -/
def Event.change? : Event cfg → Option (Db cfg × PubSub)
  | .others db pubsub => some (db, pubsub)
  | _ => none

/-- The bytes that a session takes off the socket in an event. -/
def accepted (s : Session cfg) : Event cfg → Bytes
  | .receive chunk => if s.phase = .waiting then chunk else []
  | _ => []

/-- Where a session stands is where the other server does, or the socket decides it. -/
def Standing (served : Served cfg) (s : Session cfg) : Prop :=
  match s.phase with
  | .waiting => served.phase = .reading ∧ Frame.decoder.decode s.buffer = .more
  | .finished .closed => served.phase = .reading ∧ s.buffer = []
  | .finished .reset =>
    served.phase = .reading ∧ Frame.decoder.decode s.buffer = .more ∧ s.buffer ≠ []
  | .finished (.malformed e) => served.phase = .reading ∧ Frame.decoder.decode s.buffer = .bad e
  | phase => served.phase = phase

/-- The session has done the work on the requests taken off its stream so far. -/
structure Follows (served : Served cfg) (frames : List Frame) (stream : Bytes) (s : Session cfg) :
    Prop where
  replies : s.replies = served.replies
  db : s.db = served.db
  pubsub : s.pubsub = served.pubsub
  standing : Standing served s
  framed : Frame.decoder.drain stream =
    (frames ++ (Frame.decoder.drain s.buffer).1, (Frame.decoder.drain s.buffer).2)
  accounted : s.sent ++ s.pending = s.replies.flatMap Frame.writeToBuf

theorem follows_new (db : Db cfg) (pubsub : PubSub) :
    Follows (Served.new db pubsub) [] [] (new db pubsub) where
  replies := rfl
  db := rfl
  pubsub := rfl
  standing := rfl
  framed := rfl
  accounted := rfl

section Steps

variable {served : Served cfg} {frames : List Frame} {stream : Bytes} {s : Session cfg}

/-- A reply that is written, and flushed or not. -/
theorem accounted_write (h : s.sent ++ s.pending = s.replies.flatMap Frame.writeToBuf)
    (taken : Nat) (frame : Frame) :
    (s.writeFrame taken frame).sent ++ (s.writeFrame taken frame).pending =
        (s.writeFrame taken frame).replies.flatMap Frame.writeToBuf ∧
      (s.respond taken frame).sent ++ (s.respond taken frame).pending =
        (s.respond taken frame).replies.flatMap Frame.writeToBuf := by
  have hwritten := accounted_writeFrameBuffered h taken frame
  refine ⟨(prompt_flush hwritten).accounted, ?_⟩
  rw [respond]
  split
  · exact hwritten
  · exact (prompt_flush hwritten).accounted

theorem respond_eq (taken : Nat) (frame : Frame) :
    (s.respond taken frame).phase = s.phase ∧ (s.respond taken frame).buffer = s.buffer ∧
      (s.respond taken frame).replies = s.replies ++ [frame] ∧
      (s.respond taken frame).db = s.db ∧ (s.respond taken frame).pubsub = s.pubsub := by
  rw [respond]
  split <;> exact ⟨rfl, rfl, rfl, rfl, rfl⟩

theorem standing_reading (hphase : s.phase = .reading) (hserved : served.phase = .reading) :
    Standing served s := by
  rw [Standing, hphase]
  exact hserved

/-- Nothing is left to take when the session waits or has returned. -/
theorem Standing.drain_of_quiet (h : Standing served s) (hquiet : s.phase.quiet = true) :
    (Frame.decoder.drain s.buffer).1 = [] := by
  rw [Standing] at h
  cases hphase : s.phase with
  | waiting =>
    rw [hphase] at h
    rw [Frame.decoder.drain_more h.2]
  | finished ending =>
    rw [hphase] at h
    cases ending with
    | closed => rw [show s.buffer = [] from h.2, Frame.decoder.drain_nil]
    | reset => rw [Frame.decoder.drain_more h.2.1]
    | malformed e => rw [Frame.decoder.drain_bad h.2]
  | reading | subscriber | panicked =>
    rw [hphase] at hquiet
    cases hquiet

theorem Standing.ending (h : Standing served s) {ending : Connection.Ending}
    (hphase : s.phase = .finished ending) :
    ending = Connection.Ending.ofStop (Frame.decoder.drain s.buffer).2 := by
  rw [Standing, hphase] at h
  cases ending with
  | closed =>
    rw [show s.buffer = [] from h.2, Frame.decoder.drain_nil]
    rfl
  | reset =>
    obtain ⟨b, buffer, hbuffer⟩ := List.exists_cons_of_ne_nil h.2.2
    rw [Frame.decoder.drain_more h.2.1, hbuffer]
    rfl
  | malformed e =>
    rw [Frame.decoder.drain_bad h.2]
    rfl

/-- A turn: a request is taken and answered, or there is none. -/
theorem Follows.turn [Unicode] (h : Follows served frames stream s) (hphase : s.phase = .reading)
    (ctx : Ctx) (taken : Nat) : ∃ work : List (Work cfg), Work.changes work = [] ∧
      Follows (runAll Served.serve served work) (frames ++ Work.frames work) stream
        (s.turn ctx taken) := by
  have hserved : served.phase = .reading := by
    have hstanding := h.standing
    rwa [Standing, hphase] at hstanding
  rw [Session.turn]
  cases hparse : Connection.parseFrame s.buffer with
  | error e =>
    refine ⟨[], rfl, h.replies, h.db, h.pubsub, ?_, ?_, h.accounted⟩
    · exact ⟨hserved, Connection.parseFrame_eq_error.mp hparse⟩
    · rw [show Work.frames ([] : List (Work cfg)) = [] from rfl, List.append_nil]
      exact h.framed
  | ok found =>
    cases found with
    | none =>
      refine ⟨[], rfl, h.replies, h.db, h.pubsub, ?_, ?_, h.accounted⟩
      · exact ⟨hserved, Connection.parseFrame_eq_none.mp hparse⟩
      · rw [show Work.frames ([] : List (Work cfg)) = [] from rfl, List.append_nil]
        exact h.framed
    | some found =>
      obtain ⟨frame, rest⟩ := found
      have hdecode := Connection.parseFrame_eq_some.mp hparse
      have hframed : Frame.decoder.drain stream =
          ((frames ++ [frame]) ++ (Frame.decoder.drain rest).1, (Frame.decoder.drain rest).2) := by
        rw [h.framed, Frame.decoder.drain_frame hdecode, List.append_assoc]
        rfl
      have hserve : runAll Served.serve served [.request ctx frame] =
          served.serve (.request ctx frame) := rfl
      have hsame : handle ctx served.db served.pubsub frame = handle ctx s.db s.pubsub frame := by
        rw [h.db, h.pubsub]
      refine ⟨[.request ctx frame], rfl, ?_⟩
      rw [hserve, Served.serve, hsame]
      dsimp only
      cases handle ctx s.db s.pubsub frame with
      | rejected err =>
        exact ⟨congrArg (· ++ [err]) h.replies, h.db, h.pubsub, standing_reading hphase hserved,
          hframed, (accounted_write (s := { s with buffer := rest }) h.accounted taken err).1⟩
      | subscribed channels => exact ⟨h.replies, h.db, h.pubsub, rfl, hframed, h.accounted⟩
      | panicked => exact ⟨h.replies, h.db, h.pubsub, rfl, hframed, h.accounted⟩
      | replied recorded response db pubsub =>
        obtain ⟨hphase', hbuffer, hreplies, hdb, hpubsub⟩ := respond_eq taken response
          (s := { s with buffer := rest, db := db, pubsub := pubsub })
        refine ⟨?_, hdb, hpubsub, standing_reading (hphase'.trans hphase) hserved, ?_,
          (accounted_write (s := { s with buffer := rest, db := db, pubsub := pubsub })
            h.accounted taken response).2⟩
        · rw [hreplies, h.replies]
        · rw [hbuffer]
          exact hframed

/-- The socket returns to a waiting session. -/
theorem Follows.receive (h : Follows served frames stream s) (hphase : s.phase = .waiting)
    (chunk : Bytes) : Follows served frames (stream ++ chunk) (s.receive chunk) := by
  obtain ⟨hserved, hmore⟩ : served.phase = .reading ∧ Frame.decoder.decode s.buffer = .more := by
    have hstanding := h.standing
    rwa [Standing, hphase] at hstanding
  rw [Session.receive]
  split
  · rename_i hend
    rw [List.isEmpty_iff.mp hend, List.append_nil]
    split
    · rename_i hempty
      exact ⟨h.replies, h.db, h.pubsub, ⟨hserved, List.isEmpty_iff.mp hempty⟩, h.framed,
        (prompt_flush h.accounted).accounted⟩
    · rename_i hleft
      exact ⟨h.replies, h.db, h.pubsub, ⟨hserved, hmore, fun hnil => hleft (by rw [hnil]; rfl)⟩,
        h.framed, h.accounted⟩
  · refine ⟨h.replies, h.db, h.pubsub, hserved, ?_, h.accounted⟩
    rw [Frame.decoder.drain_append, h.framed, Frame.decoder.drain_more hmore, List.append_nil]

/-- An event, and the work it stands for. -/
theorem Follows.perform [Unicode] (h : Follows served frames stream s) (e : Event cfg) :
    ∃ work : List (Work cfg), Work.changes work = e.change?.toList ∧
      Follows (runAll Served.serve served work) (frames ++ Work.frames work)
        (stream ++ s.accepted e) (s.perform e) := by
  have hidle : Follows (runAll Served.serve served []) (frames ++ Work.frames ([] : List (Work cfg)))
      (stream ++ []) s := by
    rw [show Work.frames ([] : List (Work cfg)) = [] from rfl, List.append_nil, List.append_nil]
    exact h
  cases e with
  | turn ctx taken =>
    rw [Session.perform]
    split
    · rename_i hphase
      obtain ⟨work, hchanges, hwork⟩ := h.turn hphase ctx taken
      exact ⟨work, hchanges, by rwa [show s.accepted (.turn ctx taken) = [] from rfl, List.append_nil]⟩
    · exact ⟨[], rfl, hidle⟩
  | receive chunk =>
    rw [Session.perform, accepted]
    split
    · rename_i hphase
      refine ⟨[], rfl, ?_⟩
      rw [show Work.frames ([] : List (Work cfg)) = [] from rfl, List.append_nil]
      exact h.receive hphase chunk
    · exact ⟨[], rfl, hidle⟩
  | others db pubsub =>
    refine ⟨[.others db pubsub], rfl, ?_⟩
    rw [show s.accepted (.others db pubsub) = [] from rfl, List.append_nil,
      show Work.frames [Work.others db pubsub] = [] from rfl, List.append_nil]
    refine ⟨h.replies, rfl, rfl, ?_, h.framed, h.accounted⟩
    exact h.standing

end Steps

section Runs

variable [Unicode]

/-- The bytes that a session takes off the socket in a run. -/
def received (s : Session cfg) : List (Event cfg) → Bytes
  | [] => []
  | e :: es => s.accepted e ++ received (s.perform e) es

theorem received_append (s : Session cfg) (es es' : List (Event cfg)) :
    s.received (es ++ es') = s.received es ++ (runAll perform s es).received es' := by
  induction es generalizing s with
  | nil => rfl
  | cons e es ih =>
    rw [List.cons_append, received, received, ih, List.append_assoc]
    rfl

theorem follows_run (db : Db cfg) (pubsub : PubSub) (es : List (Event cfg)) :
    ∃ work : List (Work cfg), Work.changes work = es.filterMap Event.change? ∧
      Follows (runAll Served.serve (Served.new db pubsub) work) (Work.frames work)
        ((new db pubsub).received es) (runAll perform (new db pubsub) es) := by
  induction es using List.reverseRecOn with
  | nil => exact ⟨[], rfl, follows_new db pubsub⟩
  | append_singleton es e ih =>
    obtain ⟨work, hchanges, h⟩ := ih
    obtain ⟨more, hmore, hnext⟩ := h.perform e
    refine ⟨work ++ more, ?_, ?_⟩
    · rw [List.filterMap_append, ← hchanges, Work.changes, Work.changes, List.filterMap_append]
      exact congrArg _ (hmore.trans (by cases e <;> rfl))
    · rw [runAll_append, runAll_append, received_append, Work.frames, List.filterMap_append]
      rw [show ∀ s : Session cfg, s.received [e] = s.accepted e from
        fun s => List.append_nil _]
      exact hnext

/-- A session replies as a server does that takes the requests of its stream one at a time,
with the same changes by others in between, and leaves the same store. When it waits or has
returned, all whole requests of the stream were taken, and it returned for the reason for which
the stream ended. -/
theorem session_serial (db : Db cfg) (pubsub : PubSub) (es : List (Event cfg)) :
    let s := runAll perform (new db pubsub) es
    let stream := Frame.decoder.drain ((new db pubsub).received es)
    ∃ work served, Work.changes work = es.filterMap Event.change? ∧
      served = runAll Served.serve (Served.new db pubsub) work ∧
      s.replies = served.replies ∧ s.db = served.db ∧ s.pubsub = served.pubsub ∧
      s.sent ++ s.pending = s.replies.flatMap Frame.writeToBuf ∧
      Work.frames work <+: stream.1 ∧
      (s.phase.quiet = true → Work.frames work = stream.1) ∧
      (∀ ending, s.phase = .finished ending → ending = Connection.Ending.ofStop stream.2) ∧
      ∀ channels, s.phase = .subscriber channels → served.phase = .subscriber channels := by
  intro s stream
  obtain ⟨work, hchanges, h⟩ := follows_run db pubsub es
  have hframed : stream = (Work.frames work ++ (Frame.decoder.drain s.buffer).1,
    (Frame.decoder.drain s.buffer).2) := h.framed
  have hprefix : Work.frames work <+: stream.1 := by
    rw [hframed]
    exact List.prefix_append _ _
  have hstanding : Standing _ s := h.standing
  refine ⟨work, _, hchanges, rfl, h.replies, h.db, h.pubsub, h.accounted, hprefix, fun hquiet => ?_,
    fun ending hphase => ?_, fun channels hphase => ?_⟩
  · rw [hframed, hstanding.drain_of_quiet hquiet, List.append_nil]
  · rw [hframed]
    exact hstanding.ending hphase
  · rwa [Standing, hphase] at hstanding

end Runs

end Session

end InMemoryCache
