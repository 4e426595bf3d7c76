-- SUMMARY: Loading an append-only file: which frames are replayed, and what replay does.
import InMemoryCache.Cmd.Apply
import InMemoryCache.Wire.FrameLaws

/-!
# Loading the append-only file

`Aof.load` reads frames off the file until a check fails, and applies each command it
recognises as it goes. `load_eq_replay` separates the two concerns: the frames are those
the decoder drains from the file, and what happens to the store is their replay.
-/

namespace InMemoryCache

open Lib

namespace Aof

/-- `record`: the bytes a frame adds to the file. -/
def record (f : Frame) : Bytes := f.writeToBuf

/-- `start`: the file after the writer task, which opens it for appending, has written the
recorded frames. -/
def start (file : Bytes) (fs : List Frame) : Bytes := fs.foldl (fun file f => file ++ record f) file

theorem start_eq (file : Bytes) (fs : List Frame) : start file fs = file ++ fs.flatMap record := by
  induction fs generalizing file with
  | nil => exact (List.append_nil _).symm
  | cons f fs ih =>
    rw [List.flatMap_cons, ← List.append_assoc, ← ih]
    rfl

/-! ## Aof::load -/

/-- What one turn of the loop in `load` finds at the cursor: a frame, the end of what
can be read, or a frame that passes the check and fails to parse. -/
inductive Next where
  | frame (f : Frame) (rest : Bytes)
  | stop
  | fail (e : FrameError)

/-- Check at the cursor, and parse exactly the bytes that were checked. -/
def next (buf : Bytes) : Next :=
  match Frame.check buf with
  | .ok (_, rest) =>
    match Frame.parse (buf.take (buf.length - rest.length)) with
    | .ok (f, _) => .frame f rest
    | .error e => .fail e
  | .error _ => .stop

theorem next_eq_frame {buf rest : Bytes} {f : Frame} :
    next buf = .frame f rest ↔ Frame.decoder.decode buf = .frame f rest := by
  rw [show Frame.decoder.decode buf = .frame f rest ↔ _ from
    Reader.checkThenParse_eq_frame Frame.mirrors_check_parse, next]
  cases hcheck : Frame.check buf with
  | error e => simp
  | ok v =>
    obtain ⟨⟨⟩, r⟩ := v
    obtain ⟨p, rfl⟩ := Frame.reads_check.suffix hcheck
    have htake : (p ++ r).take ((p ++ r).length - r.length) = p := by simp
    dsimp only
    rw [htake]
    constructor
    · intro h
      cases hparse : Frame.parse p with
      | error e =>
        rw [hparse] at h
        cases h
      | ok w =>
        obtain ⟨g, t⟩ := w
        rw [hparse] at h
        cases h
        -- the parser stops where the check did, at the end of the slice
        have hend := Frame.mirrors_check_parse.covers hparse
        rw [Frame.reads_check.exact hcheck, Except.ok.injEq, Prod.mk.injEq] at hend
        have hwhole := Frame.reads_parse.extend rest hparse
        rw [← hend.2] at hwhole
        exact ⟨rfl, hwhole⟩
    · rintro ⟨hr, hparse⟩
      cases hr
      rw [Frame.reads_parse.exact hparse]

theorem next_length {buf rest : Bytes} {f : Frame} (h : next buf = .frame f rest) :
    rest.length < buf.length :=
  Frame.decoder.rest_length_lt (next_eq_frame.mp h)

/-- The frames `load` takes off a file, and the parse error that ends it early, if one
does. -/
def frames (buf : Bytes) : List Frame × Option FrameError :=
  match _h : next buf with
  | .frame f rest => (f :: (frames rest).1, (frames rest).2)
  | .stop => ([], none)
  | .fail e => ([], some e)
termination_by buf.length
decreasing_by all_goals exact next_length _h

/-- `load`: the number of commands applied, and the store after them. The `n`-th frame
is parsed and applied in the environment `ctx n`. -/
def loadFrom [Unicode] {cfg : Config} (ctx : Nat → Ctx) (n count : Nat) (buf : Bytes)
    (db : Db cfg) : Outcome FrameError Nat × Db cfg :=
  if buf.isEmpty then (.ok count, db)
  else match _h : next buf with
    | .stop => (.ok count, db)
    | .fail e => (.err e, db)
    | .frame f rest =>
      match Command.fromFrame (ctx n).clock.now f with
      | .ok cmd =>
        match cmd.apply (ctx n) db with
        | (some _, db) => loadFrom ctx (n + 1) (count + 1) rest db
        | (none, db) => (.panic, db)
      | .err _ => loadFrom ctx (n + 1) count rest db
      | .panic => (.panic, db)
termination_by buf.length
decreasing_by all_goals exact next_length _h

def load [Unicode] {cfg : Config} (ctx : Nat → Ctx) (buf : Bytes) (db : Db cfg) :
    Outcome FrameError Nat × Db cfg :=
  loadFrom ctx 0 0 buf db

/-! ## The frames of a file -/

theorem frames_frame {buf rest : Bytes} {f : Frame} (h : next buf = .frame f rest) :
    frames buf = (f :: (frames rest).1, (frames rest).2) := by
  rw [frames]
  split <;> simp_all

theorem frames_stop {buf : Bytes} (h : next buf = .stop) : frames buf = ([], none) := by
  rw [frames]
  split <;> simp_all

theorem frames_fail {buf : Bytes} {e : FrameError} (h : next buf = .fail e) :
    frames buf = ([], some e) := by
  rw [frames]
  split <;> simp_all

/-- A file yields the frames the decoder drains from it. -/
theorem frames_eq_drain (buf : Bytes) : (frames buf).1 = (Frame.decoder.drain buf).1 := by
  induction hn : buf.length using Nat.strongRecOn generalizing buf with
  | ind n ih =>
    cases hnext : next buf with
    | frame f rest =>
      rw [frames_frame hnext, Frame.decoder.drain_frame (next_eq_frame.mp hnext),
        ih _ (hn ▸ next_length hnext) rest rfl]
    | stop =>
      rw [frames_stop hnext]
      cases hd : Frame.decoder.decode buf with
      | frame f r => rw [next_eq_frame.mpr hd] at hnext; cases hnext
      | more => rw [Frame.decoder.drain_more hd]
      | bad e => rw [Frame.decoder.drain_bad hd]
    | fail e =>
      rw [frames_fail hnext]
      cases hd : Frame.decoder.decode buf with
      | frame f r => rw [next_eq_frame.mpr hd] at hnext; cases hnext
      | more => rw [Frame.decoder.drain_more hd]
      | bad e => rw [Frame.decoder.drain_bad hd]

theorem next_of_more {buf : Bytes} (h : Frame.decoder.decode buf = .more) : next buf = .stop := by
  have hcheck : Frame.check buf = .error .incomplete := Reader.checkThenParse_eq_more.mp h
  rw [next, hcheck]

/-- A file whose leftover is undecided ends without a parse error. -/
theorem frames_starved {buf rest : Bytes} (h : (Frame.decoder.drain buf).2 = .starved rest) :
    (frames buf).2 = none := by
  induction hn : buf.length using Nat.strongRecOn generalizing buf with
  | ind n ih =>
    cases hd : Frame.decoder.decode buf with
    | frame f r =>
      rw [Frame.decoder.drain_frame hd] at h
      rw [frames_frame (next_eq_frame.mpr hd)]
      exact ih _ (hn ▸ Frame.decoder.rest_length_lt hd) h rfl
    | more => rw [frames_stop (next_of_more hd)]
    | bad e =>
      rw [Frame.decoder.drain_bad hd] at h
      cases h

/-! ## Replay -/

section Replay

variable [Unicode] {cfg : Config}

/-- Apply the command of each frame in turn, skipping the frames that are none. -/
def replayFrom (ctx : Nat → Ctx) (n count : Nat) :
    List Frame → Db cfg → Outcome FrameError Nat × Db cfg
  | [], db => (.ok count, db)
  | f :: fs, db =>
    match Command.fromFrame (ctx n).clock.now f with
    | .ok cmd =>
      match cmd.apply (ctx n) db with
      | (some _, db) => replayFrom ctx (n + 1) (count + 1) fs db
      | (none, db) => (.panic, db)
    | .err _ => replayFrom ctx (n + 1) count fs db
    | .panic => (.panic, db)

def replay (ctx : Nat → Ctx) (fs : List Frame) (db : Db cfg) : Outcome FrameError Nat × Db cfg :=
  replayFrom ctx 0 0 fs db

/-- A parse error turns a finished replay into that error. -/
def finish (e : Option FrameError) (x : Outcome FrameError Nat × Db cfg) :
    Outcome FrameError Nat × Db cfg :=
  match e, x with
  | some e, (.ok _, db) => (.err e, db)
  | _, x => x

theorem loadFrom_eq_replayFrom (ctx : Nat → Ctx) (n count : Nat) (buf : Bytes) (db : Db cfg) :
    loadFrom ctx n count buf db =
      finish (frames buf).2 (replayFrom ctx n count (frames buf).1 db) := by
  induction hn : buf.length using Nat.strongRecOn generalizing buf n count db with
  | ind k ih =>
    rw [loadFrom]
    cases buf with
    | nil =>
      have hnil : frames [] = ([], none) := frames_stop (next_of_more Frame.decoder.decode_nil)
      rw [hnil]
      rfl
    | cons b buf =>
      rw [List.isEmpty_cons, if_neg Bool.false_ne_true]
      split
      · rename_i hnext
        rw [frames_stop hnext]
        rfl
      · rename_i e hnext
        rw [frames_fail hnext]
        rfl
      · rename_i f rest hnext
        have hlt : rest.length < k := hn ▸ next_length hnext
        rw [frames_frame hnext, replayFrom]
        cases Command.fromFrame (ctx n).clock.now f with
        | ok cmd =>
          dsimp only
          cases happly : cmd.apply (ctx n) db with
          | mk reply db' =>
            cases reply with
            | some r => exact ih _ hlt (n + 1) (count + 1) rest db' rfl
            | none => cases (frames rest).2 <;> rfl
        | err e => exact ih _ hlt (n + 1) count rest db rfl
        | panic => cases (frames rest).2 <;> rfl

/-- Loading replays the frames of the file. -/
theorem load_eq_replay (ctx : Nat → Ctx) (buf : Bytes) (db : Db cfg) :
    load ctx buf db = finish (frames buf).2 (replay ctx (frames buf).1 db) :=
  loadFrom_eq_replayFrom ctx 0 0 buf db

end Replay

end Aof

end InMemoryCache
