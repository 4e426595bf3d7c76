-- SUMMARY: When the deadline a request asks for overflows the clock, at once and when replayed.
import InMemoryCache.Aof.Rebuild
import InMemoryCache.Cmd.Replies

/-!
# Expiry arguments

The parsers accept any `u64` as a time to live, and `Instant + Duration` panics when the sum
does not fit. `SET` adds while it is parsed, `EXPIRE` under the lock if the key is live, and
`Aof::load` runs both again at the time of the restart.
-/

namespace InMemoryCache

open Lib Cmd

namespace Command

variable {cfg : Config}

/-! ## Requests -/

/-- The deadline that a request asks for does not fit the clock: a `SET` is parsed at `t`, an
`EXPIRE` meets a live entry at `now`. -/
def Request.Overflows (t now : Instant) (db : Db cfg) : Request → Prop
  | .set _ _ (some d) => ¬ Instant.Valid (t + d)
  | .plain (.expire cmd) =>
    (∃ entry, db.entry cmd.key = some entry ∧ entry.isExpired now = false) ∧
      ¬ Instant.Valid (now + cmd.duration)
  | _ => False

/-- What a request for a deadline is to do, executed at `now` after it was parsed at `t`: the
reply, and the entry under its key. -/
def Request.Honoured (t now : Instant) (before after : Db cfg) (reply : Frame) : Request → Prop
  | .set key value (some d) =>
    reply = .simple "OK" ∧ ∃ entry, after.entry key = some entry ∧ entry.data = .string value ∧
      entry.expiresAt = some (t + d)
  | .plain (.expire cmd) =>
    match before.entry cmd.key with
    | some entry =>
      if entry.isExpired now then reply = .integer 0 ∧ after.entry cmd.key = none
      else reply = .integer 1 ∧
        after.entry cmd.key = some { entry with expiresAt := some (now + cmd.duration) }
    | none => reply = .integer 0 ∧ after.entry cmd.key = none
  | _ => True

section

variable {ctx : Ctx} {db : Db cfg}

theorem keyOp_set (cmd : Cmd.Set) :
    (Command.set cmd).keyOp = some (cmd.key, .set cmd.value cmd.expiresAt) := rfl

/-- `SET` answers `OK` and stores its entry. -/
theorem apply_set (cmd : Cmd.Set) : ((Command.set cmd).apply ctx db).1 = some (.simple "OK") ∧
    ((Command.set cmd).apply ctx db).2.entry cmd.key =
      some (CacheEntry.new (.string cmd.value) cmd.expiresAt ctx.clock.millis) := by
  refine ⟨rfl, ?_⟩
  rw [apply_of_keyOp (keyOp_set cmd), Db.performKey_eq, Db.entry_locked]
  show (Cell.set _ _ _ _ _).slot = _
  rw [Cell.set]
  split <;> rfl

theorem apply_expire (cmd : Cmd.Expire) :
    ((Command.expire cmd).apply ctx db).1 =
        (Cell.expire cmd.key cmd.duration ctx.clock
          (db.cellAt (Db.getShardIndex cfg cmd.key) cmd.key)).1.map Frame.ofBool ∧
      ((Command.expire cmd).apply ctx db).2.entry cmd.key =
        (Cell.expire cmd.key cmd.duration ctx.clock
          (db.cellAt (Db.getShardIndex cfg cmd.key) cmd.key)).2.slot :=
  ⟨rfl, Db.entry_locked db cmd.key (Cell.expire cmd.key cmd.duration ctx.clock)⟩

end

/-- The outcome of a request: it panics, or it is executed and does what it is to do. -/
def Request.Executed (t : Instant) (ctx : Ctx) (db : Db cfg) (r : Request) : Prop :=
  match r.resolve t with
  | .err _ => True
  | .panic => False
  | .ok cmd => ∃ reply, (cmd.apply ctx db).1 = some reply ∧
      r.Honoured t ctx.clock.now db (cmd.apply ctx db).2 reply

theorem executed_set_iff (t : Instant) (ctx : Ctx) (db : Db cfg) (key value : Bytes)
    (d : Duration) :
    (Request.set key value (some d)).Executed t ctx db ↔ Instant.Valid (t + d) := by
  rw [Request.Executed, Request.resolve, deadline]
  cases hadd : Instant.add t d with
  | none =>
    have hvalid : ¬ Instant.Valid (t + d) := fun h => Instant.add_ne_none.mpr h hadd
    exact iff_of_false id hvalid
  | some exp =>
    have hvalid : Instant.Valid (t + d) := Instant.add_ne_none.mp (hadd ▸ Option.some_ne_none _)
    obtain rfl := Instant.add_eq_some hadd
    refine iff_of_true ?_ hvalid
    obtain ⟨hreply, hentry⟩ := @apply_set cfg ctx db
      { key := key, value := value, expiresAt := some (t + d) }
    exact ⟨_, hreply, rfl, _, hentry, rfl, rfl⟩

theorem executed_expire_iff (t : Instant) (ctx : Ctx) (db : Db cfg) (cmd : Cmd.Expire) :
    (Request.plain (.expire cmd)).Executed t ctx db ↔
      ¬ (Request.plain (.expire cmd)).Overflows t ctx.clock.now db := by
  obtain ⟨hreply, hafter⟩ := @apply_expire cfg ctx db cmd
  have hslot : (db.cellAt (Db.getShardIndex cfg cmd.key) cmd.key).slot = db.entry cmd.key := rfl
  simp only [Request.Executed, Request.resolve, Request.Overflows, Request.Honoured, hreply,
    hafter]
  generalize db.cellAt (Db.getShardIndex cfg cmd.key) cmd.key = c at hslot
  rw [Cell.expire, hslot]
  cases hentry : db.entry cmd.key with
  | none => simp [Frame.ofBool, hslot, hentry]
  | some entry =>
    cases hexp : entry.isExpired ctx.clock.now with
    | true => simp [Frame.ofBool, hexp, Cell.remove]
    | false =>
      cases hadd : Instant.add ctx.clock.now cmd.duration with
      | none =>
        have hvalid : ¬ Instant.Valid (ctx.clock.now + cmd.duration) :=
          fun h => Instant.add_ne_none.mpr h hadd
        simp [hexp, hvalid]
      | some exp =>
        have hvalid : Instant.Valid (ctx.clock.now + cmd.duration) :=
          Instant.add_ne_none.mp (hadd ▸ Option.some_ne_none _)
        obtain rfl := Instant.add_eq_some hadd
        simp [Frame.ofBool, hexp, hvalid, Cell.put]

/-- A request is executed as asked exactly if its deadline fits the clock. -/
theorem executed_iff (t : Instant) (ctx : Ctx) (db : Db cfg) (r : Request) :
    r.Executed t ctx db ↔ ¬ r.Overflows t ctx.clock.now db := by
  cases r with
  | set key value duration =>
    cases duration with
    | none => exact iff_of_true ⟨_, rfl, trivial⟩ id
    | some d =>
      rw [executed_set_iff]
      exact not_not.symm
  | plain cmd =>
    cases cmd with
    | expire cmd => exact executed_expire_iff t ctx db cmd
    | _ => exact iff_of_true ⟨_, rfl, trivial⟩ id

/-- An overflowing deadline panics, in the parser or in the command. -/
theorem Request.Overflows.panics {t : Instant} {ctx : Ctx} {db : Db cfg} {r : Request}
    (h : r.Overflows t ctx.clock.now db) :
    r.resolve t = .panic ∨ ∃ cmd, r.resolve t = .ok cmd ∧ (cmd.apply ctx db).1 = none := by
  cases r with
  | set key value duration =>
    cases duration with
    | none => cases h
    | some d =>
      have hadd : Instant.add t d = none := by
        by_contra hadd
        exact h (Instant.add_ne_none.mp hadd)
      refine .inl ?_
      rw [Request.resolve, deadline, hadd]
      rfl
  | plain cmd =>
    cases cmd with
    | expire cmd =>
      obtain ⟨⟨entry, hentry, hexp⟩, hvalid⟩ := h
      have hadd : Instant.add ctx.clock.now cmd.duration = none := by
        by_contra hadd
        exact hvalid (Instant.add_ne_none.mp hadd)
      have hslot : (db.cellAt (Db.getShardIndex cfg cmd.key) cmd.key).slot = some entry := hentry
      refine .inr ⟨_, rfl, ?_⟩
      rw [(apply_expire cmd).1, Cell.expire, hslot]
      simp only [hexp, Bool.false_eq_true, if_false, hadd, Option.map_none]
    | _ => cases h

variable [Unicode]

/-- The request is rejected, which leaves the store alone, or it is executed as asked. -/
def Honours (t : Instant) (ctx : Ctx) (db : Db cfg) (f : Frame) : Prop :=
  match fromFrame t f with
  | .err _ => True
  | .panic => False
  | .ok cmd => ∃ reply, (cmd.apply ctx db).1 = some reply ∧
      ∀ r, request f = .ok r → r.Honoured t ctx.clock.now db (cmd.apply ctx db).2 reply

/-- The parser of a command other than `SET` computes no deadline. -/
theorem fromFrame_ne_panic {f : Frame} (h : setArgs f = none) : fromFrame 0 f ≠ .panic := by
  cases f with
  | array fs =>
    cases fs with
    | nil =>
      intro hf
      cases hf
    | cons g args =>
      cases hname : nameArg g with
      | err e =>
        rw [fromFrame, hname]
        intro hf
        cases hf
      | panic => exact absurd hname (answers_textArg (by decide) (by decide) g).1
      | ok name =>
        have hset : toUppercase name ≠ "SET" := by
          intro hset
          simp [setArgs, hname, hset] at h
        rw [fromFrame_cons hname]
        cases hlookup : (parsers 0).lookup (toUppercase name) with
        | none =>
          intro hf
          cases hf
        | some parse => exact (careful_parsers 0 _ (mem_of_lookup hlookup) args).2 hset
  | _ =>
    intro hf
    cases hf

/-- Parsing panics nowhere but at the deadline of a `SET`. -/
theorem request_ne_panic (f : Frame) : request f ≠ .panic := by
  rw [request]
  cases hset : setArgs f with
  | some args => exact (answers_setRequest args).1
  | none =>
    have hparse := fromFrame_ne_panic hset
    cases hf : fromFrame 0 f with
    | panic => exact absurd hf hparse
    | ok cmd =>
      intro h
      cases h
    | err e =>
      intro h
      cases h

/-- A request is executed as asked exactly if its deadline fits the clock. -/
theorem honours_iff (t : Instant) (ctx : Ctx) (db : Db cfg) (f : Frame) :
    Honours t ctx db f ↔ ∀ r, request f = .ok r → ¬ r.Overflows t ctx.clock.now db := by
  rw [Honours, fromFrame_eq_resolve]
  cases hr : request f with
  | panic => exact absurd hr (request_ne_panic f)
  | err e => simp
  | ok r =>
    simp only [Outcome.ok_bind, Outcome.ok.injEq, forall_eq']
    exact executed_iff t ctx db r

end Command

/-! ## Replay -/

namespace Aof

open Command

section Replay

variable [Unicode] {cfg : Config}

/-- A frame whose deadline overflows ends the replay. -/
theorem replayFrom_of_overflows {ctx : Nat → Ctx} {n count : Nat} {f : Frame} {fs : List Frame}
    {db : Db cfg} {r : Request} (hr : request f = .ok r)
    (h : r.Overflows (ctx n).clock.now (ctx n).clock.now db) :
    (replayFrom ctx n count (f :: fs) db).1 = .panic := by
  rw [replayFrom, fromFrame_eq_resolve, hr, Outcome.ok_bind]
  rcases h.panics with hpanic | ⟨cmd, hcmd, happly⟩
  · rw [hpanic]
  · rw [hcmd]
    cases hresult : cmd.apply (ctx n) db with
    | mk reply db' =>
      rw [hresult] at happly
      obtain rfl : reply = none := happly
      dsimp only
      rw [hresult]

/-- After any other frame the replay goes on. -/
theorem replayFrom_of_not_overflows {ctx : Nat → Ctx} {n : Nat} {f : Frame} {db : Db cfg}
    (h : ∀ r, request f = .ok r → ¬ r.Overflows (ctx n).clock.now (ctx n).clock.now db)
    (count : Nat) :
    ∃ count' db', ∀ fs, replayFrom ctx n count (f :: fs) db =
      replayFrom ctx (n + 1) count' fs db' := by
  have hhonours := (honours_iff (ctx n).clock.now (ctx n) db f).mpr h
  rw [Honours] at hhonours
  cases hf : fromFrame (ctx n).clock.now f with
  | err e => exact ⟨count, db, fun fs => by rw [replayFrom, hf]⟩
  | panic =>
    rw [hf] at hhonours
    exact hhonours.elim
  | ok cmd =>
    rw [hf] at hhonours
    obtain ⟨reply, hreply, -⟩ := hhonours
    refine ⟨count + 1, (cmd.apply (ctx n) db).2, fun fs => ?_⟩
    rw [replayFrom, hf]
    dsimp only
    split
    · rename_i db' happly
      rw [happly]
    · rename_i db' happly
      rw [happly] at hreply
      cases hreply

/-- Replay panics exactly if it comes to a frame whose deadline overflows. -/
theorem replayFrom_eq_panic {ctx : Nat → Ctx} {n count : Nat} {fs : List Frame} {db : Db cfg} :
    (replayFrom ctx n count fs db).1 = .panic ↔
      ∃ done f todo r, fs = done ++ f :: todo ∧ request f = .ok r ∧
        r.Overflows (ctx (n + done.length)).clock.now (ctx (n + done.length)).clock.now
          (replayFrom ctx n count done db).2 := by
  induction fs generalizing n count db with
  | nil => simp [replayFrom]
  | cons f fs ih =>
    by_cases h : ∃ r, request f = .ok r ∧ r.Overflows (ctx n).clock.now (ctx n).clock.now db
    · obtain ⟨r, hr, hover⟩ := h
      exact iff_of_true (replayFrom_of_overflows hr hover) ⟨[], f, fs, r, rfl, hr, hover⟩
    · have hnot : ∀ r, request f = .ok r →
          ¬ r.Overflows (ctx n).clock.now (ctx n).clock.now db := fun r hr hover => h ⟨r, hr, hover⟩
      obtain ⟨count', db', hstep⟩ := replayFrom_of_not_overflows hnot count
      rw [hstep, ih]
      constructor
      · rintro ⟨done, g, todo, r, rfl, hr, hover⟩
        refine ⟨f :: done, g, todo, r, rfl, hr, ?_⟩
        rw [hstep, List.length_cons, Nat.add_comm done.length, ← Nat.add_assoc]
        exact hover
      · rintro ⟨done, g, todo, r, hfs, hr, hover⟩
        cases done with
        | nil =>
          cases hfs
          exact absurd hover (hnot r hr)
        | cons f' done =>
          cases hfs
          rw [hstep, List.length_cons, Nat.add_comm done.length, ← Nat.add_assoc] at hover
          exact ⟨done, g, todo, r, rfl, hr, hover⟩

omit [Unicode] in
theorem finish_eq_panic {e : Option FrameError} {x : Outcome FrameError Nat × Db cfg} :
    (finish e x).1 = .panic ↔ x.1 = .panic := by
  obtain ⟨outcome, db⟩ := x
  cases e <;> cases outcome <;> simp [finish]

/-- A request for a deadline is rejected or executed as asked exactly if the deadline fits the
clock, and a file makes `load` panic exactly if replaying it comes to a frame whose deadline
does not fit the clock then. -/
theorem expiry_honoured_iff (t : Instant) (ctx : Ctx) (db : Db cfg) (f : Frame) :
    (Honours t ctx db f ↔ ∀ r, request f = .ok r → ¬ r.Overflows t ctx.clock.now db) ∧
      ∀ (replayCtx : Nat → Ctx) (file : Bytes),
        (load replayCtx file (Db.empty : Db cfg)).1 ≠ .panic ↔
          ∀ done g todo r, (frames file).1 = done ++ g :: todo → request g = .ok r →
            ¬ r.Overflows (replayCtx done.length).clock.now (replayCtx done.length).clock.now
              (replay replayCtx done (Db.empty : Db cfg)).2 := by
  refine ⟨honours_iff t ctx db f, fun replayCtx file => ?_⟩
  rw [load_eq_replay, Ne, finish_eq_panic, replay, replayFrom_eq_panic]
  simp only [Nat.zero_add]
  constructor
  · intro h done g todo r hfs hr hover
    exact h ⟨done, g, todo, r, hfs, hr, hover⟩
  · rintro h ⟨done, g, todo, r, hfs, hr, hover⟩
    exact h done g todo r hfs hr hover

end Replay

/-- `EXPIRE k 9223372036854775808` on a live key is a write, so it is recorded, and panics; the
file with its record makes `load` panic as well. -/
theorem expire_overflows :
    let set : Frame := .array [.bulk (asBytes "SET"), .bulk [107], .bulk [118]]
    let expire : Frame :=
      .array [.bulk (asBytes "EXPIRE"), .bulk [107], .bulk (asBytes "9223372036854775808")]
    let cmd : Command := .expire { key := [107], duration := 2 ^ 63 * 10 ^ 9 }
    let db := (Db.empty : Db (.standard 0 List.length)).run
      [((Ctx.reading 0).toEnv, .on [107] (.set [118] none))]
    @fromFrame Unicode.ascii 0 expire = .ok cmd ∧ cmd.isWrite = true ∧
      (cmd.apply (.reading 0) db).1 = none ∧
      ¬ @Honours _ Unicode.ascii 0 (.reading 0) db expire ∧
      (@load Unicode.ascii (.standard 0 List.length) (fun _ => .reading 0)
        (start [] [set, expire]) Db.empty).1 = .panic := by
  intro set expire cmd db
  have hparse : @fromFrame Unicode.ascii 0 expire = .ok cmd := by decide +kernel
  have happly : (cmd.apply (.reading 0) db).1 = none := by decide +kernel
  have hencodable : ∀ g ∈ [set, expire], Encodable g := by
    simp only [List.forall_mem_cons, List.not_mem_nil, IsEmpty.forall_iff, implies_true, and_true]
    exact ⟨⟨⟨trivial, trivial, trivial, trivial⟩, by decide +kernel⟩,
      ⟨⟨trivial, trivial, trivial, trivial⟩, by decide +kernel⟩⟩
  refine ⟨hparse, rfl, happly, ?_, ?_⟩
  · unfold Honours
    rw [hparse]
    rintro ⟨reply, hreply, -⟩
    rw [happly] at hreply
    cases hreply
  · rw [@load_start Unicode.ascii (.standard 0 List.length) _ hencodable]
    decide +kernel

end Aof

end InMemoryCache
