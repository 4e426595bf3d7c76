-- SUMMARY: What a connection does with one request, and how its reply reads on the wire.
import InMemoryCache.Cmd.Replies

/-!
# Requests

One turn of the loop in `process_connection`: a request is rejected, starts subscriber
mode, or is executed and answered. The reply reads back as one frame exactly when the
request's name holds no line terminator.
-/

namespace InMemoryCache

open Lib

/-- What the loop does with a request frame. A rejected request is answered at once; an
executed one is first recorded, if it is a write. -/
inductive Handled (cfg : Config) where
  | rejected (reply : Frame)
  | subscribed (channels : List String)
  | replied (recorded : Bool) (reply : Frame) (db : Db cfg) (pubsub : PubSub)
  | panicked

section Handle

variable [Unicode] {cfg : Config}

/-- The body of the loop in `process_connection`, up to writing the reply. -/
def handle (ctx : Ctx) (db : Db cfg) (pubsub : PubSub) (frame : Frame) : Handled cfg :=
  match Command.fromFrame ctx.clock.now frame with
  | .err err => .rejected (.error err)
  | .panic => .panicked
  | .ok (.pubSub (.subscribe channels)) => .subscribed channels
  | .ok cmd =>
    match cmd.applyWithPubsub ctx db pubsub with
    | (some response, db, pubsub) => .replied cmd.isWrite response db pubsub
    | (none, _, _) => .panicked

/-- The reply frame, if the request has one. -/
def Handled.reply : Handled cfg → Option Frame
  | .rejected reply => some reply
  | .replied _ reply _ _ => some reply
  | _ => none

/-- A reply is the error of a rejected request, or what an executed command answers. -/
theorem reply_handle {ctx : Ctx} {db : Db cfg} {pubsub : PubSub} {f r : Frame}
    (h : (handle ctx db pubsub f).reply = some r) :
    (∃ e, Command.fromFrame ctx.clock.now f = .err e ∧ r = .error e) ∨
      ((∃ cmd, Command.fromFrame ctx.clock.now f = .ok cmd) ∧ r.Clean) := by
  rw [handle] at h
  split at h
  · rename_i e he
    cases h
    exact .inl ⟨e, he, rfl⟩
  · cases h
  · cases h
  · rename_i cmd _ hcmd
    split at h
    · rename_i response db' pubsub' happly
      cases h
      exact .inr ⟨⟨cmd, hcmd⟩, Command.clean_applyWithPubsub (congrArg Prod.fst happly)⟩
    · cases h

/-- The reply to a request is clean unless the request's name holds a line terminator. -/
theorem clean_reply_iff {ctx : Ctx} {db : Db cfg} {pubsub : PubSub} {f r : Frame}
    (h : (handle ctx db pubsub f).reply = some r) :
    r.Clean ↔ ∀ name, Command.requestName f = some name → ¬ crlf <:+: asBytes name := by
  constructor
  · intro hclean name hname hcrlf
    obtain ⟨e, hfrom, he⟩ := Command.fromFrame_of_crlf hname hcrlf ctx.clock.now
    rcases reply_handle h with ⟨e', hfrom', rfl⟩ | ⟨⟨cmd, hcmd⟩, -⟩
    · rw [hfrom, Outcome.err.injEq] at hfrom'
      exact hclean (hfrom' ▸ he)
    · rw [hfrom] at hcmd
      cases hcmd
  · intro hname
    rcases reply_handle h with ⟨e, hfrom, rfl⟩ | ⟨-, hclean⟩
    · exact Command.errs_fromFrame hname ctx.clock.now e hfrom
    · exact hclean

/-- The bytes of a reply decode to exactly that reply, with nothing left over, if and only
if the request's name holds no line terminator. -/
theorem reply_decodes_iff {ctx : Ctx} {db : Db cfg} {pubsub : PubSub} {f r : Frame}
    (h : (handle ctx db pubsub f).reply = some r) (hlen : r.writeToBuf.length < 2 ^ 63) :
    (Frame.check r.writeToBuf = .ok ((), []) ∧ Frame.parse r.writeToBuf = .ok (r, [])) ↔
      ∀ name, Command.requestName f = some name → ¬ crlf <:+: asBytes name := by
  rw [← clean_reply_iff h]
  constructor
  · rintro ⟨-, hparse⟩
    exact Frame.clean_of_parse hparse
  · intro hclean
    have hparse := Frame.parse_writeToBuf hclean hlen []
    rw [List.append_nil] at hparse
    exact ⟨Frame.mirrors_check_parse.covers hparse, hparse⟩

end Handle

/-- The reply to `PING`. -/
theorem reply_decodes_ping :
    (Frame.check (Frame.simple "PONG").writeToBuf = .ok ((), []) ∧
        Frame.parse (Frame.simple "PONG").writeToBuf = .ok (.simple "PONG", [])) ↔
      ∀ name, Command.requestName (.array [.bulk [80, 73, 78, 71]]) = some name →
        ¬ crlf <:+: asBytes name :=
  @reply_decodes_iff Unicode.ascii (.standard 0 List.length) (.reading 0) Db.empty
    { channels := ∅ } (.array [.bulk [80, 73, 78, 71]]) (.simple "PONG") (by decide +kernel)
    (by decide +kernel)

/-- The request `*1 $4 A\r\nB`: the reply decodes to a shorter error, and four bytes are left
over. -/
theorem unknown_command_splits_reply :
    let request : Frame := .array [.bulk [65, 13, 10, 66]]
    let reply : Frame := .error "ERR unknown command 'A\r\nB'"
    Frame.parse [42, 49, 13, 10, 36, 52, 13, 10, 65, 13, 10, 66, 13, 10] = .ok (request, []) ∧
      (@handle Unicode.ascii (.standard 0 List.length) (.reading 0) Db.empty { channels := ∅ }
        request).reply = some reply ∧
      Frame.parse reply.writeToBuf = .ok (.error "ERR unknown command 'A", [66, 39, 13, 10]) ∧
      Frame.parse reply.writeToBuf ≠ .ok (reply, []) := by
  decide +kernel

end InMemoryCache
