-- SUMMARY: What a server replies does not depend on its shards, its hash or its sweeps.
import InMemoryCache.Cmd.Effect
import InMemoryCache.Server.Request
import InMemoryCache.Store.Invariant

/-!
# Agreement

Two servers without a memory limit that get the same requests at the same times make the same
replies, whatever their shards, their hash functions and the sweeps in between. Three commands
look behind the keyspace: `DEL` counts expired entries that no sweep has removed, `SCAN` goes
through the shards, and `INFO` describes the store. Both servers are compared with one that
keeps a flat map and drops what has expired before each request.
-/

namespace InMemoryCache

open Lib Leased

variable {cfg : Config}

-- ---------------------------------------------------------------------------
-- Replies from answers
-- ---------------------------------------------------------------------------

/-- The reply for what a store method returns, unless it panics. -/
def Answer.toFrame : Answer → Option Frame
  | .done => some (.simple "OK")
  | .value r => some (Frame.ofResult Frame.ofValue r)
  | .count r => some (Frame.ofResult Frame.ofUsize r)
  | .items r | .members r => some (Frame.ofResult Frame.ofBulks r)
  | .pairs r => some (Frame.ofResult Frame.ofPairs r)
  | .found r => some (Frame.ofResult Frame.ofBool r)
  | .expired r => r.map Frame.ofBool
  | .time i => some (.integer i)
  | .sampled _ | .evicted _ => none

namespace Command

theorem apply_eq_toFrame {cmd : Command} {key : Bytes} {op : KeyOp}
    (h : cmd.keyOp = some (key, op)) (ctx : Ctx) (db : Db cfg) :
    cmd.apply ctx db =
      ((db.performKey key ctx.toEnv op).1.toFrame, (db.performKey key ctx.toEnv op).2) := by
  cases cmd with
  | get cmd | set cmd | expire cmd =>
    cases h
    rfl
  | ttl cmd =>
    cases h
    cases hmillis : cmd.millis <;> simp only [apply, Cmd.Ttl.apply, hmillis] <;> rfl
  | list cmd => cases cmd <;> cases h <;> rfl
  | hash cmd => cases cmd <;> cases h <;> rfl
  | setCmd cmd => cases cmd <;> cases h <;> rfl
  | _ => cases h

/-- The reply of a command that performs no operation on a key, if only the flat map decides
it. -/
def flatReply (m : Flat) : Command → Option Frame
  | .ping cmd => some cmd.apply
  | .echo cmd => some cmd.apply
  | .keys cmd => some (Frame.ofBulks (m.keys.filter (Db.matchesPattern cmd.pattern)))
  | .command => some (.array [])
  | .client => some (.simple "OK")
  | _ => none

/-- Execution on a flat map without expired items. -/
def flatApply (now : Instant) (m : Flat) (cmd : Command) : Option Frame × Flat :=
  match cmd.keyOp with
  | some (key, op) =>
    let (answer, s) := op.onItem now (m.get? key)
    match answer.toFrame with
    | some reply => (some reply, m.overwrite key s)
    | none => (none, m)
  | none => (cmd.flatReply m, m.filter fun key _ => !cmd.delKeys.contains key)

end Command

/-- Equal replies, up to the order in which `KEYS` lists; `DEL`, `SCAN` and `INFO` may differ. -/
def SameReply (parsed : Outcome String Command) (r r' : Option Frame) : Prop :=
  match parsed with
  | .ok (.del _) | .ok (.scan _) | .ok .info => True
  | .ok (.keys _) => ∃ l l', r = some (.array l) ∧ r' = some (.array l') ∧ l.Perm l'
  | _ => r = r'

theorem SameReply.symm {parsed : Outcome String Command} {r r' : Option Frame}
    (h : SameReply parsed r r') : SameReply parsed r' r := by
  cases parsed with
  | ok cmd =>
    cases cmd with
    | del | scan | info => trivial
    | keys =>
      obtain ⟨l, l', hr, hr', hperm⟩ := h
      exact ⟨l', l, hr', hr, hperm.symm⟩
    | _ => exact Eq.symm h
  | _ => exact Eq.symm h

theorem SameReply.trans {parsed : Outcome String Command} {r r' r'' : Option Frame}
    (h : SameReply parsed r r') (h' : SameReply parsed r' r'') : SameReply parsed r r'' := by
  cases parsed with
  | ok cmd =>
    cases cmd with
    | del | scan | info => trivial
    | keys =>
      obtain ⟨l, l', hr, hr', hperm⟩ := h
      obtain ⟨k, k', hk, hk', hperm'⟩ := h'
      rw [hr', Option.some.injEq, Frame.array.injEq] at hk
      exact ⟨l, k', hr, hk', hperm.trans (hk ▸ hperm')⟩
    | _ => exact Eq.trans h h'
  | _ => exact Eq.trans h h'

theorem sameReply_refl (parsed : Outcome String Command) (hkeys : ∀ c, parsed ≠ .ok (.keys c))
    (r : Option Frame) : SameReply parsed r r := by
  cases parsed with
  | ok cmd =>
    cases cmd with
    | del | scan | info => trivial
    | keys c => exact absurd rfl (hkeys c)
    | _ => exact rfl
  | _ => exact rfl

-- ---------------------------------------------------------------------------
-- One request
-- ---------------------------------------------------------------------------

/-- `DEL` on the store and on the flat map. -/
theorem Db.Simulates.del {db : Db cfg} {m : Flat} {now : Instant} (h : db.Simulates m now)
    (keys : List Bytes) :
    (db.del keys).2.Simulates (m.filter fun key _ => !keys.contains key) now := by
  refine ⟨Db.kept_placed.del h.placed keys, fun key => ?_⟩
  rw [Command.item_del, Table.get?_filter, h.item_eq key]
  by_cases hkey : key ∈ keys
  · rw [if_pos hkey]
    cases m.get? key with
    | none => rfl
    | some it => rw [Option.filter_some, List.contains_iff_mem.mpr hkey]; rfl
  · rw [if_neg hkey]
    cases m.get? key with
    | none => rfl
    | some it => simp [hkey, Option.filter_some]

namespace Command

variable {db : Db cfg} {m : Flat} {now : Instant}

/-- What else a command replies is decided by the flat map, or left open. -/
theorem sameReply_of_no_keyOp {cmd : Command} (hop : cmd.keyOp = none)
    (hpubSub : ∀ c, cmd ≠ .pubSub c) {ctx : Ctx} (hle : now ≤ ctx.clock.now)
    (h : db.Simulates m now) : SameReply (.ok cmd) (cmd.apply ctx db).1
      (cmd.flatReply (Leased.sweep ctx.clock.now m)) := by
  cases cmd with
  | del | scan | info => trivial
  | ping | echo | command | client => exact rfl
  | keys c => exact ⟨_, _, rfl, rfl, (h.perm_keys hle c.pattern).map Frame.bulk⟩
  | pubSub c => exact absurd rfl (hpubSub c)
  | list c => cases c <;> cases hop
  | hash c => cases c <;> cases hop
  | setCmd c => cases c <;> cases hop
  | _ => cases hop

theorem apply_isSome_of_no_keyOp {cmd : Command} (hop : cmd.keyOp = none) (ctx : Ctx)
    (db : Db cfg) : (cmd.apply ctx db).1 ≠ none := by
  intro hnone
  obtain ⟨key, duration, rfl, -⟩ := apply_eq_none hnone
  cases hop

/-- A command on a store and on a flat map that it simulates: the same reply, and a command that
does not panic keeps the relation. -/
theorem simulates_apply (hmax : cfg.maxmemory = 0) {ctx : Ctx} (hle : now ≤ ctx.clock.now)
    (h : db.Simulates m now) {cmd : Command} (hpubSub : ∀ c, cmd ≠ .pubSub c) :
    let flat := cmd.flatApply ctx.clock.now (Leased.sweep ctx.clock.now m)
    SameReply (.ok cmd) (cmd.apply ctx db).1 flat.1 ∧
      if (cmd.apply ctx db).1.isSome then (cmd.apply ctx db).2.Simulates flat.2 ctx.clock.now
      else flat.2 = Leased.sweep ctx.clock.now m := by
  dsimp only
  rw [flatApply]
  cases hop : cmd.keyOp with
  | some kop =>
    obtain ⟨key, op⟩ := kop
    obtain ⟨hanswer, hnext⟩ := h.on hmax hle key op
    have hkeys : ∀ c, Outcome.ok cmd ≠ (.ok (.keys c) : Outcome String Command) := by
      rintro c hc
      cases hc
      cases hop
    rw [apply_eq_toFrame hop, hanswer]
    dsimp only
    split
    · rename_i reply hreply
      rw [hreply]
      exact ⟨sameReply_refl _ hkeys _, hnext⟩
    · rename_i hreply
      rw [hreply]
      exact ⟨sameReply_refl _ hkeys _, rfl⟩
  | none =>
    refine ⟨sameReply_of_no_keyOp hop hpubSub hle h, ?_⟩
    rw [if_pos (Option.isSome_iff_ne_none.mpr (apply_isSome_of_no_keyOp hop ctx db)),
      apply_of_no_keyOp hop]
    exact (h.sweep hle).del cmd.delKeys

end Command

/-- What the server makes of a request: the reply, if there is one, and what it keeps. -/
def serveRequest [Unicode] (ctx : Ctx) (db : Db cfg) (pubsub : PubSub) (frame : Frame) :
    Option Frame × Db cfg × PubSub :=
  match handle ctx db pubsub frame with
  | .rejected reply => (some reply, db, pubsub)
  | .replied _ reply db pubsub => (some reply, db, pubsub)
  | .subscribed _ | .panicked => (none, db, pubsub)

/-- What a server with a flat map makes of it. -/
def flatRequest [Unicode] (now : Instant) (m : Flat) (pubsub : PubSub) (frame : Frame) :
    Option Frame × Flat × PubSub :=
  match Command.fromFrame now frame with
  | .err err => (some (.error err), m, pubsub)
  | .panic | .ok (.pubSub (.subscribe _)) => (none, m, pubsub)
  | .ok (.pubSub cmd) => (some (cmd.applyPublish pubsub).1, m, (cmd.applyPublish pubsub).2)
  | .ok cmd => ((cmd.flatApply now m).1, (cmd.flatApply now m).2, pubsub)

section Requests

variable [Unicode]

theorem handle_of_ok {ctx : Ctx} {frame : Frame} {cmd : Command}
    (h : Command.fromFrame ctx.clock.now frame = .ok cmd) (hpubSub : ∀ c, cmd ≠ .pubSub c)
    (db : Db cfg) (pubsub : PubSub) :
    handle ctx db pubsub frame = match cmd.apply ctx db with
      | (some reply, db) => .replied cmd.isWrite reply db pubsub
      | (none, _) => .panicked := by
  cases cmd with
  | pubSub c => exact absurd rfl (hpubSub c)
  | _ =>
    simp only [handle, h]
    rw [Command.applyWithPubsub_eq hpubSub]
    cases Command.apply ctx db _ with
    | mk reply db' => cases reply <;> rfl

theorem serveRequest_of_ok {ctx : Ctx} {frame : Frame} {cmd : Command}
    (h : Command.fromFrame ctx.clock.now frame = .ok cmd) (hpubSub : ∀ c, cmd ≠ .pubSub c)
    (db : Db cfg) (pubsub : PubSub) :
    serveRequest ctx db pubsub frame = ((cmd.apply ctx db).1,
      if (cmd.apply ctx db).1.isSome then (cmd.apply ctx db).2 else db, pubsub) := by
  rw [serveRequest, handle_of_ok h hpubSub]
  cases cmd.apply ctx db with
  | mk reply db' => cases reply <;> rfl

theorem flatRequest_of_ok {now : Instant} {frame : Frame} {cmd : Command}
    (h : Command.fromFrame now frame = .ok cmd) (hpubSub : ∀ c, cmd ≠ .pubSub c) (m : Flat)
    (pubsub : PubSub) : flatRequest now m pubsub frame =
      ((cmd.flatApply now m).1, (cmd.flatApply now m).2, pubsub) := by
  rw [flatRequest, h]
  cases cmd with
  | pubSub c => exact absurd rfl (hpubSub c)
  | _ => rfl

theorem simulates_request (hmax : cfg.maxmemory = 0) {db : Db cfg} {m : Flat}
    {now : Instant} {ctx : Ctx} (hle : now ≤ ctx.clock.now) (h : db.Simulates m now)
    (pubsub : PubSub) (frame : Frame) :
    let flat := flatRequest ctx.clock.now (Leased.sweep ctx.clock.now m) pubsub frame
    let served := serveRequest ctx db pubsub frame
    SameReply (Command.fromFrame ctx.clock.now frame) served.1 flat.1 ∧
      served.2.1.Simulates flat.2.1 ctx.clock.now ∧ served.2.2 = flat.2.2 := by
  have hsame := h.sweep hle
  dsimp only
  cases hparsed : Command.fromFrame ctx.clock.now frame with
  | err err | panic =>
    rw [serveRequest, handle, flatRequest, hparsed]
    exact ⟨rfl, hsame, rfl⟩
  | ok cmd =>
    by_cases hpubSub : ∃ c, cmd = .pubSub c
    · obtain ⟨c, rfl⟩ := hpubSub
      rw [serveRequest, handle, flatRequest, hparsed]
      cases c with
      | subscribe channels => exact ⟨rfl, hsame, rfl⟩
      | publish channel msg => exact ⟨rfl, hsame, rfl⟩
    · have hnot : ∀ c, cmd ≠ .pubSub c := fun c hc => hpubSub ⟨c, hc⟩
      obtain ⟨hreply, hnext⟩ := Command.simulates_apply hmax hle h hnot
      rw [serveRequest_of_ok hparsed hnot, flatRequest_of_ok hparsed hnot]
      refine ⟨hreply, ?_, rfl⟩
      split at hnext
      · rename_i hsome
        rw [if_pos hsome]
        exact hnext
      · rename_i hnone
        rw [if_neg hnone, hnext]
        exact hsame

end Requests

-- ---------------------------------------------------------------------------
-- All requests
-- ---------------------------------------------------------------------------

/-- What reaches the store: a request of some client, or a step of the sweeper. -/
inductive Traffic where
  | request (ctx : Ctx) (frame : Frame)
  | sweep (now : Instant) (sampleSize shard : Nat) (draws : Nat → Nat)

namespace Traffic

def now : Traffic → Instant
  | .request ctx _ => ctx.clock.now
  | .sweep now _ _ _ => now

/-- The requests, with their times. -/
def request? : Traffic → Option (Instant × Frame)
  | .request ctx frame => some (ctx.clock.now, frame)
  | .sweep _ _ _ _ => none

def requests (work : List Traffic) : List (Instant × Frame) := work.filterMap request?

end Traffic

theorem forall₂_meet {α β γ : Type} {r : α → γ → Prop} {r' : β → γ → Prop} {q : α → β → Prop}
    (hq : ∀ {x y z}, r x z → r' y z → q x y) {xs : List α} {ys : List β} {zs : List γ}
    (h : List.Forall₂ r xs zs) (h' : List.Forall₂ r' ys zs) : List.Forall₂ q xs ys := by
  induction h generalizing ys with
  | nil =>
    cases h'
    exact .nil
  | cons hx _ ih =>
    cases h' with
    | cons hy h' => exact .cons (hq hx hy) (ih h')

section Traffic

variable [Unicode]

/-- The requests with their replies. -/
def replies (db : Db cfg) (pubsub : PubSub) : List Traffic → List (Instant × Frame × Option Frame)
  | [] => []
  | .request ctx frame :: work =>
    let served := serveRequest ctx db pubsub frame
    (ctx.clock.now, frame, served.1) :: replies served.2.1 served.2.2 work
  | .sweep now sampleSize shard draws :: work =>
    replies (db.purgeExpiredStep sampleSize now shard draws).2 pubsub work

/-- Those of a server with a flat map. -/
def flatReplies (m : Flat) (pubsub : PubSub) :
    List (Instant × Frame) → List (Instant × Frame × Option Frame)
  | [] => []
  | (now, frame) :: requests =>
    let served := flatRequest now (Leased.sweep now m) pubsub frame
    (now, frame, served.1) :: flatReplies served.2.1 served.2.2 requests

/-- The same request, with the same reply. -/
def SameAnswer (x y : Instant × Frame × Option Frame) : Prop :=
  x.1 = y.1 ∧ x.2.1 = y.2.1 ∧ SameReply (Command.fromFrame x.1 x.2.1) x.2.2 y.2.2

theorem SameAnswer.symm {x y : Instant × Frame × Option Frame} (h : SameAnswer x y) :
    SameAnswer y x := by
  obtain ⟨hnow, hframe, hreply⟩ := h
  exact ⟨hnow.symm, hframe.symm, by rw [← hnow, ← hframe]; exact hreply.symm⟩

theorem SameAnswer.trans {x y z : Instant × Frame × Option Frame} (h : SameAnswer x y)
    (h' : SameAnswer y z) : SameAnswer x z := by
  obtain ⟨hnow, hframe, hreply⟩ := h
  obtain ⟨hnow', hframe', hreply'⟩ := h'
  rw [← hnow, ← hframe] at hreply'
  exact ⟨hnow.trans hnow', hframe.trans hframe', hreply.trans hreply'⟩

/-- The run lemma: a store replies as the flat map does that it simulates. -/
theorem replies_simulate (hmax : cfg.maxmemory = 0) {db : Db cfg} {m : Flat} {now : Instant}
    (h : db.Simulates m now) (pubsub : PubSub) {work : List Traffic}
    (hle : ∀ x ∈ work, now ≤ x.now) (hmono : work.Pairwise fun x y => x.now ≤ y.now) :
    List.Forall₂ SameAnswer (replies db pubsub work)
      (flatReplies m pubsub (Traffic.requests work)) := by
  induction work generalizing db m now pubsub with
  | nil => exact .nil
  | cons x work ih =>
    rw [List.forall_mem_cons] at hle
    obtain ⟨hlater, hrest⟩ := List.pairwise_cons.mp hmono
    cases x with
    | request ctx frame =>
      obtain ⟨hreply, hnext, hpubsub⟩ := simulates_request hmax hle.1 h pubsub frame
      have htail := ih hnext (serveRequest ctx db pubsub frame).2.2 hlater hrest
      rw [replies, Traffic.requests, List.filterMap_cons]
      refine .cons ⟨rfl, rfl, hreply⟩ ?_
      rwa [hpubsub] at htail ⊢
    | sweep now' sampleSize shard draws =>
      let env : Env := { clock := { now := now', millis := 0 }, draws := fun _ _ => (0, 0) }
      have hnow : now ≤ env.clock.now := hle.1
      exact ih (h.purge hnow sampleSize shard draws) pubsub hlater hrest

/-- Two servers without a memory limit that get the same requests make the same replies,
whatever their shards and hash functions, and however they are swept in between. -/
theorem replies_agree {cfg cfg' : Config} (hmax : cfg.maxmemory = 0) (hmax' : cfg'.maxmemory = 0)
    (pubsub : PubSub) {work work' : List Traffic}
    (hrequests : Traffic.requests work = Traffic.requests work')
    (hmono : work.Pairwise fun x y => x.now ≤ y.now)
    (hmono' : work'.Pairwise fun x y => x.now ≤ y.now) :
    List.Forall₂ SameAnswer (replies (Db.empty : Db cfg) pubsub work)
      (replies (Db.empty : Db cfg') pubsub work') := by
  have h := replies_simulate hmax (Db.simulates_empty 0) pubsub (fun _ _ => Nat.zero_le _) hmono
  have h' := replies_simulate hmax' (Db.simulates_empty 0) pubsub (fun _ _ => Nat.zero_le _) hmono'
  rw [hrequests] at h
  exact forall₂_meet (fun hxz hyz => hxz.trans hyz.symm) h h'

end Traffic

/-- `RPUSH`, `EXPIRE` and `KEYS`, on one shard with a sweep in between and on 64 without one. -/
theorem replies_agree_swept :
    let oneShard : Config :=
      { numShards := 1, numShards_pos := by decide, maxmemory := 0, hash := fun _ => 7 }
    let rpush : Frame := .array [.bulk [82, 80, 85, 83, 72], .bulk [107], .bulk [97]]
    let expire : Frame := .array [.bulk [69, 88, 80, 73, 82, 69], .bulk [107], .bulk [49]]
    let keys : Frame := .array [.bulk [75, 69, 89, 83], .bulk [42]]
    let second : Instant := 10 ^ 9
    List.Forall₂ (@SameAnswer Unicode.ascii)
      (@replies oneShard Unicode.ascii Db.empty { channels := ∅ }
        [.request (.reading 0) rpush, .request (.reading 0) expire, .sweep second 20 0 fun _ => 0,
          .request (.reading second) keys])
      (@replies (.standard 0 List.length) Unicode.ascii Db.empty { channels := ∅ }
        [.request (.reading 0) rpush, .request (.reading 0) expire,
          .request (.reading second) keys]) := by
  intro oneShard rpush expire keys second
  exact @replies_agree Unicode.ascii oneShard (.standard 0 List.length) rfl rfl _ _ _ rfl
    (by simp [Traffic.now, Ctx.reading]) (by simp [Traffic.now, Ctx.reading])

end InMemoryCache
