-- SUMMARY: What a command does to the visible keyspace, key by key, and when it panics.
import InMemoryCache.Cmd.Apply
import InMemoryCache.Store.Refinement

/-!
# Effects

Without a memory limit a command acts on each key by itself: `Command.effect` is its
action on the item under one key, and `item_apply` says that the store shows exactly
that. The clock enters a request in two places only, the deadline `SET` computes while
it is parsed and the deadline `EXPIRE` computes while it runs (`fromFrame_request`,
`apply_eq_none`).
-/

namespace InMemoryCache

open Lib Leased Cmd

namespace Command

variable {cfg : Config}

/-! ## The action on one key -/

/-- The operation on a single key that a command performs. -/
def keyOp : Command → Option (Bytes × KeyOp)
  | .get cmd => some (cmd.key, .get)
  | .set cmd => some (cmd.key, .set cmd.value cmd.expiresAt)
  | .expire cmd => some (cmd.key, .expire cmd.duration)
  | .ttl cmd => some (cmd.key, if cmd.millis then .pttl else .ttl)
  | .list (.lpush key elements) => some (key, .lpush elements)
  | .list (.rpush key elements) => some (key, .rpush elements)
  | .list (.lpop key) => some (key, .lpop)
  | .list (.rpop key) => some (key, .rpop)
  | .list (.lrange key start stop) => some (key, .lrange start stop)
  | .hash (.hset key fields) => some (key, .hset fields)
  | .hash (.hget key field) => some (key, .hget field)
  | .hash (.hdel key fields) => some (key, .hdel fields)
  | .hash (.hgetall key) => some (key, .hgetall)
  | .setCmd (.sadd key members) => some (key, .sadd members)
  | .setCmd (.smembers key) => some (key, .smembers)
  | .setCmd (.srem key members) => some (key, .srem members)
  | .setCmd (.sismember key member) => some (key, .sismember member)
  | _ => none

/-- The keys `DEL` removes. -/
def delKeys : Command → List Bytes
  | .del cmd => cmd.keys
  | _ => []

/-- What a command executed at `now` does to the item under `key`. -/
def effect (now : Instant) (cmd : Command) (key : Bytes) (s : Option Item) : Option Item :=
  match cmd.keyOp with
  | some (k, op) => if key = k then (op.onItem now s).2 else s
  | none => if key ∈ cmd.delKeys then none else s

/-- The keys a command names. -/
def names (cmd : Command) : List Bytes :=
  match cmd.keyOp with
  | some (k, _) => [k]
  | none => cmd.delKeys

theorem effect_of_not_mem {now : Instant} {cmd : Command} {key : Bytes} (h : key ∉ cmd.names)
    (s : Option Item) : cmd.effect now key s = s := by
  rw [names] at h
  rw [effect]
  cases hop : cmd.keyOp with
  | some kop =>
    obtain ⟨k, op⟩ := kop
    rw [hop] at h
    exact if_neg fun hk => h (List.mem_singleton.mpr hk)
  | none =>
    rw [hop] at h
    exact if_neg h

theorem apply_of_keyOp {cmd : Command} {key : Bytes} {op : KeyOp}
    (h : cmd.keyOp = some (key, op)) (ctx : Ctx) (db : Db cfg) :
    (cmd.apply ctx db).2 = (db.performKey key ctx.toEnv op).2 := by
  cases cmd with
  | get cmd => cases h; rfl
  | set cmd => cases h; rfl
  | expire cmd => cases h; rfl
  | ttl cmd =>
    cases h
    simp only [apply, always, Ttl.apply, respond]
    split <;> rfl
  | list cmd => cases cmd <;> (cases h; rfl)
  | hash cmd => cases cmd <;> (cases h; rfl)
  | setCmd cmd => cases cmd <;> (cases h; rfl)
  | _ => cases h

theorem apply_of_no_keyOp {cmd : Command} (h : cmd.keyOp = none) (ctx : Ctx) (db : Db cfg) :
    (cmd.apply ctx db).2 = (db.del cmd.delKeys).2 := by
  cases cmd with
  | list cmd => cases cmd <;> cases h
  | hash cmd => cases cmd <;> cases h
  | setCmd cmd => cases cmd <;> cases h
  | get cmd => cases h
  | set cmd => cases h
  | expire cmd => cases h
  | ttl cmd => cases h
  | _ => rfl

theorem item_del (db : Db cfg) (keys : List Bytes) (now : Instant) (key : Bytes) :
    (db.del keys).2.item now key = if key ∈ keys then none else db.item now key := by
  induction keys generalizing db with
  | nil => rfl
  | cons k keys ih =>
    show ((db.locked k (Cell.del k)).2.del keys).2.item now key = _
    rw [ih, Db.item_locked, Cell.item_none Db.slot_del]
    by_cases hk : key = k
    · simp [hk]
    · simp [hk]

/-- The store shows each key as the command's effect leaves it. -/
theorem item_apply (hmax : cfg.maxmemory = 0) (cmd : Command) (ctx : Ctx) (db : Db cfg)
    (key : Bytes) :
    (cmd.apply ctx db).2.item ctx.clock.now key =
      visible ctx.clock.now (cmd.effect ctx.clock.now key (db.item ctx.clock.now key)) := by
  have hvisible : visible ctx.clock.now (db.item ctx.clock.now key) = db.item ctx.clock.now key :=
    visible_visible le_rfl _
  rw [effect]
  cases hop : cmd.keyOp with
  | some kop =>
    obtain ⟨k, op⟩ := kop
    have hagree := op.onCell_refines k ctx.clock (db.cellAt (Db.getShardIndex cfg k) k)
    rw [apply_of_keyOp hop, Db.performKey_eq, Db.reserved_of_unlimited hmax, Db.item_locked]
    by_cases hk : key = k
    · subst hk
      simp only [if_true]
      exact hagree.state
    · simp only [if_neg hk, hvisible]
  | none =>
    rw [apply_of_no_keyOp hop, item_del]
    dsimp only
    split
    · rfl
    · exact hvisible.symm

/-! ## Panics -/

/-- Only an `EXPIRE` whose deadline overflows the clock has no reply. -/
theorem apply_eq_none {cmd : Command} {ctx : Ctx} {db : Db cfg} (h : (cmd.apply ctx db).1 = none) :
    ∃ key duration, cmd = .expire { key := key, duration := duration } ∧
      Instant.add ctx.clock.now duration = none := by
  cases cmd with
  | expire cmd =>
    refine ⟨cmd.key, cmd.duration, rfl, ?_⟩
    simp only [apply, Expire.apply, Option.map_eq_none_iff, Db.expire, Db.locked, Db.lockedAt,
      Cell.expire] at h
    split at h
    · cases h
    · split at h
      · cases h
      · split at h
        · cases h
        · assumption
  | list cmd => cases cmd <;> cases h
  | hash cmd => cases cmd <;> cases h
  | setCmd cmd => cases cmd <;> cases h
  | _ => cases h

/-! ## Requests before their deadline is fixed -/

/-- What a request frame asks for, whenever it is parsed: a command, or a `SET` whose
deadline is still a duration. -/
inductive Request where
  | plain (cmd : Command)
  | set (key value : Bytes) (duration : Option Duration)
  deriving DecidableEq, Repr

/-- The command a request is when it is parsed at `now`. -/
def Request.resolve (now : Instant) : Request → Outcome String Command
  | .plain cmd => .ok cmd
  | .set key value duration => do
    let expiresAt ← deadline now duration
    pure (.set { key := key, value := value, expiresAt := expiresAt })

theorem wrap_ne_set {k : α → Command} {parse : List Frame → Outcome String α}
    (hk : ∀ a c, k a ≠ .set c) (args : List Frame) (c : Cmd.Set) :
    wrap k parse args ≠ .ok (.set c) := by
  intro h
  obtain ⟨a, -, ha⟩ := Outcome.bind_eq_ok.mp h
  cases hka : k a with
  | set c' => exact hk a c' hka
  | _ => rw [hka] at ha; cases ha

theorem mem_of_lookup {l : List (String × α)} {name : String} {a : α}
    (h : l.lookup name = some a) : (name, a) ∈ l := by
  induction l with
  | nil => cases h
  | cons e l ih =>
    obtain ⟨n, b⟩ := e
    rw [List.lookup_cons] at h
    split at h
    · rename_i heq
      cases h
      rw [eq_of_beq heq]
      exact List.mem_cons_self
    · exact List.mem_cons_of_mem _ (ih h)

variable [Unicode]

/-- Only the parser of `SET` reads the clock. -/
theorem lookup_parsers_congr {name : String} (h : name ≠ "SET") (now now' : Instant) :
    (parsers now).lookup name = (parsers now').lookup name := by
  simp only [parsers, List.lookup_cons, beq_eq_false_iff_ne.mpr h]

theorem lookup_parsers_set (now : Instant) :
    (parsers now).lookup "SET" = some (wrap .set (Set.parseFrames now)) := rfl

/-- The other parsers make no `SET`. -/
theorem parser_ne_set (now : Instant) :
    ∀ e ∈ parsers now, e.1 ≠ "SET" → ∀ args c, e.2 args ≠ .ok (.set c) := by
  simp only [parsers, List.forall_mem_cons, List.not_mem_nil, IsEmpty.forall_iff, implies_true,
    and_true]
  and_intros
  all_goals intro hname args c
  case refine_2.refine_2.refine_2.refine_1 => exact absurd rfl hname
  all_goals first
    | exact wrap_ne_set (fun _ _ h => by cases h) args c
    | exact fun h => by cases h

/-- The arguments of `SET`, before its deadline is computed. -/
def setRequest (args : List Frame) : Outcome String Request := do
  let key ← bytesArg (wrongArgs "set") args.head?
  let value ← bytesArg (wrongArgs "set") args.tail.head?
  let duration ← setOptions none args.tail.tail
  pure (.set key value duration)

theorem parseFrames_set (now : Instant) (args : List Frame) :
    wrap .set (Set.parseFrames now) args = setRequest args >>= Request.resolve now := by
  rw [wrap, Set.parseFrames, setRequest]
  cases bytesArg (wrongArgs "set") args.head? with
  | ok key =>
    cases bytesArg (wrongArgs "set") args.tail.head? with
    | ok value =>
      cases setOptions none args.tail.tail with
      | ok duration =>
        simp only [Outcome.ok_bind, Outcome.pure_eq, Request.resolve]
        cases deadline now duration <;> rfl
      | err e => rfl
      | panic => rfl
    | err e => rfl
    | panic => rfl
  | err e => rfl
  | panic => rfl

theorem setRequest_ne_plain (args : List Frame) (cmd : Command) :
    setRequest args ≠ .ok (.plain cmd) := by
  intro h
  obtain ⟨key, -, h⟩ := Outcome.bind_eq_ok.mp h
  obtain ⟨value, -, h⟩ := Outcome.bind_eq_ok.mp h
  obtain ⟨duration, -, h⟩ := Outcome.bind_eq_ok.mp h
  cases h

theorem fromFrame_cons {f : Frame} {name : String} (h : nameArg f = .ok name) (now : Instant)
    (args : List Frame) :
    fromFrame now (.array (f :: args)) =
      match (parsers now).lookup (toUppercase name) with
      | some parse => parse args
      | none => .err (unknownCommand (toUppercase name)) := by
  rw [fromFrame, h]
  rfl

/-- The arguments of a `SET` frame. -/
def setArgs : Frame → Option (List Frame)
  | .array (f :: args) =>
    match nameArg f with
    | .ok name => if toUppercase name = "SET" then some args else none
    | _ => none
  | _ => none

/-- What a frame asks for; any other than a `SET` is parsed alike at every time. -/
def request (f : Frame) : Outcome String Request :=
  match setArgs f with
  | some args => setRequest args
  | none => fromFrame 0 f >>= fun cmd => pure (.plain cmd)

/-- Frames other than `SET` are parsed alike at every time, and never to a `SET`. -/
theorem fromFrame_of_setArgs_none {f : Frame} (h : setArgs f = none) (now : Instant) :
    fromFrame now f = fromFrame 0 f ∧ ∀ c, fromFrame 0 f ≠ .ok (.set c) := by
  cases f with
  | array fs =>
    cases fs with
    | nil => exact ⟨rfl, fun _ h => by cases h⟩
    | cons g args =>
      cases hname : nameArg g with
      | err e => exact ⟨by rw [fromFrame, fromFrame, hname]; rfl, fun _ h => by
          rw [fromFrame, hname] at h; cases h⟩
      | panic => exact ⟨by rw [fromFrame, fromFrame, hname]; rfl, fun _ h => by
          rw [fromFrame, hname] at h; cases h⟩
      | ok name =>
        have hset : toUppercase name ≠ "SET" := by
          intro hset
          simp [setArgs, hname, hset] at h
        rw [fromFrame_cons hname, fromFrame_cons hname, lookup_parsers_congr hset now 0]
        refine ⟨rfl, fun c hc => ?_⟩
        cases hlookup : (parsers 0).lookup (toUppercase name) with
        | none =>
          rw [hlookup] at hc
          cases hc
        | some parse =>
          rw [hlookup] at hc
          exact parser_ne_set 0 _ (mem_of_lookup hlookup) hset args c hc
  | simple s => exact ⟨rfl, fun _ h => by cases h⟩
  | error s => exact ⟨rfl, fun _ h => by cases h⟩
  | integer i => exact ⟨rfl, fun _ h => by cases h⟩
  | bulk b => exact ⟨rfl, fun _ h => by cases h⟩
  | null => exact ⟨rfl, fun _ h => by cases h⟩

theorem fromFrame_of_setArgs_some {f : Frame} {args : List Frame} (h : setArgs f = some args)
    (now : Instant) : fromFrame now f = wrap .set (Set.parseFrames now) args := by
  unfold setArgs at h
  split at h
  · rename_i g rest
    cases hname : nameArg g with
    | ok name =>
      rw [hname] at h
      simp only [Option.ite_none_right_eq_some, Option.some.injEq] at h
      obtain ⟨hset, rfl⟩ := h
      rw [fromFrame_cons hname, hset, lookup_parsers_set]
    | err e =>
      rw [hname] at h
      cases h
    | panic =>
      rw [hname] at h
      cases h
  · cases h

/-- A frame is what it asks for, with the deadline that the time of parsing gives it. -/
theorem fromFrame_eq_resolve (f : Frame) (now : Instant) :
    fromFrame now f = request f >>= Request.resolve now := by
  rw [request]
  cases hset : setArgs f with
  | some args =>
    rw [fromFrame_of_setArgs_some hset]
    exact parseFrames_set now args
  | none =>
    rw [(fromFrame_of_setArgs_none hset now).1]
    cases fromFrame 0 f <;> rfl

/-- A request frame means the same whenever it is parsed, up to the deadline of `SET`. -/
theorem fromFrame_request (f : Frame) :
    ∃ r : Outcome String Request, (∀ now, fromFrame now f = r >>= Request.resolve now) ∧
      ∀ cmd, r = .ok (.plain cmd) → ∀ c, cmd ≠ .set c := by
  refine ⟨request f, fromFrame_eq_resolve f, fun cmd h c hc => ?_⟩
  rw [request] at h
  cases hset : setArgs f with
  | some args =>
    rw [hset] at h
    exact setRequest_ne_plain args cmd h
  | none =>
    rw [hset] at h
    obtain ⟨cmd', hparse, hplain⟩ := Outcome.bind_eq_ok.mp h
    cases hplain
    exact (fromFrame_of_setArgs_none hset 0).2 c (hc ▸ hparse)

end Command

end InMemoryCache
