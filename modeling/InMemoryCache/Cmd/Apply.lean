-- SUMMARY: Executing a command against the store, and the reply it makes.
import InMemoryCache.Cmd.Parse
import InMemoryCache.Store.Run

/-!
# Execution

Each command calls the store method of its name and turns the result into a reply
frame. A command that panics has no reply; only an expiry that overflows the clock
does.
-/

namespace InMemoryCache

open Lib

-- ---------------------------------------------------------------------------
-- Pub/sub
-- ---------------------------------------------------------------------------

/-- `CHANNEL_CAPACITY` -/
def channelCapacity : Nat := 1024

/-- A broadcast channel, by what each of its receivers has yet to take, oldest first. A
receiver that falls behind by more than the capacity loses the oldest. -/
structure Channel where
  pending : List (List Bytes)

def Channel.send (ch : Channel) (msg : Bytes) : Channel where
  pending := ch.pending.map fun q => (q ++ [msg]).drop (q.length + 1 - channelCapacity)

structure PubSub where
  channels : Table String Channel

/-- `publish`: the number of receivers the message went to. -/
def PubSub.publish (pubsub : PubSub) (channel : String) (msg : Bytes) : Nat × PubSub :=
  match pubsub.channels.get? channel with
  | some ch => (ch.pending.length, { channels := pubsub.channels.insert channel (ch.send msg) })
  | none => (0, pubsub)

-- ---------------------------------------------------------------------------
-- Replies
-- ---------------------------------------------------------------------------

/-- What executing a command takes from outside: an operation's environment, and the
text of `Metrics::format_redis_info` for the memory in use, the number of keys and the
memory limit. -/
structure Ctx extends Env where
  formatRedisInfo : Metrics → Nat → Nat → Nat → String

/-- A context whose clock reads `now`, for runs on fixed inputs. -/
def Ctx.reading (now : Instant) : Ctx where
  clock := { now := now, millis := now / 10 ^ 6 }
  draws _ _ := (0, 0)
  formatRedisInfo _ _ _ _ := ""

namespace Frame

def ofUsize (n : Nat) : Frame := .integer (Int64.ofNat n)

def ofBulks (bs : List Bytes) : Frame := .array (bs.map .bulk)

/-- A reply that is made from a result, or is its error. -/
def ofResult (k : α → Frame) : Except String α → Frame
  | .ok a => k a
  | .error e => .error e

def ofValue : Option Bytes → Frame
  | some v => .bulk v
  | none => .null

def ofPairs (pairs : List (Bytes × Bytes)) : Frame :=
  .array (pairs.flatMap fun kv => [.bulk kv.1, .bulk kv.2])

def ofBool (b : Bool) : Frame := .integer (if b then 1 else 0)

end Frame

namespace Cmd

variable {cfg : Config}

/-- The reply for a method's result, with the store it left. -/
def respond (k : α → Frame) (x : α × Db cfg) : Frame × Db cfg := (k x.1, x.2)

def Ping.apply (cmd : Ping) : Frame :=
  match cmd.msg with
  | some msg => .bulk msg
  | none => .simple "PONG"

def Echo.apply (cmd : Echo) : Frame := .bulk cmd.msg

def Get.apply (cmd : Get) (env : Env) (db : Db cfg) : Frame × Db cfg :=
  respond (Frame.ofResult Frame.ofValue) (db.get cmd.key env)

def Set.apply (cmd : Set) (env : Env) (db : Db cfg) : Frame × Db cfg :=
  (.simple "OK", db.set cmd.key cmd.value cmd.expiresAt env)

def Del.apply (cmd : Del) (db : Db cfg) : Frame × Db cfg :=
  respond Frame.ofUsize (db.del cmd.keys)

def Expire.apply (cmd : Expire) (env : Env) (db : Db cfg) : Option Frame × Db cfg :=
  let (success, db) := db.expire cmd.key cmd.duration env
  (success.map Frame.ofBool, db)

def Ttl.apply (cmd : Ttl) (env : Env) (db : Db cfg) : Frame × Db cfg :=
  respond .integer (if cmd.millis then db.pttl cmd.key env else db.ttl cmd.key env)

def ListCmd.apply (env : Env) (db : Db cfg) : ListCmd → Frame × Db cfg
  | .lpush key elements => respond (Frame.ofResult Frame.ofUsize) (db.lpush key elements env)
  | .rpush key elements => respond (Frame.ofResult Frame.ofUsize) (db.rpush key elements env)
  | .lpop key => respond (Frame.ofResult Frame.ofValue) (db.lpop key env)
  | .rpop key => respond (Frame.ofResult Frame.ofValue) (db.rpop key env)
  | .lrange key start stop =>
    respond (Frame.ofResult Frame.ofBulks) (db.lrange key start stop env)

def HashCmd.apply (env : Env) (db : Db cfg) : HashCmd → Frame × Db cfg
  | .hset key fields => respond (Frame.ofResult Frame.ofUsize) (db.hset key fields env)
  | .hget key field => respond (Frame.ofResult Frame.ofValue) (db.hget key field env)
  | .hdel key fields => respond (Frame.ofResult Frame.ofUsize) (db.hdel key fields env)
  | .hgetall key => respond (Frame.ofResult Frame.ofPairs) (db.hgetall key env)

def SetCmd.apply (env : Env) (db : Db cfg) : SetCmd → Frame × Db cfg
  | .sadd key members => respond (Frame.ofResult Frame.ofUsize) (db.sadd key members env)
  | .smembers key => respond (Frame.ofResult Frame.ofBulks) (db.smembers key env)
  | .srem key members => respond (Frame.ofResult Frame.ofUsize) (db.srem key members env)
  | .sismember key member => respond (Frame.ofResult Frame.ofBool) (db.sismember key member env)

def PubSubCmd.applyPublish (pubsub : PubSub) : PubSubCmd → Frame × PubSub
  | .publish channel message =>
    let (count, pubsub) := pubsub.publish channel message
    (Frame.ofUsize count, pubsub)
  | .subscribe _ => (.error "ERR invalid pubsub command execution", pubsub)

def Keys.apply (cmd : Keys) (env : Env) (db : Db cfg) : Frame :=
  Frame.ofBulks (db.keys cmd.pattern env.clock.now)

def Scan.apply (cmd : Scan) (env : Env) (db : Db cfg) : Frame :=
  let (nextCursor, matchedKeys) :=
    db.scan cmd.cursor cmd.pattern cmd.count cmd.typeFilter env.clock.now
  .array [.bulk (asBytes (usizeToString nextCursor)), Frame.ofBulks matchedKeys]

end Cmd

-- ---------------------------------------------------------------------------
-- Command::apply
-- ---------------------------------------------------------------------------

namespace Command

variable {cfg : Config}

/-- A reply that is always made. -/
def always (x : Frame × σ) : Option Frame × σ := (some x.1, x.2)

/-- `apply`: the reply, unless the command panics, and the store it leaves. -/
def apply (ctx : Ctx) (db : Db cfg) : Command → Option Frame × Db cfg
  | .ping cmd => (some cmd.apply, db)
  | .echo cmd => (some cmd.apply, db)
  | .get cmd => always (cmd.apply ctx.toEnv db)
  | .set cmd => always (cmd.apply ctx.toEnv db)
  | .del cmd => always (cmd.apply db)
  | .expire cmd => cmd.apply ctx.toEnv db
  | .ttl cmd => always (cmd.apply ctx.toEnv db)
  | .list cmd => always (cmd.apply ctx.toEnv db)
  | .hash cmd => always (cmd.apply ctx.toEnv db)
  | .setCmd cmd => always (cmd.apply ctx.toEnv db)
  | .pubSub _ => (some (.error "ERR pubsub executed in wrong context"), db)
  | .keys cmd => (some (cmd.apply ctx.toEnv db), db)
  | .scan cmd => (some (cmd.apply ctx.toEnv db), db)
  | .command => (some (.array []), db)
  | .info =>
    (some (.bulk (asBytes (ctx.formatRedisInfo db.metrics db.currentMemory db.len cfg.maxmemory))),
      db)
  | .client => (some (.simple "OK"), db)

/-- `apply_with_pubsub` -/
def applyWithPubsub (ctx : Ctx) (db : Db cfg) (pubsub : PubSub) :
    Command → Option Frame × Db cfg × PubSub
  | .pubSub cmd =>
    let (reply, pubsub) := cmd.applyPublish pubsub
    (some reply, db, pubsub)
  | cmd =>
    let (reply, db) := cmd.apply ctx db
    (reply, db, pubsub)

/-- Outside pub/sub, `apply_with_pubsub` is `apply`. -/
theorem applyWithPubsub_eq {ctx : Ctx} {db : Db cfg} {pubsub : PubSub} {cmd : Command}
    (h : ∀ c, cmd ≠ .pubSub c) :
    cmd.applyWithPubsub ctx db pubsub = ((cmd.apply ctx db).1, (cmd.apply ctx db).2, pubsub) := by
  cases cmd with
  | pubSub c => exact absurd rfl (h c)
  | _ => rfl

end Command

end InMemoryCache
