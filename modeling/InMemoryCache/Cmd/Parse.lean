-- SUMMARY: Commands, and how a request frame becomes one.
import InMemoryCache.Lib.Outcome
import InMemoryCache.Text
import InMemoryCache.Wire.Frame

/-!
# Commands

`Command.fromFrame` turns the array a client sent into a command or an error text. The
arguments are the list of frames the source's iterator has left. `SET` computes its
deadline while it is parsed, so parsing reads the clock, and an overflowing deadline
panics.
-/

namespace InMemoryCache

open Lib

namespace Cmd

structure Ping where
  msg : Option Bytes
  deriving DecidableEq, Repr

structure Echo where
  msg : Bytes
  deriving DecidableEq, Repr

structure Get where
  key : Bytes
  deriving DecidableEq, Repr

structure Set where
  key : Bytes
  value : Bytes
  expiresAt : Option Instant
  deriving DecidableEq, Repr

structure Del where
  keys : List Bytes
  deriving DecidableEq, Repr

structure Expire where
  key : Bytes
  duration : Duration
  deriving DecidableEq, Repr

structure Ttl where
  key : Bytes
  millis : Bool
  deriving DecidableEq, Repr

inductive ListCmd where
  | lpush (key : Bytes) (elements : List Bytes)
  | rpush (key : Bytes) (elements : List Bytes)
  | lpop (key : Bytes)
  | rpop (key : Bytes)
  | lrange (key : Bytes) (start stop : Int64)
  deriving DecidableEq, Repr

inductive HashCmd where
  | hset (key : Bytes) (fields : List (Bytes × Bytes))
  | hget (key field : Bytes)
  | hdel (key : Bytes) (fields : List Bytes)
  | hgetall (key : Bytes)
  deriving DecidableEq, Repr

inductive SetCmd where
  | sadd (key : Bytes) (members : List Bytes)
  | smembers (key : Bytes)
  | srem (key : Bytes) (members : List Bytes)
  | sismember (key member : Bytes)
  deriving DecidableEq, Repr

inductive PubSubCmd where
  | publish (channel : String) (message : Bytes)
  | subscribe (channels : List String)
  deriving DecidableEq, Repr

structure Keys where
  pattern : Bytes
  deriving DecidableEq, Repr

structure Scan where
  cursor : Nat
  pattern : Option Bytes
  count : Nat
  typeFilter : Option String
  deriving DecidableEq, Repr

end Cmd

open Cmd in
inductive Command where
  | ping (cmd : Ping)
  | echo (cmd : Echo)
  | get (cmd : Get)
  | set (cmd : Set)
  | del (cmd : Del)
  | expire (cmd : Expire)
  | ttl (cmd : Ttl)
  | list (cmd : ListCmd)
  | hash (cmd : HashCmd)
  | setCmd (cmd : SetCmd)
  | pubSub (cmd : PubSubCmd)
  | keys (cmd : Keys)
  | scan (cmd : Scan)
  | command
  | info
  | client
  deriving DecidableEq, Repr

-- ---------------------------------------------------------------------------
-- Arguments
-- ---------------------------------------------------------------------------

namespace Cmd

/-- An argument that must be a string; anything else is the error. -/
def bytesArg (err : String) : Option Frame → Outcome String Bytes
  | some (.bulk b) => .ok b
  | some (.simple s) => .ok (asBytes s)
  | _ => .err err

/-- All remaining arguments, which must be strings. -/
def bytesArgs (err : String) : List Frame → Outcome String (List Bytes)
  | [] => .ok []
  | f :: args => do
    let b ← bytesArg err (some f)
    let bs ← bytesArgs err args
    pure (b :: bs)

/-- An argument that must be text: `invalid` unless it is UTF-8, `other` unless it is
a string at all. -/
def textArg (invalid other : String) : Frame → Outcome String String
  | .bulk b =>
    match fromUtf8 b with
    | some s => .ok s
    | none => .err invalid
  | .simple s => .ok s
  | _ => .err other

/-- An argument that must be text or an integer frame, as text. -/
def numberArg (invalid other : String) : Frame → Outcome String String
  | .integer i => .ok (i64ToString i)
  | f => textArg invalid other f

/-- `args.next().ok_or(err)` -/
def nextArg (err : String) : List Frame → Outcome String (Frame × List Frame)
  | [] => .err err
  | f :: args => .ok (f, args)

/-- `if args.next().is_some() { return Err(err) }` -/
def noMoreArgs (err : String) : List Frame → Outcome String Unit
  | [] => .ok ()
  | _ :: _ => .err err

/-- `if items.is_empty() { return Err(err) }` -/
def nonEmpty (err : String) (items : List α) : Outcome String Unit :=
  if items.isEmpty then .err err else .ok ()

/-- `text.parse().map_err(|_| err)` -/
def parsed (err : String) : Option α → Outcome String α
  | some a => .ok a
  | none => .err err

def wrongArgs (cmd : String) : String := "ERR wrong number of arguments for '" ++ cmd ++ "' command"

def invalidArg (cmd : String) : String := "ERR invalid argument for '" ++ cmd ++ "' command"

def syntaxErr : String := "ERR syntax error"

def notAnInteger : String := "ERR value is not an integer or out of range"

-- ---------------------------------------------------------------------------
-- The parsers
-- ---------------------------------------------------------------------------

/-- The single optional message of `PING` and the message of `ECHO`. -/
def messageArg (cmd : String) (f : Frame) (args : List Frame) : Outcome String Bytes :=
  match f with
  | .bulk b => noMoreArgs (wrongArgs cmd) args >>= fun _ => pure b
  | .simple s => noMoreArgs (wrongArgs cmd) args >>= fun _ => pure (asBytes s)
  | _ => .err (invalidArg cmd)

def Ping.parseFrames : List Frame → Outcome String Ping
  | [] => .ok { msg := none }
  | f :: args => do
    let msg ← messageArg "ping" f args
    pure { msg := some msg }

def Echo.parseFrames : List Frame → Outcome String Echo
  | [] => .err (wrongArgs "echo")
  | f :: args => do
    let msg ← messageArg "echo" f args
    pure { msg := msg }

/-- A key and nothing else. -/
def keyOnly (err : String) (args : List Frame) : Outcome String Bytes := do
  let key ← bytesArg err args.head?
  noMoreArgs err args.tail
  pure key

/-- A key and a second string, and nothing else. -/
def keyAndArg (err : String) (args : List Frame) : Outcome String (Bytes × Bytes) := do
  let key ← bytesArg err args.head?
  let arg ← bytesArg err args.tail.head?
  noMoreArgs err args.tail.tail
  pure (key, arg)

/-- A key and one or more strings. -/
def keyAndArgs (err : String) (args : List Frame) : Outcome String (Bytes × List Bytes) := do
  let key ← bytesArg err args.head?
  let items ← bytesArgs syntaxErr args.tail
  nonEmpty err items
  pure (key, items)

def Get.parseFrames (args : List Frame) : Outcome String Get := do
  let key ← keyOnly (wrongArgs "get") args
  pure { key := key }

/-- The options of `SET`; a later one overrides an earlier one. -/
def setOptions [Unicode] (duration : Option Duration) :
    List Frame → Outcome String (Option Duration)
  | [] => .ok duration
  | [f] => do
    let _ ← textArg syntaxErr syntaxErr f
    .err syntaxErr
  | f :: g :: args => do
    let opt ← textArg syntaxErr syntaxErr f
    let opt := toUppercase opt
    if opt = "EX" then do
      let sec ← numberArg notAnInteger syntaxErr g
      let secs ← parsed notAnInteger (parseU64 sec)
      setOptions (some (Duration.fromSecs secs)) args
    else if opt = "PX" then do
      let ms ← numberArg notAnInteger syntaxErr g
      let ms ← parsed notAnInteger (parseU64 ms)
      setOptions (some (Duration.fromMillis ms)) args
    else .err syntaxErr

/-- `expire_duration.map(|d| Instant::now() + d)` -/
def deadline (now : Instant) : Option Duration → Outcome String (Option Instant)
  | none => .ok none
  | some d => do
    let exp ← Outcome.ofChecked (Instant.add now d)
    pure (some exp)

def Set.parseFrames [Unicode] (now : Instant) (args : List Frame) : Outcome String Set := do
  let key ← bytesArg (wrongArgs "set") args.head?
  let value ← bytesArg (wrongArgs "set") args.tail.head?
  let expireDuration ← setOptions none args.tail.tail
  let expiresAt ← deadline now expireDuration
  pure { key := key, value := value, expiresAt := expiresAt }

def Del.parseFrames (args : List Frame) : Outcome String Del := do
  let keys ← bytesArgs (invalidArg "del") args
  nonEmpty (wrongArgs "del") keys
  pure { keys := keys }

/-- What `parse_expire` and `parse_pexpire` share: `unit` turns the number into a
duration. -/
def Expire.parseIn (cmd : String) (unit : Nat → Duration) (args : List Frame) :
    Outcome String Expire := do
  let key ← bytesArg (wrongArgs cmd) args.head?
  let (f, rest) ← nextArg (wrongArgs cmd) args.tail
  let text ← numberArg notAnInteger notAnInteger f
  let n ← parsed notAnInteger (parseU64 text)
  noMoreArgs syntaxErr rest
  pure { key := key, duration := unit n }

def Expire.parseExpire : List Frame → Outcome String Expire :=
  Expire.parseIn "expire" Duration.fromSecs

def Expire.parsePexpire : List Frame → Outcome String Expire :=
  Expire.parseIn "pexpire" Duration.fromMillis

def Ttl.parseFrames (millis : Bool) (args : List Frame) : Outcome String Ttl := do
  let key ← keyOnly "ERR wrong number of arguments for command" args
  pure { key := key, millis := millis }

namespace ListCmd

def parseLpush (args : List Frame) : Outcome String ListCmd := do
  let (key, elements) ← keyAndArgs (wrongArgs "lpush") args
  pure (.lpush key elements)

def parseRpush (args : List Frame) : Outcome String ListCmd := do
  let (key, elements) ← keyAndArgs (wrongArgs "rpush") args
  pure (.rpush key elements)

def parseLpop (args : List Frame) : Outcome String ListCmd := do
  let key ← keyOnly (wrongArgs "lpop") args
  pure (.lpop key)

def parseRpop (args : List Frame) : Outcome String ListCmd := do
  let key ← keyOnly (wrongArgs "rpop") args
  pure (.rpop key)

/-- An index of `LRANGE`. -/
def indexArg : Option Frame → Outcome String Int64
  | none => .err (wrongArgs "lrange")
  | some f => do
    let text ← numberArg "ERR value is not an integer" (wrongArgs "lrange") f
    parsed notAnInteger (parseI64 text)

def parseLrange (args : List Frame) : Outcome String ListCmd := do
  let key ← bytesArg (wrongArgs "lrange") args.head?
  let start ← indexArg args.tail.head?
  let stop ← indexArg args.tail.tail.head?
  noMoreArgs (wrongArgs "lrange") args.tail.tail.tail
  pure (.lrange key start stop)

end ListCmd

namespace HashCmd

/-- The field-value pairs of `HSET`. -/
def fieldArgs : List Frame → Outcome String (List (Bytes × Bytes))
  | [] => .ok []
  | [f] => do
    let _ ← bytesArg syntaxErr (some f)
    .err (wrongArgs "hset")
  | f :: g :: args => do
    let field ← bytesArg syntaxErr (some f)
    let value ← bytesArg syntaxErr (some g)
    let fields ← fieldArgs args
    pure ((field, value) :: fields)

def parseHset (args : List Frame) : Outcome String HashCmd := do
  let key ← bytesArg (wrongArgs "hset") args.head?
  let fields ← fieldArgs args.tail
  nonEmpty (wrongArgs "hset") fields
  pure (.hset key fields)

def parseHget (args : List Frame) : Outcome String HashCmd := do
  let (key, field) ← keyAndArg (wrongArgs "hget") args
  pure (.hget key field)

def parseHdel (args : List Frame) : Outcome String HashCmd := do
  let (key, fields) ← keyAndArgs (wrongArgs "hdel") args
  pure (.hdel key fields)

def parseHgetall (args : List Frame) : Outcome String HashCmd := do
  let key ← keyOnly (wrongArgs "hgetall") args
  pure (.hgetall key)

end HashCmd

namespace SetCmd

def parseSadd (args : List Frame) : Outcome String SetCmd := do
  let (key, members) ← keyAndArgs (wrongArgs "sadd") args
  pure (.sadd key members)

def parseSmembers (args : List Frame) : Outcome String SetCmd := do
  let key ← keyOnly (wrongArgs "smembers") args
  pure (.smembers key)

def parseSrem (args : List Frame) : Outcome String SetCmd := do
  let (key, members) ← keyAndArgs (wrongArgs "srem") args
  pure (.srem key members)

def parseSismember (args : List Frame) : Outcome String SetCmd := do
  let (key, member) ← keyAndArg (wrongArgs "sismember") args
  pure (.sismember key member)

end SetCmd

namespace PubSubCmd

/-- A channel name. -/
def channelArg (other : String) : Option Frame → Outcome String String
  | some f => textArg "ERR invalid channel name" other f
  | none => .err other

def parsePublish (args : List Frame) : Outcome String PubSubCmd := do
  let channel ← channelArg (wrongArgs "publish") args.head?
  let message ← bytesArg (wrongArgs "publish") args.tail.head?
  noMoreArgs (wrongArgs "publish") args.tail.tail
  pure (.publish channel message)

def channelArgs : List Frame → Outcome String (List String)
  | [] => .ok []
  | f :: args => do
    let ch ← channelArg syntaxErr (some f)
    let chs ← channelArgs args
    pure (ch :: chs)

def parseSubscribe (args : List Frame) : Outcome String PubSubCmd := do
  let channels ← channelArgs args
  nonEmpty (wrongArgs "subscribe") channels
  pure (.subscribe channels)

end PubSubCmd

def Keys.parseFrames (args : List Frame) : Outcome String Keys := do
  let (f, rest) ← nextArg (wrongArgs "keys") args
  noMoreArgs (wrongArgs "keys") rest
  let pattern ← bytesArg (invalidArg "keys") (some f)
  pure { pattern := pattern }

namespace Scan

def invalidCursor : String := "ERR invalid cursor"

def cursorArg : Frame → Outcome String Nat
  | .integer i =>
    if i < 0 then .err invalidCursor else parsed invalidCursor (parseU64 (i64ToString i))
  | f => do
    let text ← textArg invalidCursor invalidCursor f
    parsed invalidCursor (parseU64 text)

def countArg : Frame → Outcome String Nat
  | .integer i => if i ≤ 0 then .err notAnInteger else .ok i.toInt.toNat
  | f => do
    let text ← textArg notAnInteger notAnInteger f
    parsed notAnInteger (parseU64 text)

/-- The options of `SCAN`; a later one overrides an earlier one. -/
def options [Unicode] (scan : Scan) : List Frame → Outcome String Scan
  | [] => .ok scan
  | [f] => do
    let _ ← textArg syntaxErr syntaxErr f
    .err syntaxErr
  | f :: g :: args => do
    let opt ← textArg syntaxErr syntaxErr f
    let opt := toUppercase opt
    if opt = "MATCH" then do
      let pattern ← bytesArg syntaxErr (some g)
      options { scan with pattern := some pattern } args
    else if opt = "COUNT" then do
      let count ← countArg g
      options { scan with count := count } args
    else if opt = "TYPE" then do
      let t ← textArg syntaxErr syntaxErr g
      options { scan with typeFilter := some t } args
    else .err syntaxErr

def parseFrames [Unicode] (args : List Frame) : Outcome String Scan := do
  let (f, rest) ← nextArg (wrongArgs "scan") args
  let cursor ← cursorArg f
  options { cursor := cursor, pattern := none, count := 10, typeFilter := none } rest

end Scan

end Cmd

-- ---------------------------------------------------------------------------
-- Command::from_frame
-- ---------------------------------------------------------------------------

namespace Command

open Cmd

/-- Wrap a parser's result in the command's constructor. -/
def wrap (k : α → Command) (parse : List Frame → Outcome String α) (args : List Frame) :
    Outcome String Command :=
  parse args >>= fun a => pure (k a)

/-- The commands by upper-case name, in the order of the source's `match`. -/
def parsers [Unicode] (now : Instant) : List (String × (List Frame → Outcome String Command)) :=
  [("PING", wrap .ping Ping.parseFrames),
    ("ECHO", wrap .echo Echo.parseFrames),
    ("GET", wrap .get Get.parseFrames),
    ("SET", wrap .set (Set.parseFrames now)),
    ("DEL", wrap .del Del.parseFrames),
    ("EXPIRE", wrap .expire Expire.parseExpire),
    ("PEXPIRE", wrap .expire Expire.parsePexpire),
    ("TTL", wrap .ttl (Ttl.parseFrames false)),
    ("PTTL", wrap .ttl (Ttl.parseFrames true)),
    ("LPUSH", wrap .list ListCmd.parseLpush),
    ("RPUSH", wrap .list ListCmd.parseRpush),
    ("LPOP", wrap .list ListCmd.parseLpop),
    ("RPOP", wrap .list ListCmd.parseRpop),
    ("LRANGE", wrap .list ListCmd.parseLrange),
    ("HSET", wrap .hash HashCmd.parseHset),
    ("HGET", wrap .hash HashCmd.parseHget),
    ("HDEL", wrap .hash HashCmd.parseHdel),
    ("HGETALL", wrap .hash HashCmd.parseHgetall),
    ("SADD", wrap .setCmd SetCmd.parseSadd),
    ("SMEMBERS", wrap .setCmd SetCmd.parseSmembers),
    ("SREM", wrap .setCmd SetCmd.parseSrem),
    ("SISMEMBER", wrap .setCmd SetCmd.parseSismember),
    ("PUBLISH", wrap .pubSub PubSubCmd.parsePublish),
    ("SUBSCRIBE", wrap .pubSub PubSubCmd.parseSubscribe),
    ("KEYS", wrap .keys Keys.parseFrames),
    ("SCAN", wrap .scan Scan.parseFrames),
    ("COMMAND", fun _ => .ok .command),
    ("INFO", fun _ => .ok .info),
    ("CLIENT", fun _ => .ok .client)]

/-- The command name, from the first frame of the array. -/
def nameArg : Frame → Outcome String String :=
  textArg "protocol error; invalid command name" "protocol error; command name must be a string"

/-- The error for an upper-cased name that is no command's. -/
def unknownCommand (name : String) : String := "ERR unknown command '" ++ name ++ "'"

/-- The error for a request that is no array, with the frame as `{:?}` writes it. -/
def expectedArray (found : String) : String := "protocol error; expected array, got " ++ found

/-- `Command::from_frame` -/
def fromFrame [Unicode] (now : Instant) : Frame → Outcome String Command
  | .array [] => .err "protocol error; empty command array"
  | .array (f :: args) => do
    let name ← nameArg f
    let name := toUppercase name
    match (parsers now).lookup name with
    | some parse => parse args
    | none => .err (unknownCommand name)
  | .simple s => .err (expectedArray ("Simple(" ++ debugString s ++ ")"))
  | .error s => .err (expectedArray ("Error(" ++ debugString s ++ ")"))
  | .integer i => .err (expectedArray ("Integer(" ++ i64ToString i ++ ")"))
  | .bulk b => .err (expectedArray ("Bulk(" ++ debugBytes b ++ ")"))
  | .null => .err (expectedArray "Null")

/-- `is_write`: the commands the append-only file records. -/
def isWrite : Command → Bool
  | .set _ | .del _ | .expire _ => true
  | .list (.lpush _ _) | .list (.rpush _ _) | .list (.lpop _) | .list (.rpop _) => true
  | .hash (.hset _ _) | .hash (.hdel _ _) => true
  | .setCmd (.sadd _ _) | .setCmd (.srem _ _) => true
  | _ => false

end Command

end InMemoryCache
