-- SUMMARY: Replies fit their frames: where a line terminator in a reply can come from.
import InMemoryCache.Cmd.Effect
import InMemoryCache.Wire.RoundTrip

/-!
# Replies

An error or a status travels in a line-delimited frame, which a line terminator in its
text would split. The texts the parsers answer are plain, what a command answers is clean
in any state of the store, and only the error for an unknown command repeats bytes of the
request as they are.
-/

namespace InMemoryCache

open Lib Outcome Cmd

/-- A text without carriage returns. -/
def Plain (s : String) : Prop := '\r' ∉ s.toList

instance (s : String) : Decidable (Plain s) :=
  decidable_of_iff (s.toList.all (fun c => !(c == '\r')) = true) (by
    rw [Plain, List.all_eq_true]
    constructor
    · intro h hmem
      exact absurd (h _ hmem) (by decide)
    · intro h c hc
      rw [Bool.not_eq_true', beq_eq_false_iff_ne]
      exact ne_of_mem_of_not_mem hc h)

theorem Plain.append {s t : String} (hs : Plain s) (ht : Plain t) : Plain (s ++ t) := by
  rw [Plain, String.toList_append, List.mem_append, not_or]
  exact ⟨hs, ht⟩

theorem Plain.no_crlf {s : String} (h : Plain s) : ¬ crlf <:+: asBytes s := by
  rw [crlf_infix_asBytes]
  exact not_crlf_of_not_mem h

/-! ## Error texts of the argument readers -/

namespace Cmd

variable {err invalid other cmd : String}

theorem plain_wrongArgs (h : Plain cmd) : Plain (wrongArgs cmd) :=
  (Plain.append (by decide) h).append (by decide)

theorem plain_invalidArg (h : Plain cmd) : Plain (invalidArg cmd) :=
  (Plain.append (by decide) h).append (by decide)

theorem plain_syntaxErr : Plain syntaxErr := by decide

theorem plain_notAnInteger : Plain notAnInteger := by decide

theorem answers_bytesArg (h : Plain err) (f : Option Frame) : (bytesArg err f).Answers Plain := by
  rw [bytesArg.eq_def]
  split
  · exact answers_ok _
  · exact answers_ok _
  · exact answers_err h

theorem answers_bytesArgs (h : Plain err) (args : List Frame) : (bytesArgs err args).Answers Plain := by
  induction args with
  | nil => exact answers_ok _
  | cons f args ih => exact (answers_bytesArg h _).bind fun _ => ih.bind fun _ => answers_ok _

theorem answers_textArg (hi : Plain invalid) (ho : Plain other) (f : Frame) :
    (textArg invalid other f).Answers Plain := by
  rw [textArg.eq_def]
  split
  · split
    · exact answers_ok _
    · exact answers_err hi
  · exact answers_ok _
  · exact answers_err ho

theorem answers_numberArg (hi : Plain invalid) (ho : Plain other) (f : Frame) :
    (numberArg invalid other f).Answers Plain := by
  rw [numberArg.eq_def]
  split
  · exact answers_ok _
  · exact answers_textArg hi ho f

theorem answers_nextArg (h : Plain err) (args : List Frame) : (nextArg err args).Answers Plain := by
  cases args with
  | nil => exact answers_err h
  | cons f args => exact answers_ok _

theorem answers_noMoreArgs (h : Plain err) (args : List Frame) : (noMoreArgs err args).Answers Plain := by
  cases args with
  | nil => exact answers_ok _
  | cons f args => exact answers_err h

theorem answers_nonEmpty (h : Plain err) (items : List α) : (nonEmpty err items).Answers Plain := by
  rw [nonEmpty]
  split
  · exact answers_err h
  · exact answers_ok _

theorem answers_parsed (h : Plain err) (x : Option α) : (parsed err x).Answers Plain := by
  cases x with
  | none => exact answers_err h
  | some a => exact answers_ok _

theorem answers_messageArg (h : Plain cmd) (f : Frame) (args : List Frame) :
    (messageArg cmd f args).Answers Plain := by
  rw [messageArg.eq_def]
  split
  · exact (answers_noMoreArgs (plain_wrongArgs h) args).bind fun _ => answers_ok _
  · exact (answers_noMoreArgs (plain_wrongArgs h) args).bind fun _ => answers_ok _
  · exact answers_err (plain_invalidArg h)

theorem answers_keyOnly (h : Plain err) (args : List Frame) : (keyOnly err args).Answers Plain :=
  (answers_bytesArg h _).bind fun _ => (answers_noMoreArgs h _).bind fun _ => answers_ok _

theorem answers_keyAndArg (h : Plain err) (args : List Frame) : (keyAndArg err args).Answers Plain :=
  (answers_bytesArg h _).bind fun _ => (answers_bytesArg h _).bind fun _ =>
    (answers_noMoreArgs h _).bind fun _ => answers_ok _

theorem answers_keyAndArgs (h : Plain err) (args : List Frame) : (keyAndArgs err args).Answers Plain :=
  (answers_bytesArg h _).bind fun _ => (answers_bytesArgs plain_syntaxErr _).bind fun _ =>
    (answers_nonEmpty h _).bind fun _ => answers_ok _

/-! ## Error texts of the parsers -/

theorem answers_ping (args : List Frame) : (Ping.parseFrames args).Answers Plain := by
  cases args with
  | nil => exact answers_ok _
  | cons f args => exact (answers_messageArg (by decide) f args).bind fun _ => answers_ok _

theorem answers_echo (args : List Frame) : (Echo.parseFrames args).Answers Plain := by
  cases args with
  | nil => exact answers_err (plain_wrongArgs (by decide))
  | cons f args => exact (answers_messageArg (by decide) f args).bind fun _ => answers_ok _

theorem answers_setOptions [Unicode] (duration : Option Duration) (args : List Frame) :
    (setOptions duration args).Answers Plain := by
  induction duration, args using setOptions.induct with
  | case1 duration => exact answers_ok _
  | case2 duration f =>
    exact (answers_textArg plain_syntaxErr plain_syntaxErr f).bind fun _ => answers_err plain_syntaxErr
  | case3 duration f g args ihsecs ihms =>
    refine (answers_textArg plain_syntaxErr plain_syntaxErr f).bind fun opt => ?_
    dsimp only
    split
    · exact (answers_numberArg plain_notAnInteger plain_syntaxErr g).bind fun _ =>
        (answers_parsed plain_notAnInteger _).bind fun secs => ihsecs secs
    · split
      · exact (answers_numberArg plain_notAnInteger plain_syntaxErr g).bind fun _ =>
          (answers_parsed plain_notAnInteger _).bind fun ms => ihms ms
      · exact answers_err plain_syntaxErr

theorem errs_deadline (now : Instant) (duration : Option Duration) :
    (deadline now duration).Errs Plain := by
  cases duration with
  | none => exact errs_ok _
  | some d => exact (errs_ofChecked _).bind fun _ => errs_ok _

theorem answers_setRequest [Unicode] (args : List Frame) :
    (Command.setRequest args).Answers Plain := by
  have hset : Plain (wrongArgs "set") := plain_wrongArgs (by decide)
  exact (answers_bytesArg hset _).bind fun _ => (answers_bytesArg hset _).bind fun _ =>
    (answers_setOptions none _).bind fun _ => answers_ok _

theorem answers_del (args : List Frame) : (Del.parseFrames args).Answers Plain :=
  (answers_bytesArgs (plain_invalidArg (by decide)) args).bind fun _ =>
    (answers_nonEmpty (plain_wrongArgs (by decide)) _).bind fun _ => answers_ok _

theorem answers_expire (h : Plain cmd) (unit : Nat → Duration) (args : List Frame) :
    (Expire.parseIn cmd unit args).Answers Plain :=
  (answers_bytesArg (plain_wrongArgs h) _).bind fun _ =>
    (answers_nextArg (plain_wrongArgs h) _).bind fun _ =>
      (answers_numberArg plain_notAnInteger plain_notAnInteger _).bind fun _ =>
        (answers_parsed plain_notAnInteger _).bind fun _ =>
          (answers_noMoreArgs plain_syntaxErr _).bind fun _ => answers_ok _

theorem answers_ttl (millis : Bool) (args : List Frame) : (Ttl.parseFrames millis args).Answers Plain :=
  (answers_keyOnly (by decide) args).bind fun _ => answers_ok _

theorem answers_index (f : Option Frame) : (ListCmd.indexArg f).Answers Plain := by
  cases f with
  | none => exact answers_err (plain_wrongArgs (by decide))
  | some f =>
    exact (answers_numberArg (by decide) (plain_wrongArgs (by decide)) f).bind fun _ =>
      answers_parsed plain_notAnInteger _

theorem answers_lrange (args : List Frame) : (ListCmd.parseLrange args).Answers Plain :=
  (answers_bytesArg (plain_wrongArgs (by decide)) _).bind fun _ => (answers_index _).bind fun _ =>
    (answers_index _).bind fun _ =>
      (answers_noMoreArgs (plain_wrongArgs (by decide)) _).bind fun _ => answers_ok _

theorem answers_fieldArgs (args : List Frame) : (HashCmd.fieldArgs args).Answers Plain := by
  induction args using HashCmd.fieldArgs.induct with
  | case1 => exact answers_ok _
  | case2 f =>
    exact (answers_bytesArg plain_syntaxErr _).bind fun _ => answers_err (plain_wrongArgs (by decide))
  | case3 f g args ih =>
    exact (answers_bytesArg plain_syntaxErr _).bind fun _ =>
      (answers_bytesArg plain_syntaxErr _).bind fun _ => ih.bind fun _ => answers_ok _

theorem answers_hset (args : List Frame) : (HashCmd.parseHset args).Answers Plain :=
  (answers_bytesArg (plain_wrongArgs (by decide)) _).bind fun _ => (answers_fieldArgs _).bind fun _ =>
    (answers_nonEmpty (plain_wrongArgs (by decide)) _).bind fun _ => answers_ok _

theorem answers_channelArg (h : Plain other) (f : Option Frame) :
    (PubSubCmd.channelArg other f).Answers Plain := by
  cases f with
  | none => exact answers_err h
  | some f => exact answers_textArg (by decide) h f

theorem answers_publish (args : List Frame) : (PubSubCmd.parsePublish args).Answers Plain := by
  have hpublish : Plain (wrongArgs "publish") := plain_wrongArgs (by decide)
  exact (answers_channelArg hpublish _).bind fun _ => (answers_bytesArg hpublish _).bind fun _ =>
    (answers_noMoreArgs hpublish _).bind fun _ => answers_ok _

theorem answers_channelArgs (args : List Frame) : (PubSubCmd.channelArgs args).Answers Plain := by
  induction args with
  | nil => exact answers_ok _
  | cons f args ih => exact (answers_channelArg plain_syntaxErr _).bind fun _ => ih.bind fun _ => answers_ok _

theorem answers_subscribe (args : List Frame) : (PubSubCmd.parseSubscribe args).Answers Plain :=
  (answers_channelArgs args).bind fun _ =>
    (answers_nonEmpty (plain_wrongArgs (by decide)) _).bind fun _ => answers_ok _

theorem answers_keys (args : List Frame) : (Keys.parseFrames args).Answers Plain :=
  (answers_nextArg (plain_wrongArgs (by decide)) args).bind fun _ =>
    (answers_noMoreArgs (plain_wrongArgs (by decide)) _).bind fun _ =>
      (answers_bytesArg (plain_invalidArg (by decide)) _).bind fun _ => answers_ok _

theorem plain_invalidCursor : Plain Scan.invalidCursor := by decide

theorem answers_cursorArg (f : Frame) : (Scan.cursorArg f).Answers Plain := by
  rw [Scan.cursorArg.eq_def]
  split
  · split
    · exact answers_err plain_invalidCursor
    · exact answers_parsed plain_invalidCursor _
  · exact (answers_textArg plain_invalidCursor plain_invalidCursor _).bind fun _ =>
      answers_parsed plain_invalidCursor _

theorem answers_countArg (f : Frame) : (Scan.countArg f).Answers Plain := by
  rw [Scan.countArg.eq_def]
  split
  · split
    · exact answers_err plain_notAnInteger
    · exact answers_ok _
  · exact (answers_textArg plain_notAnInteger plain_notAnInteger _).bind fun _ =>
      answers_parsed plain_notAnInteger _

theorem answers_scanOptions [Unicode] (scan : Scan) (args : List Frame) :
    (Scan.options scan args).Answers Plain := by
  induction scan, args using Scan.options.induct with
  | case1 scan => exact answers_ok _
  | case2 scan f =>
    exact (answers_textArg plain_syntaxErr plain_syntaxErr f).bind fun _ => answers_err plain_syntaxErr
  | case3 scan f g args ihpattern ihcount ihtype =>
    refine (answers_textArg plain_syntaxErr plain_syntaxErr f).bind fun opt => ?_
    dsimp only
    split
    · exact (answers_bytesArg plain_syntaxErr _).bind fun pattern => ihpattern pattern
    · split
      · exact (answers_countArg g).bind fun count => ihcount count
      · split
        · exact (answers_textArg plain_syntaxErr plain_syntaxErr g).bind fun t => ihtype t
        · exact answers_err plain_syntaxErr

theorem answers_scan [Unicode] (args : List Frame) : (Scan.parseFrames args).Answers Plain :=
  (answers_nextArg (plain_wrongArgs (by decide)) args).bind fun _ =>
    (answers_cursorArg _).bind fun _ => answers_scanOptions _ _

end Cmd

namespace Command

/-- The errors of a command's parser are plain, and only the deadline of `SET` can panic. -/
def Careful (e : String × (List Frame → Outcome String Command)) : Prop :=
  ∀ args, (e.2 args).Errs Plain ∧ (e.1 ≠ "SET" → e.2 args ≠ .panic)

theorem careful_of_answers {name : String} {parse : List Frame → Outcome String Command}
    (h : ∀ args, (parse args).Answers Plain) : Careful (name, parse) :=
  fun args => ⟨(h args).2, fun _ => (h args).1⟩

theorem careful_wrap {name : String} {k : α → Command} {parse : List Frame → Outcome String α}
    (h : ∀ args, (parse args).Answers Plain) : Careful (name, wrap k parse) :=
  careful_of_answers fun args => (h args).bind fun _ => answers_ok _

theorem careful_set [Unicode] (now : Instant) : Careful ("SET", wrap .set (Set.parseFrames now)) := by
  intro args
  refine ⟨?_, fun h => absurd rfl h⟩
  show (wrap .set (Set.parseFrames now) args).Errs Plain
  rw [parseFrames_set]
  refine (answers_setRequest args).2.bind fun r => ?_
  cases r with
  | plain cmd => exact errs_ok _
  | set key value duration => exact (errs_deadline now duration).bind fun _ => errs_ok _

/-- A parser that reads a key and more, and wraps it. -/
theorem answers_map {parse : List Frame → Outcome String α} {k : α → β}
    (h : ∀ args, (parse args).Answers Plain) (args : List Frame) :
    (parse args >>= fun a => pure (k a)).Answers Plain :=
  (h args).bind fun _ => answers_ok _

theorem careful_parsers [Unicode] (now : Instant) : ∀ e ∈ parsers now, Careful e := by
  have hkey : ∀ {cmd : String}, Plain cmd → ∀ args, (keyOnly (wrongArgs cmd) args).Answers Plain :=
    fun h args => answers_keyOnly (plain_wrongArgs h) args
  have harg : ∀ {cmd : String}, Plain cmd →
      ∀ args, (keyAndArg (wrongArgs cmd) args).Answers Plain :=
    fun h args => answers_keyAndArg (plain_wrongArgs h) args
  have hargs : ∀ {cmd : String}, Plain cmd →
      ∀ args, (keyAndArgs (wrongArgs cmd) args).Answers Plain :=
    fun h args => answers_keyAndArgs (plain_wrongArgs h) args
  simp only [parsers, List.forall_mem_cons, List.not_mem_nil, IsEmpty.forall_iff, implies_true,
    and_true]
  exact ⟨careful_wrap answers_ping, careful_wrap answers_echo,
    careful_wrap (answers_map (hkey (by decide))), careful_set now, careful_wrap answers_del,
    careful_wrap (answers_expire (by decide) _), careful_wrap (answers_expire (by decide) _),
    careful_wrap (answers_ttl _), careful_wrap (answers_ttl _),
    careful_wrap (answers_map (hargs (by decide))), careful_wrap (answers_map (hargs (by decide))),
    careful_wrap (answers_map (hkey (by decide))), careful_wrap (answers_map (hkey (by decide))),
    careful_wrap answers_lrange, careful_wrap answers_hset,
    careful_wrap (answers_map (harg (by decide))), careful_wrap (answers_map (hargs (by decide))),
    careful_wrap (answers_map (hkey (by decide))), careful_wrap (answers_map (hargs (by decide))),
    careful_wrap (answers_map (hkey (by decide))), careful_wrap (answers_map (hargs (by decide))),
    careful_wrap (answers_map (harg (by decide))), careful_wrap answers_publish,
    careful_wrap answers_subscribe, careful_wrap answers_keys, careful_wrap answers_scan,
    careful_of_answers fun _ => answers_ok _, careful_of_answers fun _ => answers_ok _,
    careful_of_answers fun _ => answers_ok _⟩

/-! ## The errors of from_frame -/

theorem plain_i64ToString (i : Int64) : Plain (i64ToString i) := by
  rw [i64ToString]
  split
  · simp [Plain, not_crlf_digits]
  · simp [Plain, usizeToString, not_crlf_digits]

theorem plain_expectedArray {found : String} (h : Plain found) : Plain (expectedArray found) :=
  Plain.append (by decide) h

theorem asBytes_unknownCommand (name : String) :
    asBytes (unknownCommand name) =
      asBytes "ERR unknown command '" ++ (asBytes name ++ asBytes "'") := by
  rw [← asBytes_append name "'", ← asBytes_append "ERR unknown command '" (name ++ "'"),
    ← String.append_assoc]
  rfl

/-- The error for an unknown command repeats the line terminators of its name. -/
theorem infix_unknownCommand (name : String) :
    crlf <:+: asBytes (unknownCommand name) ↔ crlf <:+: asBytes name := by
  have hquote : CR ∉ asBytes "ERR unknown command '" := by decide
  have hend : LF ∉ asBytes "'" := by decide
  rw [asBytes_unknownCommand, crlf, pair_infix_append hquote, pair_infix_append_right hend]

variable [Unicode]

/-- The text a request gives as its command's name. -/
def requestName : Frame → Option String
  | .array (f :: _) =>
    match nameArg f with
    | .ok name => some name
    | _ => none
  | _ => none

/-- No command has a line terminator in its name. -/
theorem lookup_eq_none {name : String} (h : crlf <:+: asBytes name) (now : Instant) :
    (parsers now).lookup name = none := by
  have hplain : ∀ e ∈ parsers now, Plain e.1 := by
    simp only [parsers, List.forall_mem_cons, List.not_mem_nil, IsEmpty.forall_iff, implies_true,
      and_true]
    and_intros <;> decide
  cases hlookup : (parsers now).lookup name with
  | none => rfl
  | some parse => exact absurd h (hplain _ (mem_of_lookup hlookup)).no_crlf

/-- A request with a line terminator in its name is answered with one in the error. -/
theorem fromFrame_of_crlf {f : Frame} {name : String} (hname : requestName f = some name)
    (h : crlf <:+: asBytes name) (now : Instant) :
    ∃ e, fromFrame now f = .err e ∧ crlf <:+: asBytes e := by
  have hupper : crlf <:+: asBytes (toUppercase name) := (crlf_infix_toUppercase name).mpr h
  cases f with
  | array fs =>
    cases fs with
    | nil => cases hname
    | cons g args =>
      rw [requestName] at hname
      split at hname
      · rename_i name' hg
        cases hname
        refine ⟨unknownCommand (toUppercase name), ?_, ?_⟩
        · rw [fromFrame_cons hg, lookup_eq_none hupper]
        · exact (infix_unknownCommand _).mpr hupper
      · cases hname
  | _ => cases hname

/-- Every other error fits a line. -/
theorem errs_fromFrame {f : Frame}
    (h : ∀ name, requestName f = some name → ¬ crlf <:+: asBytes name) (now : Instant) :
    (fromFrame now f).Errs fun e => ¬ crlf <:+: asBytes e := by
  have hplain : ∀ {e : String}, Plain e →
      (Outcome.err e : Outcome String Command).Errs fun e => ¬ crlf <:+: asBytes e := fun he =>
    errs_err he.no_crlf
  have htext : ∀ {s t : String}, Plain s → Plain t → Plain (s ++ t ++ ")") := fun hs ht =>
    (hs.append ht).append (by decide)
  cases f with
  | array fs =>
    cases fs with
    | nil => exact hplain (by decide)
    | cons g args =>
      cases hg : nameArg g with
      | err e =>
        rw [fromFrame, hg]
        exact hplain ((answers_textArg (by decide) (by decide) g).2 e hg)
      | panic =>
        rw [fromFrame, hg]
        intro e he
        cases he
      | ok name =>
        have hname := h name (by rw [requestName, hg])
        rw [fromFrame_cons hg]
        cases hlookup : (parsers now).lookup (toUppercase name) with
        | some parse =>
          intro e he
          exact ((careful_parsers now _ (mem_of_lookup hlookup) args).1 e he).no_crlf
        | none =>
          refine errs_err ?_
          rwa [infix_unknownCommand, crlf_infix_toUppercase]
  | simple s => exact hplain (plain_expectedArray (htext (by decide) (not_mem_debugString s)))
  | error s => exact hplain (plain_expectedArray (htext (by decide) (not_mem_debugString s)))
  | integer i => exact hplain (plain_expectedArray (htext (by decide) (plain_i64ToString i)))
  | bulk b => exact hplain (plain_expectedArray (htext (by decide) (not_mem_debugBytes b)))
  | null => exact hplain (plain_expectedArray (by decide))

end Command

/-! ## The replies of commands -/

/-- The only error of a store method is the one for a wrong type. -/
def WrongType (x : Except String α) : Prop := ∀ e, x = .error e → e = wrongTypeErr

def Answer.WrongType : Answer → Prop
  | .value r => InMemoryCache.WrongType r
  | .count r => InMemoryCache.WrongType r
  | .items r | .members r => InMemoryCache.WrongType r
  | .pairs r => InMemoryCache.WrongType r
  | .found r => InMemoryCache.WrongType r
  | _ => True

theorem wrongType_ok (a : α) : WrongType (.ok a) := by
  intro e h
  cases h

theorem wrongType_error : WrongType (.error wrongTypeErr : Except String α) := by
  intro e h
  cases h
  rfl

theorem wrongType_inspect {absent : ρ} {read : DataType → Option (ρ × Bool)} (s : Option Item) :
    WrongType (Item.inspect absent read s).1 := by
  cases s with
  | none => exact wrongType_ok _
  | some it =>
    rw [Item.inspect]
    split
    · exact wrongType_ok _
    · exact wrongType_error

theorem wrongType_create {empty : DataType} {edit : DataType → Option (Edit Nat)}
    (s : Option Item) : WrongType (Item.create empty edit s).1 := by
  rw [Item.create]
  split
  · exact wrongType_ok _
  · exact wrongType_error

theorem wrongType_shrink {absent : ρ} {edit : DataType → Option (Edit ρ)} (s : Option Item) :
    WrongType (Item.shrink absent edit s).1 := by
  cases s with
  | none => exact wrongType_ok _
  | some it =>
    rw [Item.shrink]
    split
    · exact wrongType_ok _
    · exact wrongType_error

theorem KeyOp.wrongType_onItem (op : KeyOp) (now : Instant) (s : Option Item) :
    (op.onItem now s).1.WrongType := by
  cases op with
  | get => exact wrongType_inspect s
  | lrange start stop => exact wrongType_inspect s
  | hget field => exact wrongType_inspect s
  | hgetall => exact wrongType_inspect s
  | smembers => exact wrongType_inspect s
  | sismember member => exact wrongType_inspect s
  | lpush elements => exact wrongType_create s
  | rpush elements => exact wrongType_create s
  | hset fields => exact wrongType_create s
  | sadd members => exact wrongType_create s
  | lpop => exact wrongType_shrink s
  | rpop => exact wrongType_shrink s
  | hdel fields => exact wrongType_shrink s
  | srem members => exact wrongType_shrink s
  | set value expiresAt => trivial
  | expire duration => trivial
  | ttl => trivial
  | pttl => trivial

variable {cfg : Config}

/-- The code's answers carry no other error, because their meanings carry none. -/
theorem Db.wrongType_performKey (db : Db cfg) (key : Bytes) (env : Env) (op : KeyOp) :
    (db.performKey key env op).1.WrongType := by
  rw [performKey_eq]
  have h := (op.onCell_refines key env.clock
    ((db.reserved key env op).cellAt (getShardIndex cfg key) key)).result
  exact h ▸ op.wrongType_onItem _ _

namespace Frame

theorem clean_ofResult {k : α → Frame} {x : Except String α} (hk : ∀ a, (k a).Clean)
    (hx : WrongType x) : (ofResult k x).Clean := by
  cases x with
  | ok a => exact hk a
  | error e =>
    have hplain : Plain wrongTypeErr := by decide
    rw [hx e rfl]
    exact hplain.no_crlf

theorem clean_ofValue (v : Option Bytes) : (ofValue v).Clean := by
  cases v <;> trivial

theorem clean_ofBulks (bs : List Bytes) : (ofBulks bs).Clean := by
  rw [ofBulks, Clean, cleanAll_iff]
  intro f hf
  obtain ⟨b, -, rfl⟩ := List.mem_map.mp hf
  trivial

theorem clean_ofPairs (pairs : List (Bytes × Bytes)) : (ofPairs pairs).Clean := by
  rw [ofPairs, Clean, cleanAll_iff]
  intro f hf
  obtain ⟨kv, -, hf⟩ := List.mem_flatMap.mp hf
  rcases List.mem_pair.mp hf with rfl | rfl <;> trivial

theorem clean_simple {s : String} (h : Plain s) : (Frame.simple s).Clean := h.no_crlf

theorem clean_error {s : String} (h : Plain s) : (Frame.error s).Clean := h.no_crlf

end Frame

open InMemoryCache.Frame

namespace Cmd

theorem ListCmd.clean_apply (env : Env) (db : Db cfg) (cmd : ListCmd) :
    (cmd.apply env db).1.Clean := by
  have herr := fun key op => db.wrongType_performKey key env op
  cases cmd with
  | lpush key els => exact clean_ofResult (fun _ => trivial) (herr key (.lpush els))
  | rpush key els => exact clean_ofResult (fun _ => trivial) (herr key (.rpush els))
  | lpop key => exact clean_ofResult clean_ofValue (herr key .lpop)
  | rpop key => exact clean_ofResult clean_ofValue (herr key .rpop)
  | lrange key start stop => exact clean_ofResult clean_ofBulks (herr key (.lrange start stop))

theorem HashCmd.clean_apply (env : Env) (db : Db cfg) (cmd : HashCmd) :
    (cmd.apply env db).1.Clean := by
  have herr := fun key op => db.wrongType_performKey key env op
  cases cmd with
  | hset key fields => exact clean_ofResult (fun _ => trivial) (herr key (.hset fields))
  | hget key field => exact clean_ofResult clean_ofValue (herr key (.hget field))
  | hdel key fields => exact clean_ofResult (fun _ => trivial) (herr key (.hdel fields))
  | hgetall key => exact clean_ofResult clean_ofPairs (herr key .hgetall)

theorem SetCmd.clean_apply (env : Env) (db : Db cfg) (cmd : SetCmd) :
    (cmd.apply env db).1.Clean := by
  have herr := fun key op => db.wrongType_performKey key env op
  cases cmd with
  | sadd key members => exact clean_ofResult (fun _ => trivial) (herr key (.sadd members))
  | smembers key => exact clean_ofResult clean_ofBulks (herr key .smembers)
  | srem key members => exact clean_ofResult (fun _ => trivial) (herr key (.srem members))
  | sismember key member => exact clean_ofResult (fun _ => trivial) (herr key (.sismember member))

end Cmd

namespace Command

/-- Whatever the request and the store hold, a command's reply is clean. -/
theorem clean_apply {cmd : Command} {ctx : Ctx} {db : Db cfg} {r : Frame}
    (h : (cmd.apply ctx db).1 = some r) : r.Clean := by
  cases cmd with
  | ping cmd =>
    cases h
    rw [Ping.apply]
    split
    · trivial
    · exact clean_simple (by decide)
  | echo cmd => cases h; trivial
  | get cmd =>
    cases h
    exact clean_ofResult clean_ofValue (db.wrongType_performKey cmd.key ctx.toEnv .get)
  | set cmd => cases h; exact clean_simple (by decide)
  | del cmd => cases h; trivial
  | expire cmd =>
    obtain ⟨b, -, rfl⟩ := Option.map_eq_some_iff.mp h
    trivial
  | ttl cmd => cases h; trivial
  | list cmd => cases h; exact cmd.clean_apply ctx.toEnv db
  | hash cmd => cases h; exact cmd.clean_apply ctx.toEnv db
  | setCmd cmd => cases h; exact cmd.clean_apply ctx.toEnv db
  | pubSub cmd => cases h; exact clean_error (by decide)
  | keys cmd => cases h; exact clean_ofBulks _
  | scan cmd => cases h; exact ⟨trivial, clean_ofBulks _, trivial⟩
  | command => cases h; trivial
  | info => cases h; trivial
  | client => cases h; exact clean_simple (by decide)

theorem clean_applyWithPubsub {cmd : Command} {ctx : Ctx} {db : Db cfg} {pubsub : PubSub}
    {r : Frame} (h : (cmd.applyWithPubsub ctx db pubsub).1 = some r) : r.Clean := by
  cases cmd with
  | pubSub cmd =>
    cases cmd with
    | publish channel message => cases h; trivial
    | subscribe channels => cases h; exact clean_error (by decide)
  | _ =>
    rw [applyWithPubsub_eq (by simp)] at h
    exact clean_apply h

end Command

end InMemoryCache
