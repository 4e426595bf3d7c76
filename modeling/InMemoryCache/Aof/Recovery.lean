-- SUMMARY: What a restart reads back: framing, torn tails, and records appended after one.
import InMemoryCache.Aof.Load
import InMemoryCache.Cmd.Effect
import InMemoryCache.Wire.Connection
import InMemoryCache.Wire.RoundTrip

/-!
# Recovery

The frames of a stream do not depend on how it arrives. A file of whole records with a
torn last one loads as its whole records. A restart appends to the file as it is, so
what it adds is read back exactly when there was no torn tail to append to.
-/

namespace InMemoryCache

open Lib Reader

/-! ## Framing -/

/-- However the stream is cut into reads, `read_frame` returns the same frames and ends
the same way, and they are the frames of a file with those bytes. An answer of the
check on a prefix stands for every extension. -/
theorem framing_stable (chunks : List Bytes) :
    Connection.readAll [] chunks = Connection.readAll [] [chunks.flatten] ∧
      (Connection.readAll [] chunks).1 = (Aof.frames chunks.flatten).1 ∧
      (∀ s rest t, Frame.check s = .ok ((), rest) → Frame.check (s ++ t) = .ok ((), rest ++ t)) ∧
      ∀ s e t, Frame.check s = .error (.other e) → Frame.check (s ++ t) = .error (.other e) := by
  refine ⟨?_, ?_, fun s rest t h => Frame.reads_check.extend t h, fun s e t h =>
    Frame.reads_check.reject t h⟩
  · simp only [Connection.readAll_eq_drain, List.flatten_singleton]
  · rw [Connection.readAll_eq_drain, Aof.frames_eq_drain, List.nil_append]

namespace Aof

/-! ## Replaying a run of records -/

section Replay

variable [Unicode] {cfg : Config}

/-- The commands a run of records holds, each with the environment it is executed in. -/
def commandsFrom (ctx : Nat → Ctx) (n : Nat) : List Frame → List (Ctx × Command)
  | [] => []
  | f :: fs =>
    match Command.fromFrame (ctx n).clock.now f with
    | .ok cmd => (ctx n, cmd) :: commandsFrom ctx (n + 1) fs
    | _ => commandsFrom ctx (n + 1) fs

def commands (ctx : Nat → Ctx) (fs : List Frame) : List (Ctx × Command) := commandsFrom ctx 0 fs

/-- Execute commands one after the other. -/
def applyAll (db : Db cfg) : List (Ctx × Command) → Db cfg
  | [] => db
  | (ctx, cmd) :: cmds => applyAll (cmd.apply ctx db).2 cmds

/-- The expiry arguments of a record do not overflow the clock at `now`. -/
def Fits (now : Instant) (f : Frame) : Prop :=
  Command.fromFrame now f ≠ .panic ∧ ∀ key duration,
    Command.fromFrame now f = .ok (.expire { key := key, duration := duration }) →
      Instant.add now duration ≠ none

theorem fits_of_ok {now : Instant} {f : Frame} {cmd : Command}
    (h : Command.fromFrame now f = .ok cmd) (hexpire : ∀ c, cmd ≠ .expire c) : Fits now f := by
  refine ⟨by rw [h]; simp, fun key duration hcmd => ?_⟩
  rw [h, Outcome.ok.injEq] at hcmd
  exact absurd hcmd (hexpire _)

theorem replayFrom_eq (ctx : Nat → Ctx) (n count : Nat) (fs : List Frame) (db : Db cfg)
    (h : ∀ n, ∀ f ∈ fs, Fits (ctx n).clock.now f) :
    replayFrom ctx n count fs db =
      (.ok (count + (commandsFrom ctx n fs).length), applyAll db (commandsFrom ctx n fs)) := by
  induction fs generalizing n count db with
  | nil => rfl
  | cons f fs ih =>
    have hrest : ∀ n, ∀ g ∈ fs, Fits (ctx n).clock.now g := fun n g hg =>
      h n g (List.mem_cons_of_mem f hg)
    obtain ⟨hpanic, hexpire⟩ := h n f List.mem_cons_self
    rw [replayFrom, commandsFrom]
    cases hcmd : Command.fromFrame (ctx n).clock.now f with
    | ok cmd =>
      dsimp only
      cases happly : cmd.apply (ctx n) db with
      | mk reply db' =>
        cases reply with
        | some r =>
          dsimp only
          rw [ih (n + 1) (count + 1) db' hrest, applyAll, happly, List.length_cons]
          simp only [Prod.mk.injEq, Outcome.ok.injEq, and_true]
          omega
        | none =>
          obtain ⟨key, duration, rfl, hover⟩ := Command.apply_eq_none (congrArg Prod.fst happly)
          exact absurd hover (hexpire key duration hcmd)
    | err e => exact ih (n + 1) count db hrest
    | panic => exact absurd hcmd hpanic

/-- Replay never fails on records whose expiries fit; it applies their commands. -/
theorem replay_eq (ctx : Nat → Ctx) (fs : List Frame) (db : Db cfg)
    (h : ∀ n, ∀ f ∈ fs, Fits (ctx n).clock.now f) :
    replay ctx fs db = (.ok (commands ctx fs).length, applyAll db (commands ctx fs)) := by
  rw [replay, replayFrom_eq ctx 0 0 fs db h, Nat.zero_add]
  rfl

end Replay

/-! ## Torn tails -/

/-- A frame the encoder writes faithfully, in a buffer of fewer than `2^63` bytes. -/
def Encodable (f : Frame) : Prop := f.Clean ∧ (record f).length < 2 ^ 63

theorem decodes_record {f : Frame} (h : Encodable f) : Frame.decoder.Decodes record f :=
  Frame.decodes_writeToBuf h.1 h.2

/-- The first `n` bytes of a file of records yield the records that lie wholly in them. -/
theorem frames_take {cs : List Frame} (h : ∀ c ∈ cs, Encodable c) (n : Nat) :
    frames ((cs.flatMap record).take n) = (Decoder.wholly record cs n, none) := by
  obtain ⟨tail, hdrain⟩ := Decoder.drain_take (fun c hc => decodes_record (h c hc)) n
  have hfirst := frames_eq_drain ((cs.flatMap record).take n)
  have hsecond := frames_starved (congrArg Prod.snd hdrain)
  rw [hdrain] at hfirst
  exact Prod.ext hfirst hsecond

theorem frames_flatMap {cs : List Frame} (h : ∀ c ∈ cs, Encodable c) :
    frames (cs.flatMap record) = (cs, none) := by
  have hdrain := Decoder.drain_flatMap_append (fun c hc => decodes_record (h c hc)) []
  rw [List.append_nil, Frame.decoder.drain_nil, List.append_nil] at hdrain
  have hfirst := frames_eq_drain (cs.flatMap record)
  have hsecond := frames_starved (congrArg Prod.snd hdrain)
  rw [hdrain] at hfirst
  exact Prod.ext hfirst hsecond

/-- A request as it is read off a socket: an array the parser returned, in a buffer of
fewer than `2^63` bytes. -/
structure Received (c : Frame) : Prop where
  parsed : ∃ s rest, Frame.parse s = .ok (c, rest)
  array : ∃ fs, c = .array fs
  length_lt : (record c).length < 2 ^ 63

theorem Received.encodable {c : Frame} (h : Received c) : Encodable c :=
  have ⟨_, _, hparse⟩ := h.parsed
  ⟨Frame.clean_of_parse hparse, h.length_lt⟩

theorem received_of_clean {fs : List Frame} (hclean : (Frame.array fs).Clean)
    (hlen : (record (.array fs)).length < 2 ^ 63) : Received (.array fs) where
  parsed := ⟨record (.array fs), [], by
    have hparse := Frame.parse_writeToBuf hclean hlen []
    rwa [List.append_nil] at hparse⟩
  array := ⟨fs, rfl⟩
  length_lt := hlen

/-- Loading a file cut anywhere applies exactly the commands of the records that lie
wholly before the cut. -/
theorem load_torn [Unicode] {cfg : Config} (ctx : Nat → Ctx) (db : Db cfg) (cs : List Frame)
    (n : Nat) (hcs : ∀ c ∈ cs, Received c) (hfits : ∀ i, ∀ c ∈ cs, Fits (ctx i).clock.now c) :
    load ctx ((cs.flatMap record).take n) db =
      (.ok (commands ctx (Decoder.wholly record cs n)).length,
        applyAll db (commands ctx (Decoder.wholly record cs n))) := by
  have hencodable : ∀ c ∈ cs, Encodable c := fun c hc => (hcs c hc).encodable
  have hwhole : ∀ i, ∀ c ∈ Decoder.wholly record cs n, Fits (ctx i).clock.now c := fun i c hc =>
    hfits i c (Decoder.wholly_subset record cs n hc)
  rw [load_eq_replay, frames_take hencodable, replay_eq ctx _ db hwhole]
  rfl

/-- `SET k v` whole, and `SET k w` cut in its last payload. -/
theorem load_torn_set :
    let ctx : Nat → Ctx := fun _ => .reading 0
    let set (v : UInt8) : Frame := .array [.bulk [83, 69, 84], .bulk [107], .bulk [v]]
    let whole := Decoder.wholly record [set 118, set 119] 51
    @load Unicode.ascii (.standard 0 List.length) ctx (([set 118, set 119].flatMap record).take 51)
        Db.empty =
      (.ok (@commands Unicode.ascii ctx whole).length,
        applyAll Db.empty (@commands Unicode.ascii ctx whole)) := by
  refine @load_torn Unicode.ascii (.standard 0 List.length) _ Db.empty _ 51 ?_ ?_
  · intro c hc
    rcases List.mem_pair.mp hc with rfl | rfl
    · exact received_of_clean ⟨trivial, trivial, trivial, trivial⟩ (by decide +kernel)
    · exact received_of_clean ⟨trivial, trivial, trivial, trivial⟩ (by decide +kernel)
  · intro i c hc
    have hset : ∀ v ∈ [118, 119], @Command.fromFrame Unicode.ascii 0
        (.array [.bulk [83, 69, 84], .bulk [107], .bulk [v]]) =
          .ok (.set { key := [107], value := [v], expiresAt := none }) := by
      decide +kernel
    rcases List.mem_pair.mp hc with rfl | rfl
    · exact @fits_of_ok Unicode.ascii _ _ _ (hset 118 (by simp)) (by simp)
    · exact @fits_of_ok Unicode.ascii _ _ _ (hset 119 (by simp)) (by simp)

/-! ## Appending after a torn tail -/

/-- A frame `process_connection` records: a request that is a write command. -/
structure Recordable [Unicode] (f : Frame) : Prop where
  received : Received f
  write : ∃ now cmd, Command.fromFrame now f = .ok cmd ∧ cmd.isWrite = true

/-- A load of the file replays exactly these frames, in order. -/
def Replays (file : Bytes) (fs : List Frame) : Prop := frames file = (fs, none)

theorem load_of_replays [Unicode] {cfg : Config} {file : Bytes} {fs : List Frame}
    (h : Replays file fs) (ctx : Nat → Ctx) (db : Db cfg) :
    load ctx file db = replay ctx fs db := by
  rw [load_eq_replay, h]
  rfl

/-- No number on a length line contains the `*` of a following record. -/
theorem not_mem_of_parseI64 {s : String} {i : Int64} (h : parseI64 s = some i) :
    byte '*' ∉ asBytes s := by
  have hdigits : ∀ {cs : List Char} {p : Nat → Bool} {k : Nat → Int64},
      ((parseDigits cs).filter p).map k = some i → ∀ c ∈ cs, c.isDigit = true := by
    intro cs p k hk c hc
    obtain ⟨n, hn, -⟩ := Option.map_eq_some_iff.mp hk
    have hn := (Option.filter_eq_some_iff.mp hn).1
    simp only [parseDigits, Option.ite_none_right_eq_some] at hn
    exact List.all_eq_true.mp hn.1.2 c hc
  have hchars : ∀ c ∈ s.toList, c.isDigit = true ∨ c = '-' ∨ c = '+' := by
    intro c hc
    simp only [parseI64] at h
    split at h
    · rename_i cs hcs
      rw [hcs] at hc
      rcases List.mem_cons.mp hc with rfl | hc
      · exact .inr (.inl rfl)
      · exact .inl (hdigits h c hc)
    · rename_i cs hcs
      rw [hcs] at hc
      rcases List.mem_cons.mp hc with rfl | hc
      · exact .inr (.inr rfl)
      · exact .inl (hdigits h c hc)
    · exact .inl (hdigits h c hc)
  intro hmem
  rw [asBytes_eq_flatMap, List.mem_flatMap] at hmem
  obtain ⟨c, hc, hb⟩ := hmem
  have hstar : c = '*' := by
    by_contra hne
    exact not_mem_utf8EncodeChar (d := '*') (by decide) hne hb
  rcases hchars c hc with h | h | h
  · rw [hstar] at h
    exact absurd h (by decide)
  · rw [hstar] at h
    exact absurd h (by decide)
  · rw [hstar] at h
    exact absurd h (by decide)

/-- A line that ends behind a byte holds it, unless it is one of the terminator's. -/
theorem mem_line_of_glued {t s line r : Bytes} {b : UInt8}
    (heq : t ++ b :: s = line ++ crlf ++ r) (hlen : r.length ≤ s.length) (hcr : b ≠ CR)
    (hlf : b ≠ LF) : b ∈ line := by
  by_contra hmem
  have hb : (t ++ b :: s)[t.length]? = some b := by simp
  have hlengths := congrArg List.length heq
  simp only [List.length_append, List.length_cons, crlf, List.length_nil] at hlengths
  rw [heq, List.append_assoc] at hb
  by_cases hin : t.length < line.length
  · rw [List.getElem?_append_left hin] at hb
    exact hmem (List.mem_of_getElem? hb)
  · rw [List.getElem?_append_right (by omega)] at hb
    have hoff : t.length - line.length = 0 ∨ t.length - line.length = 1 := by omega
    rcases hoff with h0 | h1
    · rw [h0] at hb
      exact hcr (Option.some.inj hb).symm
    · rw [h1] at hb
      exact hlf (Option.some.inj hb).symm

/-- A line that starts inside a length line and runs into a `*` is no number. -/
theorem getDecimal_glued {n : Nat} {t q s : Bytes}
    (hsplit : t ++ q = asBytes (usizeToString n) ++ crlf) (hq : q ≠ []) {i : Int64} {rest : Bytes} :
    Frame.getDecimal (t ++ byte '*' :: s) ≠ .ok (i, rest) := by
  have hline : Frame.getLine (t ++ q) = .ok (asBytes (usizeToString n), []) := by
    have h := Frame.getLine_asBytes (not_crlf_usizeToString n) []
    rwa [List.append_nil, ← hsplit] at h
  -- the terminator of the length line is not in `t`
  have htorn : Frame.getLine t = .error .incomplete := by
    cases ht : Frame.getLine t with
    | ok v =>
      obtain ⟨l, r⟩ := v
      rw [Frame.reads_getLine.extend q ht, Except.ok.injEq, Prod.mk.injEq,
        List.append_eq_nil_iff] at hline
      exact absurd hline.2.2 hq
    | error e => rw [Frame.getLine_eq_error ht]
  intro h
  obtain ⟨line, r, hget, h⟩ := bind_eq_ok.mp h
  have hlen := Frame.reads_getLine.retry htorn hget
  have heq := (Frame.getLine_eq_ok.mp hget).1
  have hmem : byte '*' ∈ line := mem_line_of_glued heq (Nat.le_of_lt_succ hlen) (by decide) (by decide)
  cases hs : fromUtf8 line with
  | none =>
    rw [hs] at h
    cases h
  | some str =>
    rw [hs] at h
    dsimp only at h
    cases hi : parseI64 str with
    | none =>
      rw [hi] at h
      cases h
    | some k => exact not_mem_of_parseI64 hi (asBytes_of_fromUtf8 hs ▸ hmem)

/-- Glued to a torn array, a record is at best read as an array of the torn one's length. -/
theorem parse_glued {fs gs : List Frame} {tail q s rest : Bytes}
    (henc : record (.array fs) = tail ++ q) (hlen : (record (.array fs)).length < 2 ^ 63)
    (htail : tail ≠ []) (hparse : Frame.parse (tail ++ byte '*' :: s) = .ok (.array gs, rest)) :
    gs.length = fs.length := by
  have hfs : fs.length < 2 ^ 63 := by
    have := Frame.length_le_writeAll fs
    simp only [record, Frame.writeToBuf, List.length_append, List.length_cons] at hlen
    omega
  cases tail with
  | nil => exact absurd rfl htail
  | cons b t =>
    rw [record, Frame.writeToBuf, List.cons_append, List.cons_append, List.cons_append,
      List.cons.injEq] at henc
    obtain ⟨rfl, henc⟩ := henc
    rw [List.cons_append, Frame.parse_star] at hparse
    obtain ⟨len, r, hdec, hparse⟩ := bind_eq_ok.mp hparse
    have hheader : ∃ a, t = asBytes (usizeToString fs.length) ++ crlf ++ a := by
      rcases List.append_eq_append_iff.mp henc with ⟨a, ht, -⟩ | ⟨a, hhead, -⟩
      · exact ⟨a, ht⟩
      · by_cases ha : a = []
        · rw [ha, List.append_nil] at hhead
          exact ⟨[], by rw [hhead, List.append_nil]⟩
        · exact absurd hdec (getDecimal_glued hhead.symm ha)
    obtain ⟨a, rfl⟩ := hheader
    rw [List.append_assoc, Frame.getDecimal_usize hfs, Except.ok.injEq, Prod.mk.injEq] at hdec
    obtain ⟨rfl, rfl⟩ := hdec
    rw [Frame.tryUsize_ofInt hfs, pure_bind] at hparse
    obtain ⟨out, r', hout, hparse⟩ := bind_eq_ok.mp hparse
    cases hparse
    exact length_of_collect hout

/-- There are recordable arrays of more than one length. -/
theorem exists_recordable [Unicode] (m : Nat) : ∃ gs, gs.length ≠ m ∧ Recordable (.array gs) := by
  have hname : ∀ s : String, (s = "LPOP" ∨ s = "SET") → toUppercase s = s := by
    rintro s (rfl | rfl)
    · exact toUppercase_of_ascii (by decide)
    · exact toUppercase_of_ascii (by decide)
  by_cases hm : m = 2
  · refine ⟨[.bulk [83, 69, 84], .bulk [107], .bulk [118]], by simp [hm],
      received_of_clean ⟨trivial, trivial, trivial, trivial⟩ (by decide +kernel),
      0, .set { key := [107], value := [118], expiresAt := none }, ?_, rfl⟩
    rw [Command.fromFrame_cons (show Command.nameArg _ = .ok "SET" by rfl), hname _ (.inr rfl)]
    rfl
  · refine ⟨[.bulk [76, 80, 79, 80], .bulk [107]], fun h => hm h.symm,
      received_of_clean ⟨trivial, trivial, trivial⟩ (by decide +kernel),
      0, .list (.lpop [107]), ?_, rfl⟩
    rw [Command.fromFrame_cons (show Command.nameArg _ = .ok "LPOP" by rfl), hname _ (.inl rfl)]
    rfl

/-- If whole records and a tail with a record after it replay as the records, the tail
and that record read as the record. -/
theorem decode_of_replays_glued {ws : List Frame} {tail s : Bytes} {d : Frame}
    (hws : ∀ c ∈ ws, Encodable c) (h : Replays (ws.flatMap record ++ tail ++ s) (ws ++ [d])) :
    ∃ rest, Frame.decoder.decode (tail ++ s) = .frame d rest := by
  have hfirst := frames_eq_drain (ws.flatMap record ++ tail ++ s)
  rw [h, List.append_assoc, Decoder.drain_flatMap_append fun c hc => decodes_record (hws c hc)]
    at hfirst
  have hglued : (Frame.decoder.drain (tail ++ s)).1 = [d] := (List.append_cancel_left hfirst).symm
  cases hd : Frame.decoder.decode (tail ++ s) with
  | frame f rest =>
    rw [Frame.decoder.drain_frame hd, List.cons.injEq] at hglued
    exact ⟨rest, by rw [hglued.1]⟩
  | more =>
    rw [Frame.decoder.drain_more hd] at hglued
    cases hglued
  | bad e =>
    rw [Frame.decoder.drain_bad hd] at hglued
    cases hglued

/-- After a crash that left the first `n` bytes of the file, and a restart that appends
to them, a second load replays the whole records and all later ones, whatever these are,
exactly if the crash cut no record in two. -/
theorem replays_appended_iff [Unicode] {cs : List Frame} (hcs : ∀ c ∈ cs, Received c) (n : Nat) :
    (∀ ds, (∀ d ∈ ds, Recordable d) →
      Replays (start ((cs.flatMap record).take n) ds) (Decoder.wholly record cs n ++ ds)) ↔
      (cs.flatMap record).take n = (Decoder.wholly record cs n).flatMap record := by
  have hwhole : ∀ c ∈ Decoder.wholly record cs n, Encodable c := fun c hc =>
    (hcs c (Decoder.wholly_subset record cs n hc)).encodable
  simp only [start_eq]
  constructor
  · intro h
    obtain ⟨tail, htake, htail⟩ := Decoder.take_flatMap record cs n
    rcases htail with rfl | ⟨c, hc, q, hq, hcq⟩
    · rw [htake, List.append_nil]
    · by_contra hne
      have htail : tail ≠ [] := by
        rintro rfl
        exact hne (by rw [htake, List.append_nil])
      obtain ⟨fs, rfl⟩ := (hcs c hc).array
      -- a record of another length than the torn one is not read back
      obtain ⟨gs, hgs, hrec⟩ := exists_recordable fs.length
      have hreplays := h [.array gs] fun d hd => List.mem_singleton.mp hd ▸ hrec
      obtain ⟨rest, hdecode⟩ := decode_of_replays_glued hwhole (htake ▸ hreplays)
      have hparse := ((checkThenParse_eq_frame Frame.mirrors_check_parse).mp hdecode).2
      rw [List.flatMap_singleton, record, Frame.writeToBuf, List.cons_append, List.cons_append]
        at hparse
      exact hgs (parse_glued hcq (hcs _ hc).length_lt htail hparse)
  · intro htake ds hds
    rw [Replays, htake, ← List.flatMap_append]
    refine frames_flatMap fun c hc => ?_
    rcases List.mem_append.mp hc with hc | hc
    · exact hwhole c hc
    · exact (hds c hc).received.encodable

/-- `SET k v` and `SET k w`: everything is replayed after a crash that left the first of them,
and not after one that left 13 bytes more. -/
theorem replays_appended_two :
    let set (v : UInt8) : Frame := .array [.bulk [83, 69, 84], .bulk [107], .bulk [v]]
    let file : Bytes := [set 118, set 119].flatMap record
    (∀ ds, (∀ d ∈ ds, @Recordable Unicode.ascii d) →
        Replays (start (file.take 27) ds) (set 118 :: ds)) ∧
      ¬ ∀ ds, (∀ d ∈ ds, @Recordable Unicode.ascii d) →
        Replays (start (file.take 40) ds) (set 118 :: ds) := by
  intro set file
  have hset : ∀ c ∈ [set 118, set 119], Received c := by
    intro c hc
    rcases List.mem_pair.mp hc with rfl | rfl
    · exact received_of_clean ⟨trivial, trivial, trivial, trivial⟩ (by decide +kernel)
    · exact received_of_clean ⟨trivial, trivial, trivial, trivial⟩ (by decide +kernel)
  have hwhole : Decoder.wholly record [set 118, set 119] 27 = [set 118] := by decide +kernel
  have htorn : Decoder.wholly record [set 118, set 119] 40 = [set 118] := by decide +kernel
  have h27 := @replays_appended_iff Unicode.ascii _ hset 27
  have h40 := @replays_appended_iff Unicode.ascii _ hset 40
  rw [hwhole] at h27
  rw [htorn] at h40
  exact ⟨h27.mpr (by decide +kernel), fun h => absurd (h40.mp h) (by decide +kernel)⟩

/-- `SET k v` cut before its last byte, with `SET a b` appended: nothing is replayed. -/
theorem torn_tail_swallows :
    let cut : Frame := .array [.bulk [83, 69, 84], .bulk [107], .bulk [118]]
    let later : Frame := .array [.bulk [83, 69, 84], .bulk [97], .bulk [98]]
    frames (start ((record cut).take 26) [later]) = ([], none) ∧
      ¬ Replays (start ((record cut).take 26) [later]) (Decoder.wholly record [cut] 26 ++ [later]) := by
  refine ⟨by decide +kernel, ?_⟩
  rw [Replays]
  decide +kernel

end Aof

end InMemoryCache
