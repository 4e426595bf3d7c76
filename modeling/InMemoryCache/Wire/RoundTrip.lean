-- SUMMARY: The decoder reads back what the encoder writes, and only frames it can write.
import InMemoryCache.Wire.FrameLaws

/-!
# Round trips

A frame is clean if its line-delimited strings hold no line terminator. The decoder
reads back every clean frame, whatever follows it, and every frame it reads is clean.
-/

namespace InMemoryCache

open Lib Reader

namespace Frame

-- ---------------------------------------------------------------------------
-- Clean frames
-- ---------------------------------------------------------------------------

mutual

/-- The line-delimited strings of a frame hold no line terminator. -/
def Clean : Frame → Prop
  | .simple s => ¬ crlf <:+: asBytes s
  | .error s => ¬ crlf <:+: asBytes s
  | .integer _ => True
  | .bulk _ => True
  | .null => True
  | .array fs => CleanAll fs

def CleanAll : List Frame → Prop
  | [] => True
  | f :: fs => Clean f ∧ CleanAll fs

end

theorem cleanAll_iff {fs : List Frame} : CleanAll fs ↔ ∀ f ∈ fs, Clean f := by
  induction fs with
  | nil => simp [CleanAll]
  | cons f fs ih => simp [CleanAll, ih]

-- ---------------------------------------------------------------------------
-- Decoding what was encoded
-- ---------------------------------------------------------------------------

/-- A text line followed by its terminator reads back as that text. -/
theorem getLine_asBytes {s : String} (h : ¬ crlf <:+: asBytes s) (rest : Bytes) :
    getLine (asBytes s ++ crlf ++ rest) = .ok (asBytes s, rest) :=
  getLine_eq_ok.mpr ⟨rfl, h⟩

theorem getDecimal_i64 (i : Int64) (rest : Bytes) :
    getDecimal (asBytes (i64ToString i) ++ crlf ++ rest) = .ok (i, rest) := by
  rw [getDecimal, bind_ok (getLine_asBytes (not_crlf_i64ToString i) rest), fromUtf8_asBytes]
  dsimp only
  rw [parseI64_i64ToString]
  rfl

theorem getDecimal_usize {n : Nat} (h : n < 2 ^ 63) (rest : Bytes) :
    getDecimal (asBytes (usizeToString n) ++ crlf ++ rest) = .ok (Int64.ofInt n, rest) := by
  rw [getDecimal, bind_ok (getLine_asBytes (not_crlf_usizeToString n) rest), fromUtf8_asBytes]
  dsimp only
  rw [parseI64_usizeToString h]
  rfl

theorem toInt_ofInt_usize {n : Nat} (h : n < 2 ^ 63) : (Int64.ofInt n).toInt = n :=
  Int64.toInt_ofInt_of_le (by omega) (by omega)

theorem tryUsize_ofInt {n : Nat} (h : n < 2 ^ 63) : tryUsize (Int64.ofInt n) = pure n := by
  have hval := toInt_ofInt_usize h
  rw [tryUsize, if_neg, hval, Int.toNat_natCast]
  rw [Int64.lt_iff_toInt_lt, hval]
  simp

theorem checkCrlf_crlf (rest : Bytes) : checkCrlf (crlf ++ rest) = .ok ((), rest) := rfl

/-- A decimal length line starts with a digit, not with the `-` of the null bulk string. -/
theorem usizeToString_head (n : Nat) (rest : Bytes) :
    ∃ b s, asBytes (usizeToString n) ++ rest = b :: s ∧ b ≠ byte '-' := by
  obtain ⟨c, cs, hcs, -, hminus⟩ := toDigits_eq_cons n
  have hdigit : c.isDigit := Nat.isDigit_of_mem_toDigits (b := 10) (n := n) (by omega) (by omega)
    (by simp [hcs])
  have hc : c.toNat < 128 := by
    simp only [Char.isDigit, Bool.and_eq_true, decide_eq_true_eq, ge_iff_le] at hdigit
    have hn : c.toNat ≤ 57 := UInt32.le_iff_toNat_le.mp hdigit.2
    omega
  refine ⟨UInt8.ofNat c.toNat, cs.flatMap String.utf8EncodeChar ++ rest, ?_, ?_⟩
  · rw [usizeToString, asBytes_ofList, hcs, List.flatMap_cons, utf8EncodeChar_of_lt hc]
    rfl
  · intro h
    exact hminus ((ofNat_toNat_eq_iff hc (d := '-') (by decide)).mp h)

theorem parseBulk_data {b : Bytes} (h : b.length < 2 ^ 63) (rest : Bytes) :
    parseBulk (asBytes (usizeToString b.length) ++ crlf ++ (b ++ crlf ++ rest)) =
      .ok (.bulk b, rest) := by
  obtain ⟨c, s, hcs, hc⟩ := usizeToString_head b.length (crlf ++ (b ++ crlf ++ rest))
  rw [← List.append_assoc] at hcs
  have hpeek : peekU8 (asBytes (usizeToString b.length) ++ crlf ++ (b ++ crlf ++ rest)) =
      .ok (c, asBytes (usizeToString b.length) ++ crlf ++ (b ++ crlf ++ rest)) := by
    rw [hcs]
    rfl
  have htake : (takeN b.length : Reader UInt8 String Bytes) (b ++ crlf ++ rest) =
      .ok (b, crlf ++ rest) :=
    takeN_eq_ok.mpr ⟨List.append_assoc .., rfl⟩
  rw [parseBulk, bind_ok hpeek, if_neg hc, bind_ok (getDecimal_usize h _), tryUsize_ofInt h,
    pure_bind, ensure_bind_of_le, bind_ok htake, bind_ok (checkCrlf_crlf rest)]
  · rfl
  · simp only [crlf, List.length_append, List.length_cons, List.length_nil]
    omega

theorem writeToBuf_length_pos (f : Frame) : 0 < (writeToBuf f).length := by
  cases f <;> simp [writeToBuf]

theorem length_le_writeAll (fs : List Frame) : fs.length ≤ (writeAll fs).length := by
  induction fs with
  | nil => simp
  | cons f fs ih =>
    have hpos := writeToBuf_length_pos f
    simp only [writeAll, List.length_cons, List.length_append]
    omega

/-- The elements of an array are read back one after the other. -/
theorem collect_writeAll {fs : List Frame} (rest : Bytes)
    (ih : ∀ f ∈ fs, f.Clean → (writeToBuf f).length < 2 ^ 63 →
      ∀ rest, parse (writeToBuf f ++ rest) = .ok (f, rest))
    (hclean : CleanAll fs) (hlen : (writeAll fs).length < 2 ^ 63) :
    collect parse fs.length (writeAll fs ++ rest) = .ok (fs, rest) := by
  induction fs with
  | nil => rfl
  | cons f fs ihfs =>
    rw [writeAll, List.length_append] at hlen
    have hfirst := ih f List.mem_cons_self hclean.1 (by omega)
    have hothers := ihfs (fun g hg => ih g (List.mem_cons_of_mem f hg)) hclean.2 (by omega)
    rw [writeAll, List.append_assoc, List.length_cons, collect, bind_ok (hfirst _), bind_ok hothers]
    rfl

/-- The parser reads back every encoded frame whose line-delimited strings are
clean, whatever follows. A `Vec` holds fewer than `2^63` bytes, so the lengths on
the wire fit the decimal fields. -/
theorem parse_writeToBuf {f : Frame} (hclean : f.Clean) (hlen : (writeToBuf f).length < 2 ^ 63)
    (rest : Bytes) : parse (writeToBuf f ++ rest) = .ok (f, rest) := by
  induction f using Frame.induct generalizing rest with
  | simple s =>
    rw [writeToBuf, List.cons_append, List.cons_append, parse_plus,
      bind_ok (getLine_asBytes hclean rest), utf8, fromUtf8_asBytes]
    rfl
  | error s =>
    rw [writeToBuf, List.cons_append, List.cons_append, parse_minus,
      bind_ok (getLine_asBytes hclean rest), utf8, fromUtf8_asBytes]
    rfl
  | integer i =>
    rw [writeToBuf, List.cons_append, List.cons_append, parse_colon,
      bind_ok (getDecimal_i64 i rest)]
    rfl
  | bulk b =>
    have hb : b.length < 2 ^ 63 := by
      simp only [writeToBuf, List.length_append, List.length_cons] at hlen
      omega
    have hdata := parseBulk_data hb rest
    simp only [writeToBuf, List.cons_append, List.append_assoc] at hdata ⊢
    rw [parse_dollar]
    exact hdata
  | null =>
    rw [parse_eq]
    rfl
  | array fs ih =>
    simp only [writeToBuf, List.length_append, List.length_cons] at hlen
    have hfs : fs.length < 2 ^ 63 := by
      have := length_le_writeAll fs
      omega
    rw [writeToBuf, List.append_assoc, List.cons_append, List.cons_append, parse_star,
      bind_ok (getDecimal_usize hfs _), tryUsize_ofInt hfs, pure_bind,
      bind_ok (collect_writeAll rest ih hclean (by omega))]
    rfl

theorem decodes_writeToBuf {f : Frame} (hclean : f.Clean)
    (hlen : (writeToBuf f).length < 2 ^ 63) : decoder.Decodes writeToBuf f := fun rest =>
  have hparse := parse_writeToBuf hclean hlen rest
  (checkThenParse_eq_frame mirrors_check_parse).mpr ⟨mirrors_check_parse.covers hparse, hparse⟩

-- ---------------------------------------------------------------------------
-- Every frame that is read is clean
-- ---------------------------------------------------------------------------

theorem yields_getLine : Yields (fun line => ¬ crlf <:+: line) getLine :=
  fun _ _ _ h => (getLine_eq_ok.mp h).2

theorem yields_utf8 (line : Bytes) : Yields (fun s => asBytes s = line) (utf8 line) := by
  rw [utf8]
  cases hs : fromUtf8 line with
  | none => exact yields_reject
  | some s => exact yields_pure (asBytes_of_fromUtf8 hs)

/-- A line read as text holds no line terminator. -/
theorem yields_line {k : String → Frame} (hk : ∀ s, ¬ crlf <:+: asBytes s → (k s).Clean) :
    Yields Clean (getLine >>= fun line => utf8 line >>= fun s => pure (k s)) :=
  yields_getLine.bind fun line hline => (yields_utf8 line).bind fun s hs =>
    yields_pure (hk s (hs ▸ hline))

theorem yields_parseBulk : Yields Clean parseBulk := by
  refine Yields.bind_any fun b => ?_
  split
  · exact Yields.bind_any fun _ => yields_pure trivial
  · exact Yields.bind_any fun len => Yields.bind_any fun n => Yields.bind_any fun _ =>
      Yields.bind_any fun data => Yields.bind_any fun _ => yields_pure trivial

theorem clean_inlineFrame (s : String) : (inlineFrame s).Clean := by
  rw [inlineFrame, Clean, cleanAll_iff]
  intro f hf
  obtain ⟨p, -, rfl⟩ := List.mem_map.mp hf
  trivial

theorem yields_parseStep {elem : Reader UInt8 String Frame} (h : Yields Clean elem) :
    Yields Clean (parseStep elem) := by
  refine Yields.bind_any fun b => ?_
  split
  · exact Yields.bind_any fun _ => yields_line fun _ hs => hs
  · split
    · exact Yields.bind_any fun _ => yields_line fun _ hs => hs
    · split
      · exact Yields.bind_any fun _ => Yields.bind_any fun val => yields_pure trivial
      · split
        · exact Yields.bind_any fun _ => yields_parseBulk
        · split
          · exact Yields.bind_any fun _ => Yields.bind_any fun len => Yields.bind_any fun n =>
              (h.collect n).bind fun out hout => yields_pure (cleanAll_iff.mpr hout)
          · refine Yields.bind_any fun line => ?_
            split
            · exact yields_reject
            · exact yields_pure (clean_inlineFrame _)

theorem yields_parse : Yields Clean parse := by
  have hfuel : ∀ fuel, Yields Clean (parseFuel fuel) := by
    intro fuel
    induction fuel with
    | zero => exact yields_starve
    | succ fuel ih => exact yields_parseStep ih
  exact fun s f r h => hfuel (s.length + 1) h

/-- Every frame the parser returns is one the encoder writes faithfully. -/
theorem clean_of_parse {s : Bytes} {f : Frame} {rest : Bytes} (h : parse s = .ok (f, rest)) :
    f.Clean := yields_parse h

/-- Checking and parsing undo encoding on a stream, for all clean frames, and every
frame read from any input is one of them. -/
theorem decode_encode :
    (∀ f : Frame, f.Clean → (writeToBuf f).length < 2 ^ 63 → ∀ rest,
      check (writeToBuf f ++ rest) = .ok ((), rest) ∧
        parse (writeToBuf f ++ rest) = .ok (f, rest)) ∧
      ∀ s f rest, parse s = .ok (f, rest) → f.Clean := by
  refine ⟨fun f hclean hlen rest => ?_, fun s f rest h => clean_of_parse h⟩
  have hparse := parse_writeToBuf hclean hlen rest
  exact ⟨mirrors_check_parse.covers hparse, hparse⟩

/-- A nested array with a lone `\r` in a simple string and `\r\n` in a bulk string. -/
theorem decode_encode_nested :
    check (writeToBuf (.array [.simple "a\r", .array [.bulk [13, 10, 42], .null]]) ++ [36]) =
        .ok ((), [36]) ∧
      parse (writeToBuf (.array [.simple "a\r", .array [.bulk [13, 10, 42], .null]]) ++ [36]) =
        .ok (.array [.simple "a\r", .array [.bulk [13, 10, 42], .null]], [36]) := by
  refine decode_encode.1 _ ?_ (by decide +kernel) [36]
  have hline : ¬ crlf <:+: asBytes "a\r" := by decide +kernel
  exact ⟨hline, ⟨trivial, trivial, trivial⟩, trivial⟩

end Frame

end InMemoryCache
