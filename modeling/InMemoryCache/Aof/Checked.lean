-- SUMMARY: What the checker accepts and the parser rejects, on a connection and in a file.
import InMemoryCache.Aof.Load
import InMemoryCache.Wire.Stack

/-!
# Checked frames

`parse` assumes that `check` succeeded. It reads the same bytes, reserves no more items than
there are bytes and slices only what `check` has seen; but `check` does not look whether a
line is text, and `parse` rejects a line that is not UTF-8. One such line closes a connection
and aborts a load. Nor does a stack that holds the calls of `check` for nested arrays need to
hold those of `parse`: then the process is aborted.
-/

namespace InMemoryCache

open Lib Reader

namespace Frame

/-- `t` is where a frame at `s`, or an element of it `depth` arrays deep, starts, when elements
are read with `elem`. -/
inductive Visits (elem : Reader UInt8 String α) : Nat → Bytes → Bytes → Prop
  | here (s : Bytes) : Visits elem 0 s s
  | inside {s r u t : Bytes} {len : Int64} {k depth : Nat} {as : List α} :
      getDecimal s = .ok (len, r) → k < len.toInt.toNat → collect elem k r = .ok (as, u) →
        Visits elem depth u t → Visits elem (depth + 1) (byte '*' :: s) t

/-- The line that `parse` converts to text at a cursor: a simple string, an error or an inline
command. -/
def textLine : Bytes → Option Bytes
  | [] => none
  | b :: s =>
    if b = byte '+' ∨ b = byte '-' then (getLine s).toOption.map Prod.fst
    else if b = byte ':' ∨ b = byte '$' ∨ b = byte '*' then none
    else (getLine (b :: s)).toOption.map Prod.fst

/-- The capacity that `parse` reserves for an array at a cursor. -/
def capacity : Bytes → Option Nat
  | [] => none
  | b :: s =>
    if b = byte '*' then
      match getDecimal s with
      | .ok (len, _) => if len < 0 then none else some len.toInt.toNat
      | .error _ => none
    else none

/-- The number of bytes that `parse` slices off for a bulk string at a cursor, and the bytes
there are to slice from. -/
def slice : Bytes → Option (Nat × Bytes)
  | [] => none
  | b :: s =>
    if b = byte '$' ∧ s.head? ≠ some (byte '-') then
      match getDecimal s with
      | .ok (len, r) => if len < 0 then none else some (len.toInt.toNat, r)
      | .error _ => none
    else none

/-! ## The checker -/

/-- An array that is checked: its length is not negative, and its elements are checked. -/
theorem check_star_eq_ok {s rest : Bytes} (h : check (byte '*' :: s) = .ok ((), rest)) :
    ∃ len r, getDecimal s = .ok (len, r) ∧ ¬ len < 0 ∧
      times check len.toInt.toNat r = .ok ((), rest) := by
  rw [check_star] at h
  obtain ⟨len, r, hlen, h⟩ := bind_eq_ok.mp h
  by_cases hneg : len < 0
  · rw [if_pos hneg] at h
    cases h
  · rw [if_neg hneg] at h
    exact ⟨len, r, hlen, hneg, h⟩

/-! ## Where elements start -/

theorem visits_of_ne {elem : Reader UInt8 String α} {b : UInt8} {s t : Bytes} {depth : Nat}
    (hb : b ≠ byte '*') : Visits elem depth (b :: s) t ↔ depth = 0 ∧ t = b :: s := by
  constructor
  · intro h
    generalize hu : b :: s = u at h
    cases h with
    | here => exact ⟨rfl, rfl⟩
    | inside => exact absurd (List.cons.inj hu).1 hb
  · rintro ⟨rfl, rfl⟩
    exact .here _

theorem visits_star {elem : Reader UInt8 String α} {s r t : Bytes} {len : Int64} {depth : Nat}
    (hlen : getDecimal s = .ok (len, r)) : Visits elem depth (byte '*' :: s) t ↔
      depth = 0 ∧ t = byte '*' :: s ∨ ∃ k < len.toInt.toNat, ∃ as u,
        collect elem k r = .ok (as, u) ∧ ∃ inner, depth = inner + 1 ∧ Visits elem inner u t := by
  constructor
  · intro h
    generalize hu : byte '*' :: s = u at h
    cases h with
    | here => exact .inl ⟨rfl, rfl⟩
    | inside hlen' hk has hin =>
      obtain ⟨-, rfl⟩ := List.cons.inj hu
      rw [hlen] at hlen'
      cases hlen'
      exact .inr ⟨_, hk, _, _, has, _, rfl, hin⟩
  · rintro (⟨rfl, rfl⟩ | ⟨k, hk, as, u, has, inner, rfl, hin⟩)
    · exact .here _
    · exact .inside hlen hk has hin

/-- Wherever the parser comes to within a checked frame, the checker accepts, and within
the bytes of that frame. -/
theorem check_of_visits {s t rest : Bytes} {depth : Nat} (hv : Visits parse depth s t)
    (h : check s = .ok ((), rest)) :
    ∃ t', check t = .ok ((), t') ∧ rest.length ≤ t'.length ∧ t.length ≤ s.length := by
  induction hv generalizing rest with
  | here s => exact ⟨rest, h, le_rfl, le_rfl⟩
  | @inside s r u t len k depth as hlen hk has hin ih =>
    obtain ⟨len', r', hlen', -, htimes⟩ := check_star_eq_ok h
    rw [hlen] at hlen'
    cases hlen'
    obtain ⟨us, hus⟩ := times_eq_ok.mp ((mirrors_check_parse.times_collect k).covers has)
    obtain ⟨t₁, hcheck, hrest, hu⟩ := times_item (reads_check.mono (Nat.zero_le 1)) htimes hk hus
    obtain ⟨t', ht', ht₁, ht⟩ := ih hcheck
    have hr := reads_getDecimal.consumes hlen
    exact ⟨t', ht', by omega, by rw [List.length_cons]; omega⟩

/-- The array capacity reserved at a checked cursor is covered by the bytes the check took. -/
theorem capacity_le {t t' : Bytes} {n : Nat} (h : check t = .ok ((), t'))
    (hn : capacity t = some n) : n + t'.length ≤ t.length := by
  cases t with
  | nil => cases hn
  | cons b s =>
    rw [capacity] at hn
    by_cases hb : b = byte '*'
    · subst hb
      obtain ⟨len, r, hlen, hneg, htimes⟩ := check_star_eq_ok h
      rw [if_pos rfl, hlen] at hn
      dsimp only at hn
      rw [if_neg hneg] at hn
      cases hn
      have hitems := times_length reads_check htimes
      have hr := reads_getDecimal.consumes hlen
      rw [List.length_cons]
      omega
    · rw [if_neg hb] at hn
      cases hn

/-- A bulk string that is checked: a null, or a length that is not negative with that many
bytes and a terminator behind it. -/
theorem checkBulk_eq_ok {s rest : Bytes} (h : checkBulk s = .ok ((), rest)) :
    s.head? = some (byte '-') ∧ nullLine s = .ok ((), rest) ∨
      s.head? ≠ some (byte '-') ∧ ∃ len r, getDecimal s = .ok (len, r) ∧ ¬ len < 0 ∧
        len.toInt.toNat + 2 ≤ r.length ∧
          ∃ data u, (takeN len.toInt.toNat : Reader UInt8 String Bytes) r = .ok (data, u) ∧
            checkCrlf u = .ok ((), rest) := by
  cases s with
  | nil => cases h
  | cons b s =>
    have hpeek : peekU8 (b :: s) = .ok (b, b :: s) := rfl
    rw [checkBulk, bind_ok hpeek] at h
    by_cases hb : b = byte '-'
    · rw [if_pos hb] at h
      exact .inl ⟨congrArg some hb, h⟩
    · rw [if_neg hb] at h
      obtain ⟨len, r, hlen, h⟩ := bind_eq_ok.mp h
      by_cases hneg : len < 0
      · rw [if_pos hneg] at h
        cases h
      · rw [if_neg hneg] at h
        obtain ⟨⟨⟩, r', hensure, h⟩ := bind_eq_ok.mp h
        rw [ensure] at hensure
        split at hensure
        · cases hensure
        · rename_i hr
          cases hensure
          obtain ⟨data, u, hdata, hcrlf⟩ := bind_eq_ok.mp h
          refine .inr ⟨fun hs => hb (Option.some.inj hs), len, r, hlen, hneg, by omega, ?_⟩
          exact ⟨data, u, hdata, hcrlf⟩

/-- The slice taken at a checked cursor lies within the buffer, its terminator as well. -/
theorem slice_le {t t' r : Bytes} {n : Nat} (h : check t = .ok ((), t'))
    (hn : slice t = some (n, r)) : n + 2 ≤ r.length := by
  cases t with
  | nil => cases hn
  | cons b s =>
    rw [slice] at hn
    by_cases hb : b = byte '$' ∧ s.head? ≠ some (byte '-')
    · obtain ⟨rfl, hnull⟩ := hb
      rw [check_dollar] at h
      rcases checkBulk_eq_ok h with ⟨hhead, -⟩ | ⟨-, len, r', hlen, hneg, hr, -⟩
      · exact absurd hhead hnull
      · rw [if_pos ⟨rfl, hnull⟩, hlen] at hn
        dsimp only at hn
        rw [if_neg hneg] at hn
        cases hn
        exact hr
    · rw [if_neg hb] at hn
      cases hn

/-! ## The parser on what the checker accepts -/

theorem parseBulk_of_check {s rest : Bytes} (h : checkBulk s = .ok ((), rest)) :
    ∃ f, parseBulk s = .ok (f, rest) := by
  have hfull := checkBulk_eq_ok h
  cases s with
  | nil => cases h
  | cons b s =>
    have hpeek : peekU8 (b :: s) = .ok (b, b :: s) := rfl
    rw [parseBulk, bind_ok hpeek]
    rcases hfull with ⟨hb, hnull⟩ | ⟨hb, len, r, hlen, hneg, hr, data, u, hdata, hcrlf⟩
    · rw [if_pos (Option.some.inj hb), bind_ok hnull]
      exact ⟨.null, rfl⟩
    · have hensure : (ensure (len.toInt.toNat + 2) : Reader UInt8 String Unit) r = .ok ((), r) := by
        rw [ensure, if_neg (by omega)]
      rw [if_neg fun h => hb (congrArg some h), bind_ok hlen, tryUsize, if_neg hneg, pure_bind,
        bind_ok hensure, bind_ok hdata, bind_ok hcrlf]
      exact ⟨.bulk data, rfl⟩

/-- Every line the parser would convert to text within a checked frame is text. -/
def Textual (s : Bytes) : Prop :=
  ∀ depth t line, Visits check depth s t → textLine t = some line → (fromUtf8 line).isSome

/-- Every call of the parser within a checked frame has room on the stack: there is one around
it for each array that its element is in. -/
def Fits (calls : Nat) (s : Bytes) : Prop := ∀ depth t, Visits check depth s t → depth < calls

/-- Where the parser converts one line, and nothing else, that line decides. -/
theorem textual_of_line {b : UInt8} {s line : Bytes} (hb : b ≠ byte '*')
    (hline : textLine (b :: s) = some line) : Textual (b :: s) ↔ (fromUtf8 line).isSome := by
  constructor
  · intro h
    exact h 0 (b :: s) line (.here _) hline
  · intro h depth t l ht hl
    rw [((visits_of_ne hb).mp ht).2, hline] at hl
    cases hl
    exact h

theorem textual_of_none {b : UInt8} {s : Bytes} (hb : b ≠ byte '*')
    (hline : textLine (b :: s) = none) : Textual (b :: s) := by
  intro depth t l ht hl
  rw [((visits_of_ne hb).mp ht).2, hline] at hl
  cases hl

/-- An array is textual when the elements are. -/
theorem textual_star {s r : Bytes} {len : Int64} (hlen : getDecimal s = .ok (len, r)) :
    Textual (byte '*' :: s) ↔ ∀ k < len.toInt.toNat, ∀ us u, collect check k r = .ok (us, u) →
      Textual u := by
  constructor
  · intro h k hk us u hus depth t line hv hline
    exact h _ t line ((visits_star hlen).mpr (.inr ⟨k, hk, us, u, hus, depth, rfl, hv⟩)) hline
  · intro h depth t line hv hline
    rcases (visits_star hlen).mp hv with ⟨-, rfl⟩ | ⟨k, hk, us, u, hus, inner, -, hin⟩
    · cases hline
    · exact h k hk us u hus inner t line hin hline

/-- A frame that is no array needs one call. -/
theorem fits_of_ne {b : UInt8} {s : Bytes} (hb : b ≠ byte '*') (calls : Nat) :
    Fits (calls + 1) (b :: s) := by
  intro depth t hv
  rw [((visits_of_ne hb).mp hv).1]
  exact Nat.succ_pos calls

/-- An array needs one call more than its elements. -/
theorem fits_star {s r : Bytes} {len : Int64} (hlen : getDecimal s = .ok (len, r)) (calls : Nat) :
    Fits (calls + 1) (byte '*' :: s) ↔ ∀ k < len.toInt.toNat, ∀ us u,
      collect check k r = .ok (us, u) → Fits calls u := by
  constructor
  · intro h k hk us u hus depth t hv
    have hlt := h _ t ((visits_star hlen).mpr (.inr ⟨k, hk, us, u, hus, depth, rfl, hv⟩))
    exact Nat.lt_of_succ_lt_succ hlt
  · intro h depth t hv
    rcases (visits_star hlen).mp hv with ⟨rfl, -⟩ | ⟨k, hk, us, u, hus, inner, rfl, hin⟩
    · exact Nat.succ_pos calls
    · exact Nat.succ_lt_succ (h k hk us u hus inner t hin)

/-- A simple string or an error: the parser converts the line the checker skipped. -/
theorem parse_line_iff {b : UInt8} {s rest : Bytes} {k : String → Frame} (hb : b ≠ byte '*')
    (hcheck : check (b :: s) = (do let _ ← getLine; pure () : Reader UInt8 String Unit) s)
    (hparse : parse (b :: s) = (do let line ← getLine; let t ← utf8 line; pure (k t) :
      Reader UInt8 String Frame) s)
    (htext : textLine (b :: s) = (getLine s).toOption.map Prod.fst)
    (h : check (b :: s) = .ok ((), rest)) :
    (∃ f, parse (b :: s) = .ok (f, rest)) ↔ Textual (b :: s) := by
  rw [hcheck] at h
  obtain ⟨line, r, hline, hpure⟩ := bind_eq_ok.mp h
  cases hpure
  rw [hline] at htext
  rw [textual_of_line hb htext, hparse, bind_ok hline, utf8]
  cases fromUtf8 line with
  | none =>
    refine iff_of_false ?_ Bool.false_ne_true
    rintro ⟨f, hf⟩
    cases hf
  | some t => exact iff_of_true ⟨k t, rfl⟩ rfl

/-- An inline command: its line starts at the cursor itself. -/
theorem parse_inline_iff {b : UInt8} {s rest : Bytes}
    (hb : b ≠ byte '+' ∧ b ≠ byte '-' ∧ b ≠ byte ':' ∧ b ≠ byte '$' ∧ b ≠ byte '*')
    (h : check (b :: s) = .ok ((), rest)) :
    (∃ f, parse (b :: s) = .ok (f, rest)) ↔ Textual (b :: s) := by
  obtain ⟨hplus, hminus, hcolon, hdollar, hstar⟩ := hb
  have hpeek : peekU8 (b :: s) = .ok (b, b :: s) := rfl
  rw [check_eq, checkStep, bind_ok hpeek, if_neg hplus, if_neg hminus, if_neg hcolon,
    if_neg hdollar, if_neg hstar] at h
  obtain ⟨line, r, hline, hpure⟩ := bind_eq_ok.mp h
  cases hpure
  have htext : textLine (b :: s) = some line := by
    rw [textLine, if_neg (by simp [hplus, hminus]), if_neg (by simp [hcolon, hdollar, hstar]),
      hline]
    rfl
  rw [textual_of_line hstar htext, parse_eq, parseStep, bind_ok hpeek, if_neg hplus,
    if_neg hminus, if_neg hcolon, if_neg hdollar, if_neg hstar, bind_ok hline]
  cases fromUtf8 line with
  | none =>
    refine iff_of_false ?_ Bool.false_ne_true
    rintro ⟨f, hf⟩
    cases hf
  | some t => exact iff_of_true ⟨inlineFrame t, rfl⟩ rfl

/-- A frame that is no array: the parser reads it exactly when its line, if it converts one,
is text. -/
theorem parse_iff_textual {b : UInt8} {s rest : Bytes} (hstar : b ≠ byte '*')
    (h : check (b :: s) = .ok ((), rest)) :
    (∃ f, parse (b :: s) = .ok (f, rest)) ↔ Textual (b :: s) := by
  by_cases hplus : b = byte '+'
  · subst hplus
    exact parse_line_iff hstar (check_plus s) (parse_plus s) rfl h
  by_cases hminus : b = byte '-'
  · subst hminus
    exact parse_line_iff hstar (check_minus s) (parse_minus s) rfl h
  by_cases hcolon : b = byte ':'
  · subst hcolon
    rw [check_colon] at h
    obtain ⟨i, r, hi, hpure⟩ := bind_eq_ok.mp h
    cases hpure
    exact iff_of_true ⟨.integer i, by rw [parse_colon, bind_ok hi]; rfl⟩
      (textual_of_none hstar rfl)
  by_cases hdollar : b = byte '$'
  · subst hdollar
    rw [check_dollar] at h
    rw [parse_dollar]
    exact iff_of_true (parseBulk_of_check h) (textual_of_none hstar rfl)
  · exact parse_inline_iff ⟨hplus, hminus, hcolon, hdollar, hstar⟩ h

/-- What the parser makes of an array whose header is read. -/
theorem parseOn_star_iff {s r rest : Bytes} {len : Int64} (hlen : getDecimal s = .ok (len, r))
    (hneg : ¬ len < 0) (calls : Nat) : (∃ f, parseOn (calls + 1) (byte '*' :: s) = .ok (f, rest)) ↔
      ∃ fs, collect (parseOn calls) len.toInt.toNat r = .ok (fs, rest) := by
  have husize : onStack (tryUsize len) r = .ok (len.toInt.toNat, r) :=
    onStack_eq_ok.mpr (by rw [tryUsize, if_neg hneg]; rfl)
  rw [parseOn_star, bind_ok (onStack_eq_ok.mpr hlen), bind_ok husize]
  constructor
  · rintro ⟨f, hf⟩
    obtain ⟨fs, t, hfs, hpure⟩ := bind_eq_ok.mp hf
    cases hpure
    exact ⟨fs, hfs⟩
  · rintro ⟨fs, hfs⟩
    exact ⟨.array fs, by rw [bind_ok hfs]; rfl⟩

/-- On what the checker accepts, the parser reads the same bytes exactly when every line it
converts is text and its calls have room on the stack. By induction on the calls that there is
room for: the elements of an array are read with one less. -/
theorem parseOn_iff {s rest : Bytes} (h : check s = .ok ((), rest)) (calls : Nat) :
    (∃ f, parseOn calls s = .ok (f, rest)) ↔ Textual s ∧ Fits calls s := by
  induction calls generalizing s rest with
  | zero =>
    refine iff_of_false ?_ fun hfits => absurd (hfits.2 0 s (.here s)) (Nat.lt_irrefl 0)
    rintro ⟨f, hf⟩
    cases hf
  | succ calls ih =>
    cases s with
    | nil => cases h
    | cons b s =>
      by_cases hstar : b = byte '*'
      · subst hstar
        obtain ⟨len, r, hlen, hneg, htimes⟩ := check_star_eq_ok h
        have hcollect := (mirrors_parseOn calls).collect_iff (times_onStack.mpr htimes)
        rw [parseOn_star_iff hlen hneg, hcollect, textual_star hlen, fits_star hlen]
        simp only [collect_onStack]
        constructor
        · intro hitems
          have hboth : ∀ k < len.toInt.toNat, ∀ us u, collect check k r = .ok (us, u) →
              Textual u ∧ Fits calls u := by
            intro k hk us u hus
            obtain ⟨f, t', hf⟩ := hitems k hk us u hus
            exact (ih (mirrors_check_parse.covers (parse_of_parseOn hf))).mp ⟨f, hf⟩
          exact ⟨fun k hk us u hus => (hboth k hk us u hus).1,
            fun k hk us u hus => (hboth k hk us u hus).2⟩
        · rintro ⟨htextual, hfits⟩ k hk us u hus
          obtain ⟨t', hcheck, -, -⟩ := times_item (reads_check.mono (Nat.zero_le 1)) htimes hk hus
          obtain ⟨f, hf⟩ := (ih hcheck).mpr ⟨htextual k hk us u hus, hfits k hk us u hus⟩
          exact ⟨f, t', hf⟩
      · rw [parseOn_of_ne hstar, and_iff_left (fits_of_ne hstar calls)]
        simp only [onStack_eq_ok]
        exact parse_iff_textual hstar h

end Frame

/-! ## What the checker decides -/

namespace Aof

/-- One turn of the loop in `load` on a bounded stack: a frame and the rest of the file, or the
end of what can be read. -/
def nextOn (stack : Stack) (buf : Bytes) : Except (ReadError Fault) (Option (Frame × Bytes)) :=
  match Frame.checkOn stack.check buf with
  | .ok (_, rest) =>
    match Frame.parseOn stack.parse (buf.take (buf.length - rest.length)) with
    | .ok (f, _) => .ok (some (f, rest))
    | .error e => .error e
  | .error (.other .overflow) => .error (.other .overflow)
  | .error _ => .ok none

/-- What the parser owes a frame that the checker accepts, on the same stack, leaving `rest`. -/
structure Decided (stack : Stack) (s rest : Bytes) : Prop where
  /-- It takes the same bytes. -/
  parses : ∃ f, Frame.parseOn stack.parse s = .ok (f, rest)
  /-- No array reserves more items than there are bytes in the frame. -/
  reserves : ∀ depth t n, Frame.Visits Frame.parse depth s t → Frame.capacity t = some n →
    n ≤ s.length - rest.length
  /-- No slice leaves the buffer, nor does the step past its terminator. -/
  slices : ∀ depth t n r, Frame.Visits Frame.parse depth s t → Frame.slice t = some (n, r) →
    n + 2 ≤ r.length
  /-- The connection goes on after the frame. -/
  served : ∃ f, Connection.parseFrameOn stack s = .ok (some (f, rest))
  /-- So does the load. -/
  loaded : ∃ f, nextOn stack s = .ok (some (f, rest))

/-- What is reserved and sliced is covered by what was checked, whether or not the parser
accepts the frame. -/
theorem reserves_of_check {s rest t : Bytes} {depth n : Nat} (h : Frame.check s = .ok ((), rest))
    (hv : Frame.Visits Frame.parse depth s t) (hn : Frame.capacity t = some n) :
    n ≤ s.length - rest.length := by
  obtain ⟨t', ht', hrest, ht⟩ := Frame.check_of_visits hv h
  have hcap := Frame.capacity_le ht' hn
  omega

theorem slices_of_check {s rest t r : Bytes} {depth n : Nat} (h : Frame.check s = .ok ((), rest))
    (hv : Frame.Visits Frame.parse depth s t) (hn : Frame.slice t = some (n, r)) :
    n + 2 ≤ r.length := by
  obtain ⟨t', ht', -, -⟩ := Frame.check_of_visits hv h
  exact Frame.slice_le ht' hn

section Drivers

variable {stack : Stack} {s rest : Bytes} {f : Frame}

/-- Checked and parsed, a frame is handed to the connection, -/
theorem parseFrameOn_of_ok (h : Frame.checkOn stack.check s = .ok ((), rest))
    (hf : Frame.parseOn stack.parse s = .ok (f, rest)) :
    Connection.parseFrameOn stack s = .ok (some (f, rest)) := by
  obtain ⟨p, rfl⟩ := Frame.reads_check.suffix (Frame.check_of_checkOn h)
  rw [Connection.parseFrameOn, h]
  dsimp only
  rw [hf]
  dsimp only
  rw [List.length_append, Nat.add_sub_cancel, List.drop_left]

/-- and to the load, which parses the bytes that were checked and no more. -/
theorem nextOn_of_ok (h : Frame.checkOn stack.check s = .ok ((), rest))
    (hf : Frame.parseOn stack.parse s = .ok (f, rest)) :
    nextOn stack s = .ok (some (f, rest)) := by
  obtain ⟨p, rfl⟩ := Frame.reads_check.suffix (Frame.check_of_checkOn h)
  rw [nextOn, h]
  dsimp only
  rw [List.length_append, Nat.add_sub_cancel, List.take_left,
    (Frame.reads_parseOn stack.parse).exact hf]

/-- A turn of the load on a bounded stack is one without a bound. -/
theorem next_of_nextOn (h : nextOn stack s = .ok (some (f, rest))) : next s = .frame f rest := by
  rw [nextOn] at h
  cases hcheck : Frame.checkOn stack.check s with
  | error e =>
    cases e with
    | incomplete => simp [hcheck] at h
    | other e => cases e <;> simp [hcheck] at h
  | ok v =>
    obtain ⟨⟨⟩, r⟩ := v
    rw [hcheck] at h
    dsimp only at h
    cases hparse : Frame.parseOn stack.parse (s.take (s.length - r.length)) with
    | error e =>
      rw [hparse] at h
      cases h
    | ok v =>
      obtain ⟨g, t⟩ := v
      rw [hparse] at h
      cases h
      rw [next, Frame.check_of_checkOn hcheck]
      dsimp only
      rw [Frame.parse_of_parseOn hparse]

end Drivers

/-- The parser does all that the checker's answer promises exactly when every line that it
converts to text, at any depth, is UTF-8, and the stack has room for its calls. -/
theorem check_decides_parse_iff {stack : Stack} {s rest : Bytes}
    (h : Frame.checkOn stack.check s = .ok ((), rest)) :
    Decided stack s rest ↔ Frame.Textual s ∧ Frame.Fits stack.parse s := by
  have hcheck := Frame.check_of_checkOn h
  rw [← Frame.parseOn_iff hcheck stack.parse]
  constructor
  · intro hdecided
    exact hdecided.parses
  · rintro ⟨f, hf⟩
    exact
      { parses := ⟨f, hf⟩
        reserves := fun depth t n hv hn => reserves_of_check hcheck hv hn
        slices := fun depth t n r hv hn => slices_of_check hcheck hv hn
        served := ⟨f, parseFrameOn_of_ok h hf⟩
        loaded := ⟨f, nextOn_of_ok h hf⟩ }

/-- An array of an array with a simple string and of a bulk string, on a stack that holds three
calls of each. -/
theorem nested_decided :
    let s := asBytes "*2\r\n*1\r\n+OK\r\n$1\r\nx\r\n"
    let stack : Stack := { check := 3, parse := 3 }
    Frame.checkOn 3 s = .ok ((), []) ∧ Decided stack s [] ∧ Frame.Textual s ∧
      Frame.Fits 3 s := by
  intro s stack
  have hcheck : Frame.checkOn 3 s = .ok ((), []) := by decide +kernel
  have hparse : Frame.parseOn 3 s =
      .ok (.array [.array [.simple "OK"], .bulk (asBytes "x")], []) := by decide +kernel
  have hfits := (Frame.parseOn_iff (Frame.check_of_checkOn hcheck) 3).mp ⟨_, hparse⟩
  exact ⟨hcheck, (@check_decides_parse_iff stack s [] hcheck).mpr hfits, hfits⟩

/-- `+`, one byte that is no text, and a line terminator: the checker accepts the four bytes,
the parser rejects them, and with it the connection and the load. -/
theorem plus_undecided :
    let s : Bytes := [43, 255, 13, 10]
    let e : FrameError := .other "protocol error; invalid utf8 string"
    (∀ stack : Stack, 0 < stack.check → Frame.checkOn stack.check s = .ok ((), [])) ∧
      (∀ stack, ¬ Decided stack s []) ∧ Frame.parse s = .error e ∧
      Connection.parseFrame s = .error e ∧
      (@load Unicode.ascii (.standard 0 List.length) (fun _ => .reading 0) s Db.empty).1 =
        .err e := by
  intro s e
  have hcheck : Frame.check s = .ok ((), []) := by decide +kernel
  have hparse : Frame.parse s = .error e := by decide +kernel
  have hnext : next s = .fail e := by
    rw [next, hcheck]
    dsimp only
    rw [show s.take (s.length - ([] : Bytes).length) = s from rfl, hparse]
  refine ⟨?_, ?_, hparse, ?_, ?_⟩
  · intro stack hcalls
    obtain ⟨calls, hcalls⟩ := Nat.exists_eq_succ_of_ne_zero (Nat.ne_zero_of_lt hcalls)
    rw [hcalls, Frame.checkOn_of_ne (by decide)]
    exact Frame.onStack_eq_ok.mpr hcheck
  · rintro stack ⟨⟨f, hf⟩, -⟩
    have hsome := Frame.parse_of_parseOn hf
    rw [hparse] at hsome
    cases hsome
  · rw [Connection.parseFrame, hcheck]
    dsimp only
    rw [hparse]
  · rw [@load_eq_replay Unicode.ascii, frames_fail hnext]
    rfl

/-- An integer in so many arrays of one element. -/
def nest : Nat → Bytes
  | 0 => asBytes ":1\r\n"
  | depth + 1 => byte '*' :: (asBytes "1\r\n" ++ nest depth)

theorem getDecimal_one (t : Bytes) : Frame.getDecimal (asBytes "1\r\n" ++ t) = .ok (1, t) :=
  Frame.reads_getDecimal.extend t
    (by decide +kernel : Frame.getDecimal (asBytes "1\r\n") = .ok (1, []))

theorem checkOn_nest {depth calls : Nat} (h : depth < calls) :
    Frame.checkOn calls (nest depth) = .ok ((), []) := by
  induction depth generalizing calls with
  | zero =>
    obtain ⟨calls, rfl⟩ := Nat.exists_eq_succ_of_ne_zero (Nat.ne_zero_of_lt h)
    rw [nest, show asBytes ":1\r\n" = byte ':' :: asBytes "1\r\n" by decide +kernel,
      Frame.checkOn_of_ne (by decide)]
    exact Frame.onStack_eq_ok.mpr (by decide +kernel)
  | succ depth ih =>
    obtain ⟨calls, rfl⟩ := Nat.exists_eq_succ_of_ne_zero (Nat.ne_zero_of_lt h)
    rw [nest, Frame.checkOn_star, bind_ok (Frame.onStack_eq_ok.mpr (getDecimal_one _)),
      if_neg (by decide)]
    show times (Frame.checkOn calls) 1 (nest depth) = _
    rw [times, bind_ok (ih (Nat.lt_of_succ_lt_succ h))]
    rfl

/-- Each array takes one call, and the innermost finds no room. -/
theorem parseOn_nest {depth calls : Nat} (h : calls ≤ depth) :
    Frame.parseOn calls (nest depth) = .error (.other .overflow) := by
  induction calls generalizing depth with
  | zero => rfl
  | succ calls ih =>
    obtain ⟨depth, rfl⟩ := Nat.exists_eq_succ_of_ne_zero (Nat.ne_zero_of_lt h)
    have husize : Frame.onStack (Frame.tryUsize 1) (nest depth) = .ok (1, nest depth) := rfl
    rw [nest, Frame.parseOn_star, bind_ok (Frame.onStack_eq_ok.mpr (getDecimal_one _)),
      bind_ok husize, collect, bind_error (bind_error (ih (Nat.le_of_succ_le_succ h)))]

/-- Wherever the stack holds more calls of `check` than of `parse`, there is a frame that the
checker accepts and the parser overflows the stack on: the connection and the load abort. -/
theorem nest_undecided {stack : Stack} (h : stack.parse < stack.check) :
    Frame.checkOn stack.check (nest stack.parse) = .ok ((), []) ∧
      ¬ Decided stack (nest stack.parse) [] ∧
      Connection.parseFrameOn stack (nest stack.parse) = .error (.other .overflow) ∧
      nextOn stack (nest stack.parse) = .error (.other .overflow) := by
  have hcheck := checkOn_nest h
  have hparse := parseOn_nest (Nat.le_refl stack.parse)
  refine ⟨hcheck, ?_, ?_, ?_⟩
  · rintro ⟨⟨f, hf⟩, -⟩
    rw [hparse] at hf
    cases hf
  · rw [Connection.parseFrameOn, hcheck]
    dsimp only
    rw [hparse]
  · rw [nextOn, hcheck]
    dsimp only
    rw [List.length_nil, Nat.sub_zero, List.take_length, hparse]

end Aof

end InMemoryCache
