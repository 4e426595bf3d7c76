-- SUMMARY: The frame checker and parser are one incremental decoder.
import InMemoryCache.Text
import InMemoryCache.Wire.Frame

/-!
# Laws of the wire format

`check` and `parse` are steady readers that mirror each other, so together they
are an incremental decoder (`decoder`): what it accepts or rejects on a prefix of a
stream it accepts or rejects on the whole stream.
-/

namespace InMemoryCache

open Lib Reader

namespace Frame

-- ---------------------------------------------------------------------------
-- Lines
-- ---------------------------------------------------------------------------

/-- Where a terminator comes first, the line before one is empty. -/
theorem eq_nil_of_crlf_first {s line rest : Bytes} (hs : CR :: LF :: s = line ++ crlf ++ rest)
    (hline : ¬ crlf <:+: line) : line = [] := by
  cases line with
  | nil => rfl
  | cons a line =>
    rw [List.cons_append, List.cons_append, List.cons.injEq] at hs
    obtain ⟨rfl, hs⟩ := hs
    rw [crlf_infix_cons] at hline
    cases line with
    | nil =>
      -- the terminator would follow the byte `\r`
      cases hs
    | cons b line =>
      rw [List.cons_append, List.cons_append, List.cons.injEq] at hs
      exact absurd (.inl ⟨rfl, by rw [← hs.1]; rfl⟩) hline

/-- A line runs up to the first line terminator. -/
theorem getLine_eq_ok {s line rest : Bytes} :
    getLine s = .ok (line, rest) ↔ s = line ++ crlf ++ rest ∧ ¬ crlf <:+: line := by
  induction s generalizing line with
  | nil => simp [getLine, crlf]
  | cons c s ih =>
    rw [getLine]
    by_cases hc : c = CR ∧ s.head? = some LF
    · rw [if_pos hc]
      obtain ⟨rfl, hs⟩ := hc
      obtain ⟨s, rfl⟩ := List.head?_eq_some_iff.mp hs
      constructor
      · intro h
        cases h
        exact ⟨rfl, by simp [crlf]⟩
      · rintro ⟨hs, hline⟩
        obtain rfl := eq_nil_of_crlf_first hs hline
        cases hs
        rfl
    · rw [if_neg hc]
      constructor
      · intro h
        split at h
        · rename_i l r hl
          cases h
          obtain ⟨hs, hl⟩ := ih.mp hl
          refine ⟨by rw [hs]; rfl, ?_⟩
          rw [crlf_infix_cons, not_or]
          refine ⟨fun hstart => hc ⟨hstart.1, ?_⟩, hl⟩
          cases l with
          | nil => cases hstart.2
          | cons a l => simpa [hs] using hstart.2
        · cases h
      · rintro ⟨hs, hline⟩
        cases line with
        | nil =>
          cases hs
          exact absurd ⟨rfl, rfl⟩ hc
        | cons a line =>
          simp only [List.cons_append, List.cons.injEq] at hs
          obtain ⟨rfl, hs⟩ := hs
          rw [crlf_infix_cons, not_or] at hline
          rw [ih.mpr ⟨hs, hline.2⟩]

theorem getLine_eq_error {s : Bytes} {e : FrameError} (h : getLine s = .error e) :
    e = .incomplete := by
  induction s with
  | nil => cases h; rfl
  | cons c s ih =>
    rw [getLine] at h
    split at h
    · cases h
    · split at h
      · cases h
      · rename_i e' he
        cases h
        exact ih he

theorem reads_getLine : Reads 2 getLine where
  suffix h := by
    obtain ⟨rfl, -⟩ := getLine_eq_ok.mp h
    exact List.suffix_append _ _
  consumes h := by
    obtain ⟨rfl, -⟩ := getLine_eq_ok.mp h
    simp only [crlf, List.length_append, List.length_cons, List.length_nil]
    omega
  extend t h := by
    obtain ⟨rfl, hline⟩ := getLine_eq_ok.mp h
    exact getLine_eq_ok.mpr ⟨by simp, hline⟩
  reject t h := by cases getLine_eq_error h
  retry {s t line rest} h ht := by
    obtain ⟨hst, hline⟩ := getLine_eq_ok.mp ht
    by_contra hlen
    -- otherwise the terminator lies within `s`, and `s` already had a line
    have hsuf : t <:+ rest := by
      have hrest : rest <:+ s ++ t := hst ▸ List.suffix_append _ _
      exact List.suffix_of_suffix_length_le (List.suffix_append s t) hrest (by omega)
    obtain ⟨r, rfl⟩ := hsuf
    have hs : s = line ++ crlf ++ r := by
      rw [← List.append_assoc] at hst
      exact List.append_cancel_right hst
    rw [getLine_eq_ok.mpr ⟨hs, hline⟩] at h
    cases h

-- ---------------------------------------------------------------------------
-- The readers are steady
-- ---------------------------------------------------------------------------

theorem reads_getDecimal : Reads 2 getDecimal := by
  refine reads_getLine.bind (n := 0) fun line => ?_
  split
  · exact reads_reject _ _
  · split
    · exact reads_reject _ _
    · exact reads_pure _

theorem reads_checkCrlf : Reads 2 checkCrlf := by
  refine reads_next.bind (n := 1) fun c => ?_
  split
  · exact reads_reject _ _
  · refine reads_next.bind (n := 0) fun c => ?_
    split
    · exact reads_reject _ _
    · exact reads_pure ()

theorem reads_nullLine : Reads 2 nullLine := by
  refine reads_getLine.bind (n := 0) fun line => ?_
  split
  · exact reads_pure ()
  · exact reads_reject _ _

theorem reads_checkBulk : Reads 1 checkBulk := by
  refine reads_peek_bind fun b => ?_
  split
  · exact reads_nullLine.mono (by omega)
  · refine reads_getDecimal.bind_mono (n := 0) (fun len => ?_) (by omega)
    split
    · exact reads_reject _ _
    · exact (reads_ensure_bind ((reads_takeN _).bind fun _ => reads_checkCrlf)).mono (by omega)

theorem reads_utf8 (line : Bytes) : Reads 0 (utf8 line) := by
  rw [utf8]
  split
  · exact reads_reject _ _
  · exact reads_pure _

theorem reads_tryUsize (len : Int64) : Reads 0 (tryUsize len) := by
  rw [tryUsize]
  split
  · exact reads_reject _ _
  · exact reads_pure _

theorem reads_parseBulk : Reads 1 parseBulk := by
  refine reads_peek_bind fun b => ?_
  split
  · exact reads_nullLine.bind_mono (fun _ => reads_pure _) (by omega)
  · refine reads_getDecimal.bind_mono (n := 0) (fun len => ?_) (by omega)
    refine (reads_tryUsize len).bind (n := 0) fun n => ?_
    refine (reads_ensure_bind ((reads_takeN n).bind fun data => ?_)).mono (by omega)
    exact reads_checkCrlf.bind fun _ => reads_pure _

theorem reads_checkStep {elem : Reader UInt8 String Unit} (h : Reads 0 elem) :
    Reads 1 (checkStep elem) := by
  refine reads_peek_bind fun b => ?_
  split
  · exact reads_next.bind_mono (fun _ => reads_getLine.bind fun _ => reads_pure _) (by omega)
  split
  · exact reads_next.bind_mono (fun _ => reads_getLine.bind fun _ => reads_pure _) (by omega)
  split
  · exact reads_next.bind_mono (fun _ => reads_getDecimal.bind fun _ => reads_pure _) (by omega)
  split
  · exact reads_next.bind_mono (fun _ => reads_checkBulk) (by omega)
  split
  · refine reads_next.bind_mono (fun _ => reads_getDecimal.bind (n := 0) fun len => ?_) (by omega)
    split
    · exact reads_reject _ _
    · exact reads_times h _
  · exact reads_getLine.bind_mono (fun _ => reads_pure _) (by omega)

theorem reads_parseStep {elem : Reader UInt8 String Frame} (h : Reads 0 elem) :
    Reads 1 (parseStep elem) := by
  refine reads_peek_bind fun b => ?_
  split
  · exact reads_next.bind_mono (fun _ => reads_getLine.bind fun line =>
      (reads_utf8 line).bind fun _ => reads_pure _) (by omega)
  split
  · exact reads_next.bind_mono (fun _ => reads_getLine.bind fun line =>
      (reads_utf8 line).bind fun _ => reads_pure _) (by omega)
  split
  · exact reads_next.bind_mono (fun _ => reads_getDecimal.bind fun _ => reads_pure _) (by omega)
  split
  · exact reads_next.bind_mono (fun _ => reads_parseBulk) (by omega)
  split
  · refine reads_next.bind_mono (fun _ => reads_getDecimal.bind (n := 0) fun len => ?_) (by omega)
    exact (reads_tryUsize len).bind fun n => (reads_collect h n).bind fun _ => reads_pure _
  · refine reads_getLine.bind_mono (n := 0) (fun line => ?_) (by omega)
    split
    · exact reads_reject _ _
    · exact reads_pure _

theorem reads_checkFuel (fuel : Nat) : Reads 1 (checkFuel fuel) := by
  induction fuel with
  | zero => exact reads_starve 1
  | succ fuel ih => exact reads_checkStep (ih.mono (by omega))

theorem reads_parseFuel (fuel : Nat) : Reads 1 (parseFuel fuel) := by
  induction fuel with
  | zero => exact reads_starve 1
  | succ fuel ih => exact reads_parseStep (ih.mono (by omega))

-- ---------------------------------------------------------------------------
-- The parser mirrors the checker
-- ---------------------------------------------------------------------------

theorem mirrors_utf8 (line : Bytes) (k : String → Frame) :
    Mirrors (pure ()) (utf8 line >>= fun s => pure (k s)) := by
  rw [utf8]
  split
  · exact mirrors_reject _ _
  · exact mirrors_pure _

theorem mirrors_bulk : Mirrors checkBulk parseBulk := by
  refine mirrors_bind fun b => ?_
  split
  · exact mirrors_map _ _
  · refine mirrors_bind fun len => ?_
    rw [tryUsize]
    split
    · exact mirrors_reject _ _
    · rw [pure_bind]
      exact mirrors_bind fun _ => mirrors_bind fun data => mirrors_map _ _

theorem mirrors_step {chk : Reader UInt8 String Unit} {prs : Reader UInt8 String Frame}
    (h : Mirrors chk prs) : Mirrors (checkStep chk) (parseStep prs) := by
  refine mirrors_bind fun b => ?_
  split
  · exact mirrors_bind fun _ => mirrors_bind fun line => mirrors_utf8 line _
  split
  · exact mirrors_bind fun _ => mirrors_bind fun line => mirrors_utf8 line _
  split
  · exact mirrors_bind fun _ => mirrors_bind fun _ => mirrors_pure _
  split
  · exact mirrors_bind fun _ => mirrors_bulk
  split
  · refine mirrors_bind fun _ => mirrors_bind fun len => ?_
    rw [tryUsize]
    split
    · exact mirrors_reject _ _
    · rw [pure_bind, ← bind_pure (times chk _)]
      exact (h.times_collect _).bind fun out => mirrors_pure _
  · refine mirrors_bind fun line => ?_
    split
    · exact mirrors_reject _ _
    · exact mirrors_pure _

theorem mirrors_fuel (fuel : Nat) : Mirrors (checkFuel fuel) (parseFuel fuel) := by
  induction fuel with
  | zero => exact mirrors_starve
  | succ fuel ih => exact mirrors_step ih

-- ---------------------------------------------------------------------------
-- The recursion bound
-- ---------------------------------------------------------------------------

/-- One level of checking looks at elements only on shorter inputs. -/
theorem checkStep_congr {g h : Reader UInt8 String Unit} {s : Bytes} (hg : Reads 0 g)
    (hgh : AgreeBelow s.length g h) : checkStep g s = checkStep h s := by
  cases s with
  | nil => rfl
  | cons b s =>
    show (if b = byte '+' then _ else _ : Reader UInt8 String Unit) (b :: s) =
      (if b = byte '+' then _ else _ : Reader UInt8 String Unit) (b :: s)
    split
    · rfl
    split
    · rfl
    split
    · rfl
    split
    · rfl
    split
    · have hnext : getU8 (b :: s) = .ok (b, s) := rfl
      rw [bind_ok hnext, bind_ok hnext, bind_apply, bind_apply]
      cases hd : getDecimal s with
      | error e => rfl
      | ok v =>
        obtain ⟨len, r⟩ := v
        have hlen := reads_getDecimal.consumes hd
        dsimp only
        split
        · rfl
        · exact times_congr hg hgh _ (by simp only [List.length_cons]; omega)
    · rfl

theorem parseStep_congr {g h : Reader UInt8 String Frame} {s : Bytes} (hg : Reads 0 g)
    (hgh : AgreeBelow s.length g h) : parseStep g s = parseStep h s := by
  cases s with
  | nil => rfl
  | cons b s =>
    show (if b = byte '+' then _ else _ : Reader UInt8 String Frame) (b :: s) =
      (if b = byte '+' then _ else _ : Reader UInt8 String Frame) (b :: s)
    split
    · rfl
    split
    · rfl
    split
    · rfl
    split
    · rfl
    split
    · have hnext : getU8 (b :: s) = .ok (b, s) := rfl
      rw [bind_ok hnext, bind_ok hnext, bind_apply, bind_apply]
      cases hd : getDecimal s with
      | error e => rfl
      | ok v =>
        obtain ⟨len, r⟩ := v
        have hlen := reads_getDecimal.consumes hd
        dsimp only
        rw [bind_apply, bind_apply]
        cases hn : tryUsize len r with
        | error e => rfl
        | ok w =>
          obtain ⟨n, t⟩ := w
          have hn := (reads_tryUsize len).consumes hn
          dsimp only
          rw [bind_apply, bind_apply,
            collect_congr hg hgh n (s := t) (by simp only [List.length_cons]; omega)]
    · rfl

theorem checkFuel_eq_check {fuel : Nat} {s : Bytes} (h : s.length < fuel) :
    checkFuel fuel s = check s :=
  fuel_stable (fun n _ _ => checkStep_congr ((reads_checkFuel n).mono (by omega))) h
    (Nat.lt_succ_self _)

theorem parseFuel_eq_parse {fuel : Nat} {s : Bytes} (h : s.length < fuel) :
    parseFuel fuel s = parse s :=
  fuel_stable (fun n _ _ => parseStep_congr ((reads_parseFuel n).mono (by omega))) h
    (Nat.lt_succ_self _)

/-- The bound never bites: `check` calls itself on the elements of an array. -/
theorem check_eq (s : Bytes) : check s = checkStep check s :=
  checkStep_congr ((reads_checkFuel s.length).mono (by omega)) fun _ ht => checkFuel_eq_check ht

/-- The bound never bites: `parse` calls itself on the elements of an array. -/
theorem parse_eq (s : Bytes) : parse s = parseStep parse s :=
  parseStep_congr ((reads_parseFuel s.length).mono (by omega)) fun _ ht => parseFuel_eq_parse ht

theorem check_plus (s : Bytes) :
    check (byte '+' :: s) = (do let _ ← getLine; pure () : Reader UInt8 String Unit) s := by
  rw [check_eq]
  rfl

theorem check_minus (s : Bytes) :
    check (byte '-' :: s) = (do let _ ← getLine; pure () : Reader UInt8 String Unit) s := by
  rw [check_eq]
  rfl

theorem check_colon (s : Bytes) :
    check (byte ':' :: s) = (do let _ ← getDecimal; pure () : Reader UInt8 String Unit) s := by
  rw [check_eq]
  rfl

theorem check_star (s : Bytes) :
    check (byte '*' :: s) = (do
      let len ← getDecimal
      if len < 0 then reject "negative array length"
      else times check len.toInt.toNat :
        Reader UInt8 String Unit) s := by
  rw [check_eq]
  rfl

theorem check_dollar (s : Bytes) : check (byte '$' :: s) = checkBulk s := by
  rw [check_eq]
  rfl

theorem parse_plus (s : Bytes) :
    parse (byte '+' :: s) = (do let line ← getLine; let t ← utf8 line; pure (.simple t) :
      Reader UInt8 String Frame) s := by
  rw [parse_eq]
  rfl

theorem parse_minus (s : Bytes) :
    parse (byte '-' :: s) = (do let line ← getLine; let t ← utf8 line; pure (.error t) :
      Reader UInt8 String Frame) s := by
  rw [parse_eq]
  rfl

theorem parse_colon (s : Bytes) :
    parse (byte ':' :: s) = (do let i ← getDecimal; pure (.integer i) :
      Reader UInt8 String Frame) s := by
  rw [parse_eq]
  rfl

theorem parse_dollar (s : Bytes) : parse (byte '$' :: s) = parseBulk s := by
  rw [parse_eq]
  rfl

theorem parse_star (s : Bytes) :
    parse (byte '*' :: s) =
      (do let len ← getDecimal; let n ← tryUsize len; let out ← collect parse n; pure (.array out) :
        Reader UInt8 String Frame) s := by
  rw [parse_eq]
  rfl

theorem reads_check : Reads 1 check :=
  reads_of_fuel reads_checkFuel fun _ _ h => (checkFuel_eq_check h).symm

theorem reads_parse : Reads 1 parse :=
  reads_of_fuel reads_parseFuel fun _ _ h => (parseFuel_eq_parse h).symm

theorem mirrors_check_parse : Mirrors check parse where
  follows {s _} h := (mirrors_fuel (s.length + 1)).follows h
  covers {s _ _} h := (mirrors_fuel (s.length + 1)).covers h

/-- The decoder both stream drivers run: check the head of the buffer, then parse it. -/
def decoder : Decoder UInt8 Frame FrameError :=
  checkedDecoder reads_check reads_parse mirrors_check_parse rfl

end Frame

end InMemoryCache
