-- SUMMARY: What glob patterns mean, and what the matcher makes of them.
import InMemoryCache.Glob
import InMemoryCache.Lib.Wildcard

/-!
# What a glob pattern means

A pattern reads, from the left, as a list of pieces: stars, single bytes and classes. A text
matches when it splits into consecutive parts, one for each piece. Each step of `glob_match`
is a step of the wildcard matcher on the pieces' tokens, so it always ends, and its answer is
that meaning, except for one kind of pattern: a negated class that is never closed takes any
byte.
-/

namespace InMemoryCache

open Lib

namespace Glob

-- ---------------------------------------------------------------------------
-- Pieces
-- ---------------------------------------------------------------------------

/-- An item of a class: the bytes from one to another, or one byte. -/
inductive Item where
  | range (first last : UInt8)
  | single (b : UInt8)
  deriving DecidableEq, Repr

def Item.Has : Item → UInt8 → Prop
  | .range first last, c => first ≤ c ∧ c ≤ last
  | .single b, c => c = b

/-- A piece of a pattern. A backslash may end the pattern, and a class may not be closed
before it ends. -/
inductive Piece where
  | star
  | any
  | literal (b : UInt8)
  | loneBackslash
  | cls (negate : Bool) (items : List Item)
  | unclosed (negate : Bool)
  deriving DecidableEq, Repr

/-- The parts of a text that a piece takes. -/
def Piece.Takes : Piece → Bytes → Prop
  | .star, _ => True
  | .any, w => ∃ c, w = [c]
  | .literal b, w => w = [b]
  | .loneBackslash, _ => False
  | .cls false items, w => ∃ c, w = [c] ∧ ∃ i ∈ items, i.Has c
  | .cls true items, w => ∃ c, w = [c] ∧ ¬ ∃ i ∈ items, i.Has c
  | .unclosed _, _ => False

/-- The items of a class up to the `]` that closes it, and the pattern after that. -/
def items : Bytes → Option (List Item × Bytes)
  | [] => none
  | b :: d :: e :: p =>
    if b = byte ']' then some ([], d :: e :: p)
    else if d = byte '-' ∧ e ≠ byte ']' then
      (items p).map fun s => (.range b e :: s.1, s.2)
    else (items (d :: e :: p)).map fun s => (.single b :: s.1, s.2)
  | b :: p =>
    if b = byte ']' then some ([], p)
    else (items p).map fun s => (.single b :: s.1, s.2)

/-- A class whose `[` precedes `p` is negated. -/
def Negates (p : Bytes) : Prop := p.head? = some (byte '^') ∨ p.head? = some (byte '!')

instance (p : Bytes) : Decidable (Negates p) :=
  inferInstanceAs (Decidable (_ ∨ _))

/-- The body of a class whose `[` precedes `p`. -/
def body (p : Bytes) : Bytes := if Negates p then p.tail else p

/-- The piece that starts with the byte `b`, and the pattern after it. -/
def nextPiece (b : UInt8) (p : Bytes) : Piece × Bytes :=
  if b = byte '*' then (.star, p)
  else if b = byte '?' then (.any, p)
  else if b = byte '[' then
    match items (body p) with
    | some s => (.cls (decide (Negates p)) s.1, s.2)
    | none => (.unclosed (decide (Negates p)), [])
  else if b = byte '\\' then
    match p with
    | e :: p => (.literal e, p)
    | [] => (.loneBackslash, [])
  else (.literal b, p)

theorem items_length {p r : Bytes} {is : List Item} (h : items p = some (is, r)) :
    r.length < p.length := by
  fun_induction items p generalizing is r with
  | case1 => cases h
  | case2 d e p =>
    cases h
    exact Nat.lt_succ_self _
  | case3 b d e p _ _ ih =>
    obtain ⟨s, hs, hr⟩ := Option.map_eq_some_iff.mp h
    cases hr
    have hlen := ih hs
    simp only [List.length_cons]
    omega
  | case4 b d e p _ _ ih =>
    obtain ⟨s, hs, hr⟩ := Option.map_eq_some_iff.mp h
    cases hr
    exact Nat.lt_succ_of_lt (ih hs)
  | case5 p =>
    cases h
    exact Nat.lt_succ_self _
  | case6 b p _ _ ih =>
    obtain ⟨s, hs, hr⟩ := Option.map_eq_some_iff.mp h
    cases hr
    exact Nat.lt_succ_of_lt (ih hs)

theorem nextPiece_length (b : UInt8) (p : Bytes) : (nextPiece b p).2.length ≤ p.length := by
  unfold nextPiece
  split
  · exact le_rfl
  split
  · exact le_rfl
  split
  · split
    · rename_i s hs
      have hbody := items_length hs
      dsimp only
      rw [body] at hbody
      split at hbody
      · rw [List.length_tail] at hbody
        omega
      · omega
    · exact Nat.zero_le _
  split
  · cases p with
    | nil => exact le_rfl
    | cons e p => exact Nat.le_succ _
  · exact le_rfl

/-- The pieces of a pattern, from the left. -/
def pieces : Bytes → List Piece
  | [] => []
  | b :: p => (nextPiece b p).1 :: pieces (nextPiece b p).2
termination_by p => p.length
decreasing_by exact Nat.lt_succ_of_le (nextPiece_length b p)

theorem pieces_nil : pieces [] = [] := by rw [pieces]

theorem pieces_cons (b : UInt8) (p : Bytes) :
    pieces (b :: p) = (nextPiece b p).1 :: pieces (nextPiece b p).2 := by rw [pieces]

theorem pieces_of_next {b : UInt8} {p r : Bytes} {x : Piece} {xs : List Piece}
    (hnext : nextPiece b p = (x, r)) (hr : pieces r = xs) : pieces (b :: p) = x :: xs := by
  rw [pieces_cons, hnext, hr]

/-- A text matches a pattern: it is cut into parts that the pieces take, in order. -/
def Matches (pattern text : Bytes) : Prop := Wildcard.Splits Piece.Takes (pieces pattern) text

/-- Every class that opens is closed. -/
def WellFormed (pattern : Bytes) : Prop := ∀ negate, .unclosed negate ∉ pieces pattern

/-- A class that opens after the pieces `before` is not closed. -/
def OpensAfter (pattern : Bytes) (before : List Piece) (negate : Bool) : Prop :=
  pieces pattern = before ++ [.unclosed negate]

/-- An unclosed class takes the rest of the pattern. -/
theorem unclosed_last {pattern : Bytes} {before after : List Piece} {negate : Bool}
    (h : pieces pattern = before ++ .unclosed negate :: after) : after = [] := by
  induction before generalizing pattern with
  | nil =>
    cases pattern with
    | nil => rw [pieces_nil] at h; cases h
    | cons b p =>
      rw [pieces_cons, List.nil_append, List.cons.injEq] at h
      obtain ⟨hpiece, rfl⟩ := h
      have hrest : (nextPiece b p).2 = [] := by
        revert hpiece
        unfold nextPiece
        grind
      rw [hrest, pieces_nil]
  | cons x before ih =>
    cases pattern with
    | nil => rw [pieces_nil] at h; cases h
    | cons b p =>
      rw [pieces_cons, List.cons_append, List.cons.injEq] at h
      exact ih h.2

-- ---------------------------------------------------------------------------
-- Pieces as tokens
-- ---------------------------------------------------------------------------

instance (i : Item) (c : UInt8) : Decidable (i.Has c) :=
  match i with
  | .range first last => inferInstanceAs (Decidable (first ≤ c ∧ c ≤ last))
  | .single b => inferInstanceAs (Decidable (c = b))

/-- What the matcher lets a piece take. It differs from `Piece.Takes` in a negated class that
is not closed. -/
def Piece.token : Piece → Wildcard.Token UInt8
  | .star => .star
  | .any => .one fun _ => true
  | .literal b => .one fun c => b == c
  | .loneBackslash => .one fun _ => false
  | .cls negate items => .one fun c => (items.any fun i => decide (i.Has c)) != negate
  | .unclosed negate => .one fun _ => negate

def tokens (pattern : Bytes) : List (Wildcard.Token UInt8) := (pieces pattern).map Piece.token

theorem tokens_cons (b : UInt8) (p : Bytes) :
    tokens (b :: p) = (nextPiece b p).1.token :: tokens (nextPiece b p).2 := by
  rw [tokens, pieces_cons]
  rfl

def Star.tokens (star : Star) : Wildcard.Star UInt8 := star.map fun s => (Glob.tokens s.1, s.2)

def Position.tokens (s : Position) : Wildcard.Position UInt8 where
  tokens := Glob.tokens s.pattern
  text := s.text
  star := Star.tokens s.star

theorem token_takes {x : Piece} (hx : ∀ negate, x ≠ .unclosed negate) (u : Bytes) :
    x.token.Takes u ↔ x.Takes u := by
  cases x with
  | star => exact Iff.rfl
  | any => simp [Piece.token, Piece.Takes, Wildcard.Token.Takes]
  | literal b => simp [Piece.token, Piece.Takes, Wildcard.Token.Takes]
  | loneBackslash => simp [Piece.token, Piece.Takes, Wildcard.Token.Takes]
  | cls negate items =>
    cases negate <;> simp [Piece.token, Piece.Takes, Wildcard.Token.Takes]
  | unclosed negate => exact absurd rfl (hx negate)

/-- Pieces that are all closed match as their tokens do. -/
theorem splits_tokens {xs : List Piece} (hxs : ∀ negate, .unclosed negate ∉ xs) (w : Bytes) :
    Wildcard.Matches (xs.map Piece.token) w ↔ Wildcard.Splits Piece.Takes xs w := by
  refine Wildcard.splits_map fun x hx u => token_takes (fun negate h => ?_) u
  subst h
  exact hxs negate hx

-- ---------------------------------------------------------------------------
-- The matcher's steps
-- ---------------------------------------------------------------------------

theorem decide_range (first last c : UInt8) :
    decide ((Item.range first last).Has c) = (decide (first ≤ c) && decide (c ≤ last)) :=
  Bool.decide_and ..

theorem decide_single (b c : UInt8) : decide ((Item.single b).Has c) = (b == c) := by
  rw [Bool.eq_iff_iff, decide_eq_true_iff, beq_iff_eq]
  exact eq_comm

/-- A range needs two more bytes, so before the end of the pattern items are single. -/
theorem classBody_short {b : UInt8} {p : Bytes} (c : UInt8) (matched : Bool)
    (hshort : ∀ d e q, p = d :: e :: q → False) :
    classBody c matched (b :: p) =
      if b = byte ']' then (matched, true, p) else classBody c (matched || b == c) p := by
  cases p with
  | nil => rfl
  | cons d p =>
    cases p with
    | nil => rfl
    | cons e p => exact absurd rfl (hshort d e p)

/-- The scan of a class that is closed tests its items. -/
theorem classBody_closed {p r : Bytes} {is : List Item} (c : UInt8) (matched : Bool)
    (h : items p = some (is, r)) :
    classBody c matched p = (matched || is.any fun i => decide (i.Has c), true, r) := by
  fun_induction items p generalizing is r matched with
  | case1 => cases h
  | case2 d e p =>
    cases h
    simp [classBody]
  | case3 b d e p hb hrange ih =>
    obtain ⟨s, hs, hr⟩ := Option.map_eq_some_iff.mp h
    cases hr
    rw [classBody, if_neg hb, if_pos hrange, ih _ hs, List.any_cons, decide_range, Bool.or_assoc]
  | case4 b d e p hb hrange ih =>
    obtain ⟨s, hs, hr⟩ := Option.map_eq_some_iff.mp h
    cases hr
    rw [classBody, if_neg hb, if_neg hrange, ih _ hs, List.any_cons, decide_single, Bool.or_assoc]
  | case5 p hshort =>
    cases h
    rw [classBody_short c matched hshort, if_pos rfl, List.any_nil, Bool.or_false]
  | case6 b p hshort hb ih =>
    obtain ⟨s, hs, hr⟩ := Option.map_eq_some_iff.mp h
    cases hr
    rw [classBody_short c matched hshort, if_neg hb, ih _ hs, List.any_cons, decide_single,
      Bool.or_assoc]

/-- The scan of a class that is not closed runs to the end of the pattern. -/
theorem classBody_open {p : Bytes} (c : UInt8) (matched : Bool) (h : items p = none) :
    (classBody c matched p).2 = (false, []) := by
  fun_induction items p generalizing matched with
  | case1 => rfl
  | case2 d e p => cases h
  | case3 b d e p hb hrange ih =>
    rw [classBody, if_neg hb, if_pos hrange]
    exact ih _ (Option.map_eq_none_iff.mp h)
  | case4 b d e p hb hrange ih =>
    rw [classBody, if_neg hb, if_neg hrange]
    exact ih _ (Option.map_eq_none_iff.mp h)
  | case5 p hshort => cases h
  | case6 b p hshort hb ih =>
    rw [classBody_short c matched hshort, if_neg hb]
    exact ih _ (Option.map_eq_none_iff.mp h)

theorem backtrack_eq (star : Star) :
    Wildcard.backtrack (Star.tokens star) = (backtrack star).map Position.tokens := by
  cases star with
  | none => rfl
  | some s =>
    obtain ⟨p, t⟩ := s
    cases t <;> rfl

/-- A piece that takes one byte is one turn of the loop: the byte is taken, or the matcher
backtracks. -/
theorem step_one {b c : UInt8} {p r text : Bytes} {star : Star} {x : Piece}
    {accepts : UInt8 → Bool} (hnext : nextPiece b p = (x, r)) (hx : x.token = .one accepts)
    (hstep : step (b :: p) c text star =
      if accepts c then some { pattern := r, text := text, star := star } else backtrack star) :
    Wildcard.step (tokens (b :: p)) c text (Star.tokens star) =
      (step (b :: p) c text star).map Position.tokens := by
  rw [tokens_cons, hnext, hstep]
  dsimp only
  rw [hx, Wildcard.step, backtrack_eq]
  cases accepts c <;> rfl

theorem nextPiece_class (p : Bytes) :
    nextPiece (byte '[') p = match items (body p) with
      | some s => (.cls (decide (Negates p)) s.1, s.2)
      | none => (.unclosed (decide (Negates p)), []) := rfl

theorem step_class_eq (p : Bytes) (c : UInt8) (text : Bytes) (star : Star) :
    step (byte '[' :: p) c text star =
      let s := classBody c false (body p)
      if (s.1 && s.2.1) ≠ decide (Negates p) then
        some { pattern := s.2.2, text := text, star := star }
      else backtrack star := rfl

/-- A class is one token, whether it is closed or not. -/
theorem step_class {c : UInt8} {p text : Bytes} {star : Star} :
    Wildcard.step (tokens (byte '[' :: p)) c text (Star.tokens star) =
      (step (byte '[' :: p) c text star).map Position.tokens := by
  cases hitems : items (body p) with
  | some s =>
    refine step_one (x := .cls (decide (Negates p)) s.1) (r := s.2) ?_ rfl ?_
    · rw [nextPiece_class, hitems]
    · rw [step_class_eq, classBody_closed c false hitems]
      simp only [Bool.false_or, Bool.and_true, bne_iff_ne]
  | none =>
    refine step_one (x := .unclosed (decide (Negates p))) (r := []) ?_ rfl ?_
    · rw [nextPiece_class, hitems]
    · have hopen := classBody_open c false hitems
      rw [step_class_eq]
      dsimp only
      rw [hopen]
      cases decide (Negates p) <;> simp

/-- Each turn of the loop is a step of the matcher on tokens. -/
theorem step_eq (pattern : Bytes) (c : UInt8) (text : Bytes) (star : Star) :
    Wildcard.step (tokens pattern) c text (Star.tokens star) =
      (step pattern c text star).map Position.tokens := by
  cases pattern with
  | nil =>
    rw [tokens, pieces_nil]
    exact backtrack_eq star
  | cons b p =>
    by_cases hstar : b = byte '*'
    · subst hstar
      rw [tokens_cons]
      rfl
    by_cases hany : b = byte '?'
    · subst hany
      exact step_one (x := .any) rfl rfl rfl
    by_cases hclass : b = byte '['
    · subst hclass
      exact step_class
    by_cases hslash : b = byte '\\'
    · subst hslash
      cases p with
      | nil => exact step_one (x := .loneBackslash) rfl rfl rfl
      | cons e p =>
        refine step_one (x := .literal e) rfl rfl ?_
        rw [if_congr beq_iff_eq rfl rfl]
        rfl
    · refine step_one (x := .literal b) (r := p) ?_ rfl ?_
      · unfold nextPiece
        rw [if_neg hstar, if_neg hany, if_neg hclass, if_neg hslash]
      · unfold step
        dsimp only
        rw [if_neg hstar, if_neg hany, if_neg hclass, if_neg hslash, if_congr beq_iff_eq rfl rfl]

-- ---------------------------------------------------------------------------
-- The loop
-- ---------------------------------------------------------------------------

/-- The loop of `glob_match` without a bound: it comes to the end of the text, where the stars
are skipped, or it returns `false` from within. -/
inductive Runs : Bytes → Bytes → Star → Bool → Prop
  | done (pattern : Bytes) (star : Star) :
      Runs pattern [] star (pattern.dropWhile (· = byte '*')).isEmpty
  | fail {pattern text : Bytes} {c : UInt8} {star : Star} :
      step pattern c text star = none → Runs pattern (c :: text) star false
  | next {pattern text : Bytes} {c : UInt8} {star : Star} {s : Position} {b : Bool} :
      step pattern c text star = some s → Runs s.pattern s.text s.star b →
        Runs pattern (c :: text) star b

/-- The loop has one answer. -/
theorem Runs.unique {pattern text : Bytes} {star : Star} {b b' : Bool}
    (h : Runs pattern text star b) (h' : Runs pattern text star b') : b = b' := by
  induction h with
  | done pattern star =>
    cases h'
    rfl
  | fail hstep =>
    cases h' with
    | fail => rfl
    | next hstep' =>
      rw [hstep] at hstep'
      cases hstep'
  | next hstep _ ih =>
    cases h' with
    | fail hstep' =>
      rw [hstep] at hstep'
      cases hstep'
    | next hstep' hrun =>
      rw [hstep] at hstep'
      cases hstep'
      exact ih hrun

/-- After the text the loop skips stars, and nothing else may be left. -/
theorem skipStars_eq (pattern : Bytes) :
    (pattern.dropWhile (· = byte '*')).isEmpty =
      (tokens pattern).all Wildcard.Token.isStar := by
  induction pattern with
  | nil =>
    rw [tokens, pieces_nil]
    rfl
  | cons b p ih =>
    rw [tokens_cons]
    by_cases hstar : b = byte '*'
    · subst hstar
      rw [List.dropWhile_cons_of_pos (by simp), ih]
      rfl
    · have hone : (nextPiece b p).1.token.isStar = false := by
        unfold nextPiece
        rw [if_neg hstar]
        split
        · rfl
        split
        · split <;> rfl
        split
        · split <;> rfl
        · rfl
      rw [List.dropWhile_cons_of_neg (by simpa using hstar), List.all_cons, hone]
      rfl

theorem loop_eq (fuel : Nat) (pattern text : Bytes) (star : Star) :
    loop fuel pattern text star =
      Wildcard.loop fuel (tokens pattern) text (Star.tokens star) := by
  induction fuel generalizing pattern text star with
  | zero => rfl
  | succ fuel ih =>
    cases text with
    | nil => exact skipStars_eq pattern
    | cons c text =>
      rw [loop, Wildcard.loop, step_eq]
      cases step pattern c text star with
      | none => rfl
      | some s => exact ih s.pattern s.text s.star

/-- A run on tokens is a run of the loop. -/
theorem runs_of_tokens {pattern text : Bytes} {star : Star} {b : Bool}
    (h : Wildcard.Runs (tokens pattern) text (Star.tokens star) b) :
    Runs pattern text star b := by
  generalize hps : tokens pattern = ps at h
  generalize hs : Star.tokens star = s at h
  induction h generalizing pattern star with
  | done ps s =>
    subst hps
    rw [← skipStars_eq]
    exact .done pattern star
  | stuck hstep =>
    subst hps hs
    rw [step_eq] at hstep
    exact .fail (Option.map_eq_none_iff.mp hstep)
  | next hstep _ ih =>
    subst hps hs
    rw [step_eq] at hstep
    obtain ⟨s, hs, rfl⟩ := Option.map_eq_some_iff.mp hstep
    exact .next hs (ih rfl rfl)

theorem pieces_length (pattern : Bytes) : (pieces pattern).length ≤ pattern.length := by
  fun_induction pieces pattern with
  | case1 => exact le_rfl
  | case2 b p ih => exact Nat.succ_le_succ (ih.trans (nextPiece_length b p))

/-- `glob_match` ends, and tells whether the tokens of the pattern match the text. -/
theorem globMatch_spec (pattern text : Bytes) :
    Runs pattern text none (globMatch pattern text) ∧
      (globMatch pattern text = true ↔ Wildcard.Matches (tokens pattern) text) := by
  have hlen : (tokens pattern).length ≤ pattern.length := by
    rw [tokens, List.length_map]
    exact pieces_length pattern
  have hfuel : (text.length + 1) * ((tokens pattern).length + 1) ≤
      (text.length + 1) * (pattern.length + 1) + 1 :=
    (Nat.mul_le_mul_left _ (Nat.succ_le_succ hlen)).trans (Nat.le_succ _)
  obtain ⟨hrun, hiff⟩ := Wildcard.loop_spec hfuel
  have hloop := loop_eq ((text.length + 1) * (pattern.length + 1) + 1) pattern text none
  rw [globMatch, hloop]
  exact ⟨runs_of_tokens hrun, hiff⟩

-- ---------------------------------------------------------------------------
-- Patterns and their meaning
-- ---------------------------------------------------------------------------

/-- Where every class is closed, the loop ends with the meaning of the pattern. -/
theorem globMatch_iff {pattern : Bytes} (h : WellFormed pattern) (text : Bytes) :
    (∀ b, Runs pattern text none b ↔ b = globMatch pattern text) ∧
      (globMatch pattern text = true ↔ Matches pattern text) := by
  obtain ⟨hrun, hiff⟩ := globMatch_spec pattern text
  refine ⟨fun b => ⟨fun hb => hb.unique hrun, fun hb => hb ▸ hrun⟩, ?_⟩
  rw [hiff]
  exact splits_tokens h text

/-- `h[^a-c]*\\*` has a negated class, a star and an escape. -/
theorem globMatch_class :
    let pattern := asBytes "h[^a-c]*\\*"
    WellFormed pattern ∧
      (∀ b, Runs pattern (asBytes "hello*") none b ↔ b = globMatch pattern (asBytes "hello*")) ∧
      (globMatch pattern (asBytes "hello*") = true ↔ Matches pattern (asBytes "hello*")) := by
  intro pattern
  have hpieces : pieces pattern = [.literal (byte 'h'),
      .cls true [.range (byte 'a') (byte 'c')], .star, .literal (byte '*')] := by
    have hbytes : pattern = [byte 'h', byte '[', byte '^', byte 'a', byte '-', byte 'c',
        byte ']', byte '*', byte '\\', byte '*'] := by decide +kernel
    rw [hbytes]
    exact pieces_of_next rfl (pieces_of_next rfl (pieces_of_next rfl
      (pieces_of_next rfl pieces_nil)))
  have h : WellFormed pattern := by
    rw [WellFormed, hpieces]
    simp
  exact ⟨h, globMatch_iff h _⟩

/-- A pattern that is not well formed ends in the class that is not closed. -/
theorem exists_opensAfter {pattern : Bytes} :
    ¬ WellFormed pattern ↔ ∃ before negate, OpensAfter pattern before negate := by
  simp only [WellFormed, not_forall, not_not]
  constructor
  · rintro ⟨negate, hmem⟩
    obtain ⟨before, after, h⟩ := List.append_of_mem hmem
    obtain rfl := unclosed_last h
    exact ⟨before, negate, h⟩
  · rintro ⟨before, negate, h⟩
    exact ⟨negate, by rw [h]; simp⟩

/-- A pattern with a class that is not closed matches nothing, unless the class is negated and
the pieces before it take all of the text but one byte. -/
theorem unclosed_iff {pattern : Bytes} {before : List Piece} {negate : Bool}
    (h : OpensAfter pattern before negate) (text : Bytes) :
    globMatch pattern text = false ↔
      negate = false ∨
        ¬ ∃ init c, text = init ++ [c] ∧ Wildcard.Splits Piece.Takes before init := by
  have hbefore : ∀ n, .unclosed n ∉ before := by
    intro n hmem
    obtain ⟨pre, post, rfl⟩ := List.append_of_mem hmem
    rw [OpensAfter, List.append_assoc, List.cons_append] at h
    exact List.append_ne_nil_of_right_ne_nil post (List.cons_ne_nil _ _) (unclosed_last h)
  rw [Bool.eq_false_iff, Ne, (globMatch_spec pattern text).2, tokens, h, List.map_append,
    Wildcard.Matches, Wildcard.splits_append]
  cases negate with
  | false =>
    refine iff_of_true ?_ (.inl rfl)
    rintro ⟨u, v, -, -, hv⟩
    obtain ⟨c, -, hc⟩ := Wildcard.matches_singleton.mp hv
    cases hc
  | true =>
    rw [or_iff_right (Bool.eq_false_iff.not.mpr (not_not.mpr rfl))]
    refine not_congr ⟨?_, ?_⟩
    · rintro ⟨u, v, rfl, hu, hv⟩
      obtain ⟨c, rfl, -⟩ := Wildcard.matches_singleton.mp hv
      exact ⟨u, c, rfl, (splits_tokens hbefore u).mp hu⟩
    · rintro ⟨init, c, rfl, hinit⟩
      exact ⟨init, [c], rfl, (splits_tokens hbefore init).mpr hinit,
        Wildcard.matches_singleton.mpr ⟨c, rfl, rfl⟩⟩

/-- A star and a plain class that is not closed. -/
theorem unclosed_plain :
    OpensAfter (asBytes "*[ab") [.star] false ∧
      (globMatch (asBytes "*[ab") (asBytes "ba") = false ↔
        false = false ∨
          ¬ ∃ init c, asBytes "ba" = init ++ [c] ∧ Wildcard.Splits Piece.Takes [.star] init) := by
  have h : OpensAfter (asBytes "*[ab") [.star] false := by
    have hbytes : asBytes "*[ab" = [byte '*', byte '[', byte 'a', byte 'b'] := by decide +kernel
    rw [OpensAfter, hbytes]
    exact pieces_of_next rfl (pieces_of_next rfl pieces_nil)
  exact ⟨h, unclosed_iff h _⟩

/-- The negated class in `[^a` is not closed, and the pattern matches `b`. -/
theorem unclosed_matches :
    OpensAfter (asBytes "[^a") [] true ∧ globMatch (asBytes "[^a") (asBytes "b") = true := by
  refine ⟨?_, by decide +kernel⟩
  have hbytes : asBytes "[^a" = [byte '[', byte '^', byte 'a'] := by decide +kernel
  rw [OpensAfter, hbytes]
  exact pieces_of_next rfl pieces_nil

end Glob

end InMemoryCache
