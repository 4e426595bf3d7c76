-- SUMMARY: Wildcard patterns, and a matcher that remembers only the last star.
import Mathlib.Data.List.Infix
import Mathlib.Data.List.Forall2

/-!
# Wildcard patterns

A pattern is a list of tokens, and it matches a text that splits into consecutive pieces,
one for each token. Over any alphabet a token is a star, which takes any piece, or takes one
letter that it accepts. The matcher walks pattern and text together; at a star it lets the
star take nothing, and where it gets stuck it returns to the last star, which takes one more
letter. Earlier stars are forgotten: whatever they could still take, the last star can take
instead (`Runs.iff`).
-/

namespace Lib

namespace Wildcard

/-! ## Splitting a text -/

section Splits

variable {τ σ α : Type} {takes : τ → List α → Prop}

/-- The text is cut into consecutive pieces, one for each token. -/
def Splits (takes : τ → List α → Prop) (ps : List τ) (w : List α) : Prop :=
  ∃ parts, List.Forall₂ takes ps parts ∧ parts.flatten = w

theorem splits_nil {w : List α} : Splits takes [] w ↔ w = [] := by
  constructor
  · rintro ⟨parts, hparts, rfl⟩
    cases hparts
    rfl
  · rintro rfl
    exact ⟨[], .nil, rfl⟩

theorem splits_cons {p : τ} {ps : List τ} {w : List α} :
    Splits takes (p :: ps) w ↔ ∃ u v, u ++ v = w ∧ takes p u ∧ Splits takes ps v := by
  constructor
  · rintro ⟨parts, hparts, rfl⟩
    cases hparts with
    | cons hp hps => exact ⟨_, _, rfl, hp, _, hps, rfl⟩
  · rintro ⟨u, v, rfl, hp, parts, hps, rfl⟩
    exact ⟨u :: parts, .cons hp hps, rfl⟩

theorem splits_append {ps qs : List τ} {w : List α} :
    Splits takes (ps ++ qs) w ↔ ∃ u v, u ++ v = w ∧ Splits takes ps u ∧ Splits takes qs v := by
  induction ps generalizing w with
  | nil => simp [splits_nil]
  | cons p ps ih =>
    rw [List.cons_append, splits_cons]
    constructor
    · rintro ⟨u, v, rfl, hp, hv⟩
      obtain ⟨v₁, v₂, rfl, hps, hqs⟩ := ih.mp hv
      exact ⟨u ++ v₁, v₂, List.append_assoc .., splits_cons.mpr ⟨u, v₁, rfl, hp, hps⟩, hqs⟩
    · rintro ⟨u, v, rfl, hu, hqs⟩
      obtain ⟨u₁, u₂, rfl, hp, hps⟩ := splits_cons.mp hu
      exact ⟨u₁, u₂ ++ v, (List.append_assoc ..).symm, hp, ih.mpr ⟨u₂, v, rfl, hps, hqs⟩⟩

/-- Tokens may be renamed where the meaning is kept. -/
theorem splits_map {takes' : σ → List α → Prop} {f : τ → σ} {ps : List τ} {w : List α}
    (hf : ∀ p ∈ ps, ∀ u, takes' (f p) u ↔ takes p u) :
    Splits takes' (ps.map f) w ↔ Splits takes ps w := by
  induction ps generalizing w with
  | nil => rw [List.map_nil, splits_nil, splits_nil]
  | cons p ps ih =>
    have hps : ∀ q ∈ ps, ∀ u, takes' (f q) u ↔ takes q u := fun q hq =>
      hf q (List.mem_cons_of_mem p hq)
    rw [List.map_cons, splits_cons, splits_cons]
    refine exists₂_congr fun u v => and_congr_right fun _ => ?_
    exact and_congr (hf p (List.mem_cons_self ..) u) (ih hps)

end Splits

/-! ## Tokens and their matcher -/

variable {α : Type}

/-- A token takes any piece, or one letter that it accepts. -/
inductive Token (α : Type) where
  | star
  | one (accepts : α → Bool)

namespace Token

def Takes : Token α → List α → Prop
  | .star, _ => True
  | .one accepts, u => ∃ c, u = [c] ∧ accepts c = true

def isStar : Token α → Bool
  | .star => true
  | .one _ => false

end Token

/-- The whole text is matched by the pattern. -/
def Matches (ps : List (Token α)) (w : List α) : Prop := Splits Token.Takes ps w

/-- The last star: the pattern after it, and the text from where its piece starts. -/
abbrev Star (α : Type) := Option (List (Token α) × List α)

/-- Where the matcher stands. -/
structure Position (α : Type) where
  tokens : List (Token α)
  text : List α
  star : Star α

/-- Return to the last star and let it take one more letter. -/
def backtrack : Star α → Option (Position α)
  | some (ps, _ :: w) => some { tokens := ps, text := w, star := some (ps, w) }
  | _ => none

/-- One step at the letter `c`. -/
def step (ps : List (Token α)) (c : α) (w : List α) (star : Star α) : Option (Position α) :=
  match ps with
  | [] => backtrack star
  | .star :: ps => some { tokens := ps, text := c :: w, star := some (ps, c :: w) }
  | .one accepts :: ps =>
    if accepts c then some { tokens := ps, text := w, star := star } else backtrack star

/-- The matcher stops with an answer: at the end of the text, where only stars may be left, or
where it is stuck and no star can take more. -/
inductive Runs : List (Token α) → List α → Star α → Bool → Prop
  | done (ps : List (Token α)) (star : Star α) : Runs ps [] star (ps.all Token.isStar)
  | stuck {ps : List (Token α)} {c : α} {w : List α} {star : Star α} :
      step ps c w star = none → Runs ps (c :: w) star false
  | next {ps : List (Token α)} {c : α} {w : List α} {star : Star α} {s : Position α} {b : Bool} :
      step ps c w star = some s → Runs s.tokens s.text s.star b → Runs ps (c :: w) star b

/-- The matcher with a bound on the number of steps. -/
def loop : Nat → List (Token α) → List α → Star α → Bool
  | 0, _, _, _ => false
  | _ + 1, ps, [], _ => ps.all Token.isStar
  | fuel + 1, ps, c :: w, star =>
    match step ps c w star with
    | some s => loop fuel s.tokens s.text s.star
    | none => false

/-! ## Matching, token by token -/

theorem matches_nil {w : List α} : Matches [] w ↔ w = [] := splits_nil

theorem matches_star {ps : List (Token α)} {w : List α} :
    Matches (.star :: ps) w ↔ ∃ u v, u ++ v = w ∧ Matches ps v := by
  rw [Matches, splits_cons]
  simp only [Token.Takes, true_and]
  rfl

theorem matches_one_cons {accepts : α → Bool} {ps : List (Token α)} {c : α} {w : List α} :
    Matches (.one accepts :: ps) (c :: w) ↔ accepts c = true ∧ Matches ps w := by
  rw [Matches, splits_cons]
  constructor
  · rintro ⟨u, v, hw, ⟨d, rfl, hd⟩, hv⟩
    cases hw
    exact ⟨hd, hv⟩
  · rintro ⟨hc, hw⟩
    exact ⟨[c], w, rfl, ⟨c, rfl, hc⟩, hw⟩

theorem matches_singleton {accepts : α → Bool} {w : List α} :
    Matches [.one accepts] w ↔ ∃ c, w = [c] ∧ accepts c = true := by
  rw [Matches, splits_cons]
  constructor
  · rintro ⟨u, v, rfl, ⟨c, rfl, hc⟩, hv⟩
    exact ⟨c, by rw [splits_nil.mp hv]; rfl, hc⟩
  · rintro ⟨c, rfl, hc⟩
    exact ⟨[c], [], rfl, ⟨c, rfl, hc⟩, splits_nil.mpr rfl⟩

/-- At the end of the text only stars match. -/
theorem matches_end {ps : List (Token α)} :
    ps.all Token.isStar = true ↔ Matches ps ([] : List α) := by
  induction ps with
  | nil => exact iff_of_true rfl (matches_nil.mpr rfl)
  | cons p ps ih =>
    rw [List.all_cons, Bool.and_eq_true, ih]
    cases p with
    | star =>
      rw [matches_star]
      constructor
      · rintro ⟨-, h⟩
        exact ⟨[], [], rfl, h⟩
      · rintro ⟨u, v, huv, h⟩
        obtain ⟨-, rfl⟩ := List.append_eq_nil_iff.mp huv
        exact ⟨rfl, h⟩
    | one accepts =>
      refine iff_of_false (fun h => Bool.false_ne_true h.1) ?_
      rw [Matches, splits_cons]
      rintro ⟨u, v, huv, ⟨c, rfl, -⟩, -⟩
      cases huv

/-- Tokens that are no stars take one letter each. -/
theorem length_of_matches {ps : List (Token α)} {w : List α}
    (hps : ∀ p ∈ ps, p.isStar = false) (h : Matches ps w) : w.length = ps.length := by
  induction ps generalizing w with
  | nil => simp [matches_nil.mp h]
  | cons p ps ih =>
    have htail : ∀ q ∈ ps, q.isStar = false := fun q hq => hps q (List.mem_cons_of_mem p hq)
    obtain ⟨u, v, rfl, hp, hv⟩ := splits_cons.mp h
    cases p with
    | star => cases hps .star (List.mem_cons_self ..)
    | one accepts =>
      obtain ⟨c, rfl, -⟩ := hp
      rw [List.singleton_append, List.length_cons, List.length_cons, ih htail hv]

/-- A star in front can take what lies before the rest of the text. -/
theorem matches_star_of_suffix {ps : List (Token α)} {v w : List α} (hv : v <:+ w)
    (h : Matches (.star :: ps) v) : Matches (.star :: ps) w := by
  obtain ⟨t, rfl⟩ := hv
  obtain ⟨u, x, rfl, hx⟩ := matches_star.mp h
  exact matches_star.mpr ⟨t ++ u, x, List.append_assoc .., hx⟩

/-! ## What the last star can still reach -/

/-- The last star can take at least one letter more, so that the rest matches. -/
def Retry : Star α → Prop
  | none => False
  | some (ps, w) => ∃ u v, u ≠ [] ∧ u ++ v = w ∧ Matches ps v

/-- Since the last star the matcher has passed tokens that are no stars, one for each letter. -/
def Tracks (star : Star α) (ps : List (Token α)) (w : List α) : Prop :=
  ∀ qs v, star = some (qs, v) → ∃ pre us, qs = pre ++ ps ∧ v = us ++ w ∧
    us.length = pre.length ∧ ∀ p ∈ pre, p.isStar = false

theorem tracks_none (ps : List (Token α)) (w : List α) : Tracks none ps w := by
  intro qs v h
  cases h

theorem tracks_self (ps : List (Token α)) (w : List α) : Tracks (some (ps, w)) ps w := by
  intro qs v h
  cases h
  exact ⟨[], [], rfl, rfl, rfl, fun p hp => absurd hp List.not_mem_nil⟩

theorem Tracks.one {star : Star α} {accepts : α → Bool} {ps : List (Token α)} {c : α}
    {w : List α} (h : Tracks star (.one accepts :: ps) (c :: w)) : Tracks star ps w := by
  intro qs v hstar
  obtain ⟨pre, us, rfl, rfl, hlen, hpre⟩ := h qs v hstar
  refine ⟨pre ++ [.one accepts], us ++ [c], by simp, by simp, by simp [hlen], fun p hp => ?_⟩
  rcases List.mem_append.mp hp with hp | hp
  · exact hpre p hp
  · rw [List.mem_singleton.mp hp]
    rfl

/-- Taking one letter more is a match from there, or a later retry. -/
theorem retry_cons {ps : List (Token α)} {c : α} {w : List α} :
    Retry (some (ps, c :: w)) ↔ Matches ps w ∨ Retry (some (ps, w)) := by
  constructor
  · rintro ⟨u, v, hu, huv, hv⟩
    cases u with
    | nil => exact absurd rfl hu
    | cons d u =>
      obtain ⟨-, rfl⟩ := List.cons.inj huv
      cases u with
      | nil => exact .inl hv
      | cons e u => exact .inr ⟨e :: u, v, List.cons_ne_nil e u, rfl, hv⟩
  · rintro (h | ⟨u, v, hu, rfl, hv⟩)
    · exact ⟨[c], w, List.cons_ne_nil c [], rfl, h⟩
    · exact ⟨c :: u, v, List.cons_ne_nil c u, rfl, hv⟩

/-- A star that is reached, taking nothing or more, is a star in front of the text. -/
theorem matches_or_retry {ps : List (Token α)} {w : List α} :
    Matches ps w ∨ Retry (some (ps, w)) ↔ Matches (.star :: ps) w := by
  rw [matches_star]
  constructor
  · rintro (h | ⟨u, v, -, huv, hv⟩)
    · exact ⟨[], w, rfl, h⟩
    · exact ⟨u, v, huv, hv⟩
  · rintro ⟨u, v, rfl, hv⟩
    cases u with
    | nil => exact .inl hv
    | cons c u => exact .inr ⟨c :: u, v, List.cons_ne_nil c u, rfl, hv⟩

/-- After a retry, the tokens passed since the last star take as many letters as before, so
less of the text is left for the rest of the pattern. -/
theorem Tracks.of_retry {star : Star α} {ps : List (Token α)} {w : List α}
    (h : Tracks star ps w) (hr : Retry star) :
    ∃ v, v <:+ w ∧ v.length < w.length ∧ Matches ps v := by
  cases star with
  | none => cases hr
  | some s =>
    obtain ⟨qs, v⟩ := s
    obtain ⟨pre, us, rfl, rfl, hlen, hpre⟩ := h qs v rfl
    obtain ⟨u, v', hu, huv, hmatch⟩ := hr
    obtain ⟨v₁, v₂, rfl, h₁, h₂⟩ := splits_append.mp hmatch
    have hv₁ : v₁.length = pre.length := length_of_matches hpre h₁
    have hpos := List.length_pos_iff.mpr hu
    have hlens := congrArg List.length huv
    simp only [List.length_append] at hlens
    have hsuffix : v₂ <:+ us ++ w := ⟨u ++ v₁, by rw [← huv, List.append_assoc]⟩
    exact ⟨v₂, List.suffix_of_suffix_length_le hsuffix (List.suffix_append us w) (by omega),
      by omega, h₂⟩

/-- A later star makes the earlier one unnecessary. -/
theorem Tracks.star_of_retry {star : Star α} {ps : List (Token α)} {w : List α}
    (h : Tracks star (.star :: ps) w) (hr : Retry star) : Matches (.star :: ps) w := by
  obtain ⟨v, hv, -, hmatch⟩ := h.of_retry hr
  exact matches_star_of_suffix hv hmatch

/-- At the end of the text there is no retry: too few letters would be left. -/
theorem Tracks.not_retry {star : Star α} {ps : List (Token α)} (h : Tracks star ps []) :
    ¬ Retry star := by
  intro hr
  obtain ⟨v, -, hlen, -⟩ := h.of_retry hr
  exact absurd hlen (Nat.not_lt_zero _)

/-! ## One step -/

/-- Where the matcher backtracks: at the end of the pattern, or at a token that does not
accept the letter. -/
def Stuck : List (Token α) → α → Prop
  | [], _ => True
  | .star :: _, _ => False
  | .one accepts :: _, c => accepts c = false

theorem step_stuck {ps : List (Token α)} {c : α} {w : List α} {star : Star α}
    (h : Stuck ps c) : step ps c w star = backtrack star := by
  cases ps with
  | nil => rfl
  | cons p ps =>
    cases p with
    | star => cases h
    | one accepts => exact if_neg (Bool.eq_false_iff.mp h)

theorem not_matches_of_stuck {ps : List (Token α)} {c : α} {w : List α} (h : Stuck ps c) :
    ¬ Matches ps (c :: w) := by
  cases ps with
  | nil =>
    intro hm
    cases matches_nil.mp hm
  | cons p ps =>
    cases p with
    | star => cases h
    | one accepts =>
      intro hm
      exact Bool.eq_false_iff.mp h (matches_one_cons.mp hm).1

/-- A step passes a star, takes a letter, or backtracks. -/
theorem step_cases (ps : List (Token α)) (c : α) :
    (∃ qs, ps = .star :: qs) ∨ (∃ accepts qs, ps = .one accepts :: qs ∧ accepts c = true) ∨
      Stuck ps c := by
  cases ps with
  | nil => exact .inr (.inr trivial)
  | cons p ps =>
    cases p with
    | star => exact .inl ⟨ps, rfl⟩
    | one accepts =>
      cases hc : accepts c with
      | true => exact .inr (.inl ⟨accepts, ps, rfl, hc⟩)
      | false => exact .inr (.inr hc)

/-- A star that is still tracked has text to take while there is text to match. -/
theorem Tracks.backtrack_eq {star : Star α} {ps : List (Token α)} {c : α} {w : List α}
    (h : Tracks star ps (c :: w)) :
    star = none ∧ backtrack star = none ∨ ∃ qs d v, star = some (qs, d :: v) ∧
      backtrack star = some { tokens := qs, text := v, star := some (qs, v) } := by
  cases star with
  | none => exact .inl ⟨rfl, rfl⟩
  | some s =>
    obtain ⟨qs, v⟩ := s
    obtain ⟨pre, us, -, rfl, -, -⟩ := h qs v rfl
    cases us with
    | nil => exact .inr ⟨qs, c, w, rfl, rfl⟩
    | cons d us => exact .inr ⟨qs, d, us ++ c :: w, rfl, rfl⟩

/-- Where no step is possible, nothing matches. -/
theorem step_none {ps : List (Token α)} {c : α} {w : List α} {star : Star α}
    (ht : Tracks star ps (c :: w)) (h : step ps c w star = none) :
    ¬ (Matches ps (c :: w) ∨ Retry star) := by
  rcases step_cases ps c with ⟨qs, rfl⟩ | ⟨accepts, qs, rfl, hc⟩ | hstuck
  · cases h
  · rw [step, if_pos hc] at h
    cases h
  · rw [step_stuck hstuck] at h
    rcases ht.backtrack_eq with ⟨rfl, -⟩ | ⟨qs, d, v, -, hback⟩
    · exact not_or.mpr ⟨not_matches_of_stuck hstuck, fun hr => hr⟩
    · rw [h] at hback
      cases hback

/-- A step keeps what can be matched from the position, by the pattern or by a retry. -/
theorem step_some {ps : List (Token α)} {c : α} {w : List α} {star : Star α} {s : Position α}
    (ht : Tracks star ps (c :: w)) (h : step ps c w star = some s) :
    Tracks s.star s.tokens s.text ∧
      (Matches s.tokens s.text ∨ Retry s.star ↔ Matches ps (c :: w) ∨ Retry star) := by
  rcases step_cases ps c with ⟨qs, rfl⟩ | ⟨accepts, qs, rfl, hc⟩ | hstuck
  · cases h
    refine ⟨tracks_self qs (c :: w), ?_⟩
    rw [matches_or_retry]
    exact ⟨.inl, fun h => h.elim id ht.star_of_retry⟩
  · rw [step, if_pos hc] at h
    cases h
    refine ⟨ht.one, ?_⟩
    rw [matches_one_cons, and_iff_right hc]
  · rw [step_stuck hstuck] at h
    rcases ht.backtrack_eq with ⟨-, hback⟩ | ⟨qs, d, v, rfl, hback⟩
    · rw [h] at hback
      cases hback
    · rw [h] at hback
      cases hback
      refine ⟨tracks_self qs v, ?_⟩
      rw [or_iff_right (not_matches_of_stuck hstuck), retry_cons]

/-- The answer of the matcher: whether the pattern matches from where it stands, or after the
last star takes more. By induction on the run. -/
theorem Runs.iff {ps : List (Token α)} {w : List α} {star : Star α} {b : Bool}
    (h : Runs ps w star b) (ht : Tracks star ps w) : b = true ↔ Matches ps w ∨ Retry star := by
  induction h with
  | done ps star => rw [matches_end, or_iff_left ht.not_retry]
  | stuck hstep => exact iff_of_false Bool.false_ne_true (step_none ht hstep)
  | next hstep _ ih =>
    obtain ⟨ht', hiff⟩ := step_some ht hstep
    rw [ih ht', hiff]

/-! ## The number of steps -/

/-- The letters that the last star has not given up, or all that are left without a star. -/
def ahead (w : List α) (star : Star α) : Nat := star.elim w.length fun s => s.2.length

/-- No pattern in play is longer than `n` tokens. -/
def Within (n : Nat) (ps : List (Token α)) (star : Star α) : Prop :=
  ps.length ≤ n ∧ ∀ s, star = some s → s.1.length ≤ n

/-- Each step moves the last star on in the text, or the position on in the pattern. -/
def rounds (n : Nat) (ps : List (Token α)) (w : List α) (star : Star α) : Nat :=
  ahead w star * (n + 1) + ps.length

theorem Tracks.le_ahead {star : Star α} {ps : List (Token α)} {w : List α}
    (h : Tracks star ps w) : w.length ≤ ahead w star := by
  cases star with
  | none => exact le_rfl
  | some s =>
    obtain ⟨pre, us, -, hs, -, -⟩ := h s.1 s.2 rfl
    show w.length ≤ s.2.length
    rw [hs, List.length_append]
    exact Nat.le_add_left _ _

theorem ahead_le_cons (c : α) (w : List α) (star : Star α) :
    ahead w star ≤ ahead (c :: w) star := by
  cases star with
  | none => exact Nat.le_succ w.length
  | some s => exact le_rfl

theorem step_rounds {n : Nat} {ps : List (Token α)} {c : α} {w : List α} {star : Star α}
    {s : Position α} (ht : Tracks star ps (c :: w)) (hn : Within n ps star)
    (h : step ps c w star = some s) :
    Within n s.tokens s.star ∧
      rounds n s.tokens s.text s.star < rounds n ps (c :: w) star := by
  obtain ⟨hps, hstar⟩ := hn
  rcases step_cases ps c with ⟨qs, rfl⟩ | ⟨accepts, qs, rfl, hc⟩ | hstuck
  · cases h
    rw [List.length_cons] at hps
    refine ⟨⟨by dsimp only; omega, fun t ht => ?_⟩, ?_⟩
    · cases ht
      dsimp only
      omega
    · have hahead := Nat.mul_le_mul_right (n + 1) ht.le_ahead
      rw [rounds, rounds, List.length_cons]
      exact Nat.lt_succ_of_le (Nat.add_le_add_right hahead _)
  · rw [step, if_pos hc] at h
    cases h
    rw [List.length_cons] at hps
    refine ⟨⟨by dsimp only; omega, hstar⟩, ?_⟩
    have hahead := Nat.mul_le_mul_right (n + 1) (ahead_le_cons c w star)
    rw [rounds, rounds, List.length_cons]
    exact Nat.lt_succ_of_le (Nat.add_le_add_right hahead _)
  · rw [step_stuck hstuck] at h
    rcases ht.backtrack_eq with ⟨-, hback⟩ | ⟨qs, d, v, rfl, hback⟩
    · rw [h] at hback
      cases hback
    · rw [h] at hback
      cases hback
      have hqs : qs.length ≤ n := hstar (qs, d :: v) rfl
      refine ⟨⟨hqs, fun t ht => ?_⟩, ?_⟩
      · cases ht
        exact hqs
      · show v.length * (n + 1) + qs.length < (v.length + 1) * (n + 1) + ps.length
        rw [Nat.add_one_mul]
        omega

/-- With enough steps the bounded matcher gives the answer of a run, which therefore ends. -/
theorem runs_loop {n fuel : Nat} {ps : List (Token α)} {w : List α} {star : Star α}
    (ht : Tracks star ps w) (hn : Within n ps star) (hfuel : rounds n ps w star < fuel) :
    Runs ps w star (loop fuel ps w star) := by
  induction fuel generalizing ps w star with
  | zero => exact absurd hfuel (Nat.not_lt_zero _)
  | succ fuel ih =>
    cases w with
    | nil => exact .done ps star
    | cons c w =>
      rw [loop]
      cases hstep : step ps c w star with
      | none => exact .stuck hstep
      | some s =>
        obtain ⟨hn', hlt⟩ := step_rounds ht hn hstep
        exact .next hstep (ih (step_some ht hstep).1 hn' (by omega))

/-- The matcher from the start ends, and tells whether the pattern matches the text. -/
theorem loop_spec {fuel : Nat} {ps : List (Token α)} {w : List α}
    (hfuel : (w.length + 1) * (ps.length + 1) ≤ fuel) :
    Runs ps w none (loop fuel ps w none) ∧ (loop fuel ps w none = true ↔ Matches ps w) := by
  have hn : Within ps.length ps (none : Star α) := ⟨le_rfl, fun s hs => (by cases hs)⟩
  have hrounds : rounds ps.length ps w none < fuel := by
    rw [Nat.add_one_mul] at hfuel
    show w.length * (ps.length + 1) + ps.length < fuel
    omega
  have hrun := runs_loop (tracks_none ps w) hn hrounds
  exact ⟨hrun, (hrun.iff (tracks_none ps w)).trans (or_iff_left fun h => h)⟩

end Wildcard

end Lib
