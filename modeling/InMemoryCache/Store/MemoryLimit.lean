-- SUMMARY: The memory limit a configuration text stands for, and when parsing it is exact.
import InMemoryCache.Basic
import InMemoryCache.Lib.Affix

/-!
# Memory limits

`parse_memory_limit` reads a number with an optional unit, in any letter case and between
white space. The number is parsed with a check that it fits; the multiplication by the unit
has none, so a product from 2^64 on is returned modulo 2^64 (`parseMemoryLimit_of_denotes`).
-/

namespace InMemoryCache

open Lib

-- ---------------------------------------------------------------------------
-- White space and letter case
-- ---------------------------------------------------------------------------

/-- `char::is_whitespace`: the Unicode property `White_Space`. -/
def isWhitespace (c : Char) : Bool :=
  let n := c.toNat
  (9 ≤ n && n ≤ 13) || n == 0x20 || n == 0x85 || n == 0xA0 || n == 0x1680 ||
    (0x2000 ≤ n && n ≤ 0x200A) || n == 0x2028 || n == 0x2029 || n == 0x202F || n == 0x205F ||
    n == 0x3000

/-- The lower-casing tables of the standard library, outside ASCII. -/
class Lowercase where
  /-- `char::to_lowercase` -/
  lower : Char → List Char
  lower_ne_nil : ∀ c, lower c ≠ []
  lower_ascii : ∀ c, c.toNat < 128 → lower c = [c.toLower]
  lower_whitespace : ∀ c, isWhitespace c = true → lower c = [c]
  lower_not_whitespace : ∀ c, isWhitespace c = false → ∀ d ∈ lower c, isWhitespace d = false
  /-- Whether a sigma between these texts is at the end of a word. -/
  finalSigma : List Char → List Char → Bool

/-- One character, after `before` and before `after`. -/
def lowerAt [u : Lowercase] (before : List Char) (c : Char) (after : List Char) : List Char :=
  if c = 'Σ' then [if u.finalSigma before after then 'ς' else 'σ'] else u.lower c

def lowerFrom [Lowercase] (before : List Char) : List Char → List Char
  | [] => []
  | c :: after => lowerAt before c after ++ lowerFrom (before ++ [c]) after

/-- `str::to_lowercase` -/
def toLowercase [Lowercase] (cs : List Char) : List Char := lowerFrom [] cs

-- ---------------------------------------------------------------------------
-- parse_memory_limit
-- ---------------------------------------------------------------------------

/-- `num_str.trim().parse::<usize>().ok()` -/
def parseTrimmed (numStr : List Char) : Option Nat :=
  parseU64 (String.ofList (trim isWhitespace numStr))

/-- The branches on the suffix. -/
def parseLimit (s : List Char) : Option Nat :=
  match stripSuffix ['g', 'b'] s with
  | some numStr =>
    (parseTrimmed numStr).map fun n => U64.mul (U64.mul (U64.mul n 1024) 1024) 1024
  | none =>
    match stripSuffix ['m', 'b'] s with
    | some numStr => (parseTrimmed numStr).map fun n => U64.mul (U64.mul n 1024) 1024
    | none =>
      match stripSuffix ['k', 'b'] s with
      | some numStr => (parseTrimmed numStr).map fun n => U64.mul n 1024
      | none => parseU64 (String.ofList s)

def parseMemoryLimit [Lowercase] (s : String) : Option Nat :=
  parseLimit (toLowercase (trim isWhitespace s.toList))

/-- The memory limit that `Db::new` and `Db::with_metrics` take from the variable
`MAXMEMORY`; 0 is no limit. -/
def maxmemoryOf [Lowercase] (var : Option String) : Nat := (var.bind parseMemoryLimit).getD 0

-- ---------------------------------------------------------------------------
-- What a text stands for
-- ---------------------------------------------------------------------------

/-- The decimal number `v`, with the sign that `usize::from_str` takes. -/
def Numeral (cs : List Char) (v : Nat) : Prop :=
  ∃ digits, (cs = digits ∨ cs = '+' :: digits) ∧ digits ≠ [] ∧
    digits.all Char.isDigit = true ∧ v = Nat.ofDigitChars 10 digits 0

/-- The units by suffix. -/
def units : List (List Char × Nat) :=
  [(['g', 'b'], 1024 ^ 3), (['m', 'b'], 1024 ^ 2), (['k', 'b'], 1024)]

/-- A number, or a number, white space and a suffix. -/
inductive Limit : List Char → Nat → Nat → Prop
  | plain {num : List Char} {v : Nat} : Numeral num v → Limit num v 1
  | suffixed {num gap suffix : List Char} {v unit : Nat} :
    Numeral num v → (∀ c ∈ gap, isWhitespace c = true) → (suffix, unit) ∈ units →
      Limit (num ++ gap ++ suffix) v unit

/-- Up to surrounding white space and letter case, the text is the number `v` with the unit
`unit`. -/
def Denotes [Lowercase] (s : String) (v unit : Nat) : Prop :=
  ∃ w core w', s.toList = w ++ core ++ w' ∧ (∀ c ∈ w, isWhitespace c = true) ∧
    (∀ c ∈ w', isWhitespace c = true) ∧ Limit (toLowercase core) v unit

/-- The limit is the product where it fits, and none where it does not or there is none. -/
def ExactLimit [Lowercase] (s : String) (limit : Option Nat) : Prop :=
  (∀ v unit, Denotes s v unit →
    limit = if v * unit < U64.size then some (v * unit) else none) ∧
    ((¬ ∃ v unit, Denotes s v unit) → limit = none)

-- ---------------------------------------------------------------------------
-- Numerals
-- ---------------------------------------------------------------------------

theorem isWhitespace_of_isDigit {c : Char} (h : c.isDigit = true) : isWhitespace c = false := by
  have hascii : ∀ n < 128, (Char.ofNat n).isDigit = true → isWhitespace (Char.ofNat n) = false := by
    decide +kernel
  have hlt : c.toNat < 128 := by
    rw [Char.isDigit, Bool.and_eq_true, decide_eq_true_iff, decide_eq_true_iff] at h
    have hle : c.toNat ≤ 57 := UInt32.le_iff_toNat_le.mp h.2
    omega
  have hdigit := hascii c.toNat hlt
  rw [Char.ofNat_toNat] at hdigit
  exact hdigit h

section Numerals

variable {cs : List Char} {v n : Nat}

theorem parseDigits_eq_some :
    parseDigits cs = some n ↔ cs ≠ [] ∧ cs.all Char.isDigit = true ∧ n = Nat.ofDigitChars 10 cs 0 := by
  rw [parseDigits]
  split
  · rename_i h
    rw [Option.some.injEq, eq_comm]
    exact ⟨fun hn => ⟨h.1, h.2, hn⟩, fun h => h.2.2⟩
  · rename_i h
    exact iff_of_false (by simp) fun hn => h ⟨hn.1, hn.2.1⟩

theorem numeral_iff :
    Numeral cs v ↔
      (match cs with
        | '+' :: cs => parseDigits cs
        | cs => parseDigits cs) = some v := by
  constructor
  · rintro ⟨digits, rfl | rfl, hdigits⟩
    · split
      · -- a sign is no digit
        exact absurd hdigits.2.1 (by simp)
      · exact parseDigits_eq_some.mpr hdigits
    · exact parseDigits_eq_some.mpr hdigits
  · intro h
    split at h
    · exact ⟨_, .inr rfl, parseDigits_eq_some.mp h⟩
    · exact ⟨_, .inl rfl, parseDigits_eq_some.mp h⟩

/-- A numeral parses if its number fits. -/
theorem parseU64_of_numeral (h : Numeral cs v) :
    parseU64 (String.ofList cs) = if v < U64.size then some v else none := by
  have hparse : parseU64 (String.ofList cs) = (some v).filter (· < U64.size) := by
    rw [parseU64, String.toList_ofList]
    exact congrArg (Option.filter _) (numeral_iff.mp h)
  rw [hparse, Option.filter_some]
  simp only [decide_eq_true_eq]

theorem numeral_of_parseU64 (h : parseU64 (String.ofList cs) = some n) : Numeral cs n := by
  rw [parseU64, String.toList_ofList, Option.filter_eq_some_iff] at h
  exact numeral_iff.mpr h.1

theorem Numeral.ne_nil (h : Numeral cs v) : cs ≠ [] := by
  obtain ⟨digits, rfl | rfl, hne, -⟩ := h
  · exact hne
  · exact List.cons_ne_nil _ _

/-- A numeral neither begins nor ends with white space. -/
theorem Numeral.bare (h : Numeral cs v) : Bare isWhitespace cs := by
  obtain ⟨digits, hcs, hne, hdigits, -⟩ := h
  have hdigit : ∀ c ∈ digits, isWhitespace c = false := fun c hc =>
    isWhitespace_of_isDigit (List.all_eq_true.mp hdigits c hc)
  have hall : ∀ c ∈ cs, isWhitespace c = false := by
    rcases hcs with rfl | rfl
    · exact hdigit
    · intro c hc
      rcases List.mem_cons.mp hc with rfl | hc
      · decide
      · exact hdigit c hc
  exact ⟨fun c hc => hall c (List.mem_of_head? hc), fun c hc => hall c (List.mem_of_getLast? hc)⟩

theorem Numeral.last_isDigit (h : Numeral cs v) : ∀ c ∈ cs.getLast?, c.isDigit = true := by
  obtain ⟨digits, hcs, hne, hdigits, -⟩ := h
  have hlast : cs.getLast? = digits.getLast? := by
    rcases hcs with rfl | rfl
    · rfl
    · exact List.getLast?_cons_of_ne_nil hne
  intro c hc
  rw [hlast] at hc
  exact List.all_eq_true.mp hdigits c (List.mem_of_getLast? hc)

end Numerals

-- ---------------------------------------------------------------------------
-- Limits
-- ---------------------------------------------------------------------------

section Limits

variable {text num gap suffix numStr : List Char} {v unit n : Nat}

/-- A limit neither begins nor ends with white space. -/
theorem Limit.bare (h : Limit text v unit) : Bare isWhitespace text := by
  cases h with
  | plain hnum => exact hnum.bare
  | suffixed hnum hgap hunit =>
    rename_i num gap suffix
    have hsuffix : ∃ c, suffix.getLast? = some c ∧ isWhitespace c = false := by
      simp only [units, List.mem_cons, Prod.mk.injEq, List.not_mem_nil, or_false] at hunit
      rcases hunit with ⟨rfl, -⟩ | ⟨rfl, -⟩ | ⟨rfl, -⟩ <;> exact ⟨'b', rfl, by decide⟩
    obtain ⟨b, hb, hwhite⟩ := hsuffix
    constructor
    · intro c hc
      rw [List.append_assoc, List.head?_append_of_ne_nil _ hnum.ne_nil] at hc
      exact hnum.bare.head c hc
    · intro c hc
      rw [List.getLast?_append, hb] at hc
      cases hc
      exact hwhite

theorem Limit.unit_pos (h : Limit text v unit) : 0 < unit := by
  cases h with
  | plain => exact Nat.one_pos
  | suffixed hnum hgap hunit =>
    simp only [units, List.mem_cons, Prod.mk.injEq, List.not_mem_nil, or_false] at hunit
    rcases hunit with ⟨-, rfl⟩ | ⟨-, rfl⟩ | ⟨-, rfl⟩ <;> decide

/-! ## Parsing a limit -/

theorem parseTrimmed_of_numeral (h : Numeral num v) (hgap : ∀ c ∈ gap, isWhitespace c = true) :
    parseTrimmed (num ++ gap) = if v < U64.size then some v else none := by
  have htrim : trim isWhitespace (num ++ gap) = num :=
    trim_append (w := []) (fun c hc => by cases hc) hgap h.bare
  rw [parseTrimmed, htrim, parseU64_of_numeral h]

/-- A number ends with no unit. -/
theorem stripSuffix_numeral (h : Numeral num v) (hb : suffix.getLast? = some 'b') :
    stripSuffix suffix num = none := by
  rw [Option.eq_none_iff_forall_ne_some]
  intro r hr
  have hlast : num.getLast? = some 'b' := by
    rw [stripSuffix_eq_some.mp hr, List.getLast?_append, hb, Option.some_or]
  exact absurd (h.last_isDigit 'b' hlast) (by decide)

/-- Multiplying by 1024 again and again wraps as one multiplication does. -/
theorem mul_mul (n k : Nat) : U64.mul (n * k % U64.size) 1024 = n * (k * 1024) % U64.size := by
  rw [U64.mul, Nat.mod_mul_mod, Nat.mul_assoc]

theorem map_scale {scale : Nat → Nat} (h : ∀ n, scale n = n * unit % U64.size) (v : Nat) :
    (if v < U64.size then some v else none).map scale =
      if v < U64.size then some (v * unit % U64.size) else none := by
  split
  · exact congrArg some (h v)
  · rfl

theorem parseLimit_plain (hnum : Numeral num v) :
    parseLimit num = if v < U64.size then some v else none := by
  have hnone : ∀ suffix : List Char, suffix.getLast? = some 'b' → stripSuffix suffix num = none :=
    fun _ => stripSuffix_numeral hnum
  rw [parseLimit, hnone _ rfl, hnone _ rfl, hnone _ rfl]
  exact parseU64_of_numeral hnum

/-- The branch of the suffix multiplies by its unit. -/
theorem parseLimit_suffixed (hnum : Numeral num v) (hgap : ∀ c ∈ gap, isWhitespace c = true)
    (hunit : (suffix, unit) ∈ units) :
    parseLimit (num ++ gap ++ suffix) =
      if v < U64.size then some (v * unit % U64.size) else none := by
  have hparse := parseTrimmed_of_numeral hnum hgap
  have hstrip : stripSuffix suffix (num ++ gap ++ suffix) = some (num ++ gap) :=
    stripSuffix_eq_some.mpr rfl
  have hother : ∀ suffix', suffix.length = suffix'.length → suffix ≠ suffix' →
      stripSuffix suffix' (num ++ gap ++ suffix) = none := fun _ => stripSuffix_append_ne
  simp only [units, List.mem_cons, Prod.mk.injEq, List.not_mem_nil, or_false] at hunit
  rcases hunit with ⟨rfl, rfl⟩ | ⟨rfl, rfl⟩ | ⟨rfl, rfl⟩
  · rw [parseLimit, hstrip]
    dsimp only
    rw [hparse]
    refine map_scale (fun n => ?_) v
    show U64.mul (U64.mul (n * 1024 % U64.size) 1024) 1024 = _
    rw [mul_mul, mul_mul]
    rfl
  · rw [parseLimit, hother ['g', 'b'] rfl (by decide), hstrip]
    dsimp only
    rw [hparse]
    exact map_scale (fun n => mul_mul n 1024) v
  · rw [parseLimit, hother ['g', 'b'] rfl (by decide), hother ['m', 'b'] rfl (by decide), hstrip]
    dsimp only
    rw [hparse]
    exact map_scale (fun _ => rfl) v

theorem parseLimit_of_limit (h : Limit text v unit) :
    parseLimit text = if v < U64.size then some (v * unit % U64.size) else none := by
  cases h with
  | suffixed hnum hgap hunit => exact parseLimit_suffixed hnum hgap hunit
  | plain hnum =>
    rw [parseLimit_plain hnum, Nat.mul_one]
    split
    · rename_i hv
      rw [Nat.mod_eq_of_lt hv]
    · rfl

/-- A number with a unit, read off its text. -/
theorem limit_of_parseTrimmed (hhead : ∀ c ∈ text.head?, isWhitespace c = false)
    (hstrip : stripSuffix suffix text = some numStr) (hunit : (suffix, unit) ∈ units)
    (hparse : parseTrimmed numStr = some v) : Limit text v unit := by
  have hnum : Numeral (trim isWhitespace numStr) v := numeral_of_parseU64 hparse
  have htext := stripSuffix_eq_some.mp hstrip
  have hfront : ∀ c ∈ numStr.head?, isWhitespace c = false := fun c hc =>
    hhead c (htext ▸ List.mem_head?_append_of_mem_head? hc)
  obtain ⟨gap, hnumStr, hgap⟩ := exists_trim_of_head hfront
  rw [htext, hnumStr]
  exact .suffixed hnum hgap hunit

/-- Only limits parse. -/
theorem limit_of_parseLimit (hhead : ∀ c ∈ text.head?, isWhitespace c = false)
    (h : parseLimit text = some n) : ∃ v unit, Limit text v unit := by
  rw [parseLimit] at h
  split at h
  · rename_i numStr hstrip
    obtain ⟨v, hparse, -⟩ := Option.map_eq_some_iff.mp h
    exact ⟨v, _, limit_of_parseTrimmed hhead hstrip (.head _) hparse⟩
  · split at h
    · rename_i numStr hstrip
      obtain ⟨v, hparse, -⟩ := Option.map_eq_some_iff.mp h
      exact ⟨v, _, limit_of_parseTrimmed hhead hstrip (.tail _ (.head _)) hparse⟩
    · split at h
      · rename_i numStr hstrip
        obtain ⟨v, hparse, -⟩ := Option.map_eq_some_iff.mp h
        exact ⟨v, _, limit_of_parseTrimmed hhead hstrip (.tail _ (.tail _ (.head _))) hparse⟩
      · exact ⟨n, 1, .plain (numeral_of_parseU64 h)⟩

end Limits

-- ---------------------------------------------------------------------------
-- Lower-casing
-- ---------------------------------------------------------------------------

section Lowercase

variable [u : Lowercase] {core : List Char}

theorem lowerAt_whitespace {c : Char} (h : isWhitespace c = true) (before after : List Char) :
    lowerAt before c after = [c] := by
  have hsigma : c ≠ 'Σ' := by
    rintro rfl
    exact absurd h (by decide)
  rw [lowerAt, if_neg hsigma, u.lower_whitespace c h]

/-- Lower-casing makes no white space out of another character. -/
theorem lowerAt_not_whitespace {c : Char} (h : isWhitespace c = false) (before after : List Char) :
    ∃ d rest, lowerAt before c after = d :: rest ∧ isWhitespace d = false := by
  rw [lowerAt]
  split
  · split
    · exact ⟨'ς', [], rfl, by decide⟩
    · exact ⟨'σ', [], rfl, by decide⟩
  · obtain ⟨d, rest, hlower⟩ := List.exists_cons_of_ne_nil (u.lower_ne_nil c)
    exact ⟨d, rest, hlower, u.lower_not_whitespace c h d (by rw [hlower]; exact List.mem_cons_self)⟩

/-- The first character is white space before and after lower-casing, or neither. -/
theorem head_toLowercase (h : ∀ c ∈ core.head?, isWhitespace c = false) :
    ∀ c ∈ (toLowercase core).head?, isWhitespace c = false := by
  intro c hc
  cases core with
  | nil => cases hc
  | cons b core =>
    obtain ⟨d, rest, hlower, hd⟩ := lowerAt_not_whitespace (h b rfl) [] core
    rw [toLowercase, lowerFrom, hlower] at hc
    cases hc
    exact hd

theorem lowerFrom_concat {c : Char} (h : isWhitespace c = true) (before core : List Char) :
    (lowerFrom before (core ++ [c])).getLast? = some c := by
  induction core generalizing before with
  | nil =>
    rw [List.nil_append, lowerFrom, lowerAt_whitespace h]
    rfl
  | cons b core ih =>
    rw [List.cons_append, lowerFrom, List.getLast?_append, ih, Option.some_or]

theorem bare_of_toLowercase (h : Bare isWhitespace (toLowercase core)) : Bare isWhitespace core := by
  constructor
  · intro c hc
    rw [Bool.eq_false_iff]
    intro hwhite
    obtain ⟨core, rfl⟩ := List.head?_eq_some_iff.mp hc
    have hhead : (toLowercase (c :: core)).head? = some c := by
      rw [toLowercase, lowerFrom, lowerAt_whitespace hwhite]
      rfl
    rw [h.head c hhead] at hwhite
    cases hwhite
  · intro c hc
    rw [Bool.eq_false_iff]
    intro hwhite
    obtain ⟨core, rfl⟩ := List.getLast?_eq_some_iff.mp hc
    rw [h.last c (lowerFrom_concat hwhite [] core)] at hwhite
    cases hwhite

end Lowercase

-- ---------------------------------------------------------------------------
-- Exactness
-- ---------------------------------------------------------------------------

section Exact

variable [Lowercase] {s : String} {v unit n : Nat}

theorem Denotes.unit_pos (h : Denotes s v unit) : 0 < unit := by
  obtain ⟨w, core, w', -, -, -, hlimit⟩ := h
  exact hlimit.unit_pos

/-- A text that stands for a product returns it modulo 2^64, if its number fits. -/
theorem parseMemoryLimit_of_denotes (h : Denotes s v unit) :
    parseMemoryLimit s = if v < U64.size then some (v * unit % U64.size) else none := by
  obtain ⟨w, core, w', hs, hw, hw', hlimit⟩ := h
  have htrim : trim isWhitespace s.toList = core := by
    rw [hs]
    exact trim_append hw hw' (bare_of_toLowercase hlimit.bare)
  rw [parseMemoryLimit, htrim, parseLimit_of_limit hlimit]

/-- Only texts that stand for a limit return one. -/
theorem denotes_of_parseMemoryLimit (h : parseMemoryLimit s = some n) :
    ∃ v unit, Denotes s v unit := by
  obtain ⟨w, w', hs, hw, hw'⟩ := exists_trim isWhitespace s.toList
  have hhead := head_toLowercase (bare_trim isWhitespace s.toList).head
  obtain ⟨v, unit, hlimit⟩ := limit_of_parseLimit hhead h
  exact ⟨v, unit, w, _, w', hs, hw, hw', hlimit⟩

/-- The limit is exact if and only if it is no product that leaves 64 bits while its number
fits them. -/
theorem parseMemoryLimit_exact_iff (s : String) :
    ExactLimit s (parseMemoryLimit s) ↔
      ¬ ∃ v unit, Denotes s v unit ∧ v < U64.size ∧ U64.size ≤ v * unit := by
  constructor
  · rintro hexact ⟨v, unit, hdenotes, hv, hproduct⟩
    have hnone := hexact.1 v unit hdenotes
    rw [parseMemoryLimit_of_denotes hdenotes, if_pos hv, if_neg (by omega)] at hnone
    cases hnone
  · intro hfits
    constructor
    · intro v unit hdenotes
      rw [parseMemoryLimit_of_denotes hdenotes]
      by_cases hv : v < U64.size
      · have hproduct : v * unit < U64.size :=
          Nat.lt_of_not_le fun hle => hfits ⟨v, unit, hdenotes, hv, hle⟩
        rw [if_pos hv, if_pos hproduct, Nat.mod_eq_of_lt hproduct]
      · have hle : v ≤ v * unit := Nat.le_mul_of_pos_right v hdenotes.unit_pos
        rw [if_neg hv, if_neg (by omega)]
    · intro hnot
      rw [Option.eq_none_iff_forall_ne_some]
      exact fun n hn => hnot (denotes_of_parseMemoryLimit hn)

end Exact

theorem toLower_of_not_ascii {c : Char} (h : 128 ≤ c.toNat) : c.toLower = c := by
  have hupper : ¬ (c.val ≥ 'A'.val ∧ c.val ≤ 'Z'.val) := by
    rintro ⟨-, hz⟩
    have hle : c.toNat ≤ 90 := UInt32.le_iff_toNat_le.mp hz
    omega
  exact dif_neg hupper

theorem isWhitespace_toLower (c : Char) :
    isWhitespace c.toLower = isWhitespace c ∧ (isWhitespace c = true → c.toLower = c) := by
  by_cases hc : c.toNat < 128
  · have hascii : ∀ n < 128, isWhitespace (Char.ofNat n).toLower = isWhitespace (Char.ofNat n) ∧
        (isWhitespace (Char.ofNat n) = true → (Char.ofNat n).toLower = Char.ofNat n) := by
      decide +kernel
    have h := hascii c.toNat hc
    rwa [Char.ofNat_toNat] at h
  · rw [toLower_of_not_ascii (by omega)]
    exact ⟨rfl, fun _ => rfl⟩

/-- The tables restricted to ASCII: every other character is its own lower case. -/
@[reducible]
def Lowercase.ascii : Lowercase where
  lower c := [c.toLower]
  lower_ne_nil _ := List.cons_ne_nil _ _
  lower_ascii _ _ := rfl
  lower_whitespace c h := congrArg (fun d => [d]) ((isWhitespace_toLower c).2 h)
  lower_not_whitespace c h d hd := by
    rw [List.mem_singleton.mp hd, (isWhitespace_toLower c).1, h]
  finalSigma _ _ := true

/-- Limits of 2^34 GiB and one more: the first is none at all, the second is 1 GiB. -/
theorem memory_limit_wraps :
    @maxmemoryOf Lowercase.ascii (some "17179869184GB") = 0 ∧
      @maxmemoryOf Lowercase.ascii (some "17179869185gb") = 2 ^ 30 ∧
      ¬ @ExactLimit Lowercase.ascii "17179869184GB"
        (@parseMemoryLimit Lowercase.ascii "17179869184GB") := by
  let _ := Lowercase.ascii
  have hzero : parseMemoryLimit "17179869184GB" = some 0 := by decide +kernel
  have hsmall : parseMemoryLimit "17179869185gb" = some (2 ^ 30) := by decide +kernel
  have hset : ∀ s, maxmemoryOf (some s) = (parseMemoryLimit s).getD 0 := fun _ => rfl
  have hlower : toLowercase "17179869184GB".toList =
      "17179869184".toList ++ [] ++ ['g', 'b'] := by
    decide +kernel
  have hnum : Numeral "17179869184".toList 17179869184 :=
    ⟨"17179869184".toList, .inl rfl, by decide +kernel, by decide +kernel, by decide +kernel⟩
  have hdenotes : Denotes "17179869184GB" 17179869184 (1024 ^ 3) := by
    refine ⟨[], "17179869184GB".toList, [], (List.append_nil _).symm, by simp, by simp, ?_⟩
    rw [hlower]
    exact .suffixed hnum (by simp) (.head _)
  refine ⟨?_, ?_, fun h => ?_⟩
  · rw [hset, hzero, Option.getD_some]
  · rw [hset, hsmall, Option.getD_some]
  · have hnone := h.1 _ _ hdenotes
    rw [hzero] at hnone
    exact absurd hnone (by decide)

end InMemoryCache
