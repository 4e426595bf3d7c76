-- SUMMARY: Upper-casing and debug-formatting of text, and where line terminators can come from.
import InMemoryCache.Basic
import InMemoryCache.Lib.Separator
import Mathlib.Data.Nat.Digits.Defs

/-!
# Text

The two Unicode tables the server depends on, upper-casing and the choice of
characters `{:?}` escapes, are fields of `Unicode`, constrained by what is
documented of them; everything the server does with text is computed from those.
The lemmas trace line terminators through encoding, upper-casing and escaping.
-/

namespace InMemoryCache

open Lib

/-- The Unicode tables of the standard library, outside ASCII. -/
class Unicode where
  /-- `char::to_uppercase` -/
  upper : Char → List Char
  upper_ne_nil : ∀ c, upper c ≠ []
  upper_ascii : ∀ c, c.toNat < 128 → upper c = [c.toUpper]
  upper_no_control : ∀ c, 128 ≤ c.toNat → ∀ d ∈ upper c, d ≠ '\r' ∧ d ≠ '\n'
  /-- Whether `{:?}` writes a character outside ASCII as a `\u` escape. -/
  escaped : Char → Bool

/-- The tables restricted to ASCII: every other character is its own upper case
and is printed as it is. -/
@[reducible]
def Unicode.ascii : Unicode where
  upper c := [c.toUpper]
  upper_ne_nil _ := List.cons_ne_nil _ _
  upper_ascii _ _ := rfl
  upper_no_control c h d hd := by
    have hlower : ¬ (c.val ≥ 'a'.val ∧ c.val ≤ 'z'.val) := by
      rintro ⟨-, hz⟩
      have hn : c.toNat ≤ 122 := UInt32.le_iff_toNat_le.mp hz
      omega
    have hup : c.toUpper = c := dif_neg hlower
    rw [List.mem_singleton.mp hd, hup]
    constructor <;> rintro rfl <;> exact absurd h (by decide)
  escaped _ := false

/-- `str::to_uppercase`. -/
def toUppercase [u : Unicode] (s : String) : String := String.ofList (s.toList.flatMap u.upper)

theorem toUppercase_of_ascii [u : Unicode] {s : String}
    (h : s.toList.all (fun c => c.toNat < 128 && c.toUpper == c) = true) : toUppercase s = s := by
  have hmap : s.toList.flatMap u.upper = s.toList.flatMap fun c => [c] := by
    refine List.flatMap_congr fun c hc => ?_
    have hupper := List.all_eq_true.mp h c hc
    simp only [Bool.and_eq_true, decide_eq_true_eq, beq_iff_eq] at hupper
    rw [u.upper_ascii c hupper.1, hupper.2]
  rw [toUppercase, hmap, List.flatMap_singleton', String.ofList_toList]

/-! ## Debug formatting -/

/-- The digits of a number in lower-case hexadecimal. -/
def hexDigits (n : Nat) : List Char := Nat.toDigits 16 n

/-- `\u{..}` -/
def unicodeEscape (c : Char) : List Char :=
  ['\\', 'u', '\x7b'] ++ hexDigits c.toNat ++ ['\x7d']

/-- A character as `{:?}` writes it inside a string. -/
def escapeDebug [u : Unicode] (c : Char) : List Char :=
  if c = '\x00' then ['\\', '0']
  else if c = '\t' then ['\\', 't']
  else if c = '\r' then ['\\', 'r']
  else if c = '\n' then ['\\', 'n']
  else if c = '"' ∨ c = '\\' then ['\\', c]
  else if c.toNat < 128 then
    if 0x20 ≤ c.toNat ∧ c.toNat < 0x7F then [c] else unicodeEscape c
  else if u.escaped c then unicodeEscape c
  else [c]

/-- `{:?}` of a string. -/
def debugString [Unicode] (s : String) : String :=
  String.ofList (['"'] ++ s.toList.flatMap escapeDebug ++ ['"'])

/-- A byte as `{:?}` of `Bytes` writes it. -/
def escapeByte (b : UInt8) : List Char :=
  let c := Char.ofNat b.toNat
  if c = '\n' then ['\\', 'n']
  else if c = '\r' then ['\\', 'r']
  else if c = '\t' then ['\\', 't']
  else if c = '\\' ∨ c = '"' then ['\\', c]
  else if c = '\x00' then ['\\', '0']
  else if 0x20 ≤ b.toNat ∧ b.toNat < 0x7F then [c]
  else ['\\', 'x'] ++ (if b.toNat < 16 then ['0'] else []) ++ hexDigits b.toNat

/-- `{:?}` of `Bytes`. -/
def debugBytes (b : Bytes) : String :=
  String.ofList (['b', '"'] ++ b.flatMap escapeByte ++ ['"'])

/-! ## Line terminators in encoded text -/

theorem crlf_infix_cons {c : UInt8} {s : Bytes} :
    crlf <:+: c :: s ↔ (c = CR ∧ s.head? = some LF) ∨ crlf <:+: s :=
  pair_infix_cons

theorem utf8EncodeChar_of_lt {c : Char} (h : c.toNat < 128) :
    String.utf8EncodeChar c = [UInt8.ofNat c.toNat] := by
  have hv : c.val.toNat ≤ 0x7f := by
    have : c.val.toNat = c.toNat := rfl
    omega
  simp only [String.utf8EncodeChar, if_pos hv]
  rfl

theorem utf8EncodeChar_of_le {c : Char} (h : 128 ≤ c.toNat) :
    ∀ b ∈ String.utf8EncodeChar c, 128 ≤ b.toNat := by
  have hv : ¬ c.val.toNat ≤ 0x7f := by
    have : c.val.toNat = c.toNat := rfl
    omega
  intro b hb
  simp only [String.utf8EncodeChar, if_neg hv] at hb
  split at hb
  · simp only [List.mem_cons, List.not_mem_nil, or_false] at hb
    rcases hb with rfl | rfl <;> simp only [UInt8.toNat_ofNat'] <;> omega
  · split at hb
    · simp only [List.mem_cons, List.not_mem_nil, or_false] at hb
      rcases hb with rfl | rfl | rfl <;> simp only [UInt8.toNat_ofNat'] <;> omega
    · simp only [List.mem_cons, List.not_mem_nil, or_false] at hb
      rcases hb with rfl | rfl | rfl | rfl <;> simp only [UInt8.toNat_ofNat'] <;> omega

theorem ofNat_toNat_eq_iff {c d : Char} (hc : c.toNat < 128) (hd : d.toNat < 128) :
    UInt8.ofNat c.toNat = UInt8.ofNat d.toNat ↔ c = d := by
  constructor
  · intro h
    have hn := congrArg UInt8.toNat h
    simp only [UInt8.toNat_ofNat'] at hn
    exact Char.toNat_inj.mp (by omega)
  · rintro rfl
    rfl

/-- An ASCII byte encodes the ASCII character of that code and no other. -/
theorem not_mem_utf8EncodeChar {c d : Char} (hd : d.toNat < 128) (hne : c ≠ d) :
    UInt8.ofNat d.toNat ∉ String.utf8EncodeChar c := by
  intro hmem
  by_cases hc : c.toNat < 128
  · rw [utf8EncodeChar_of_lt hc, List.mem_singleton] at hmem
    exact hne ((ofNat_toNat_eq_iff hd hc).mp hmem).symm
  · have hbyte := utf8EncodeChar_of_le (by omega) _ hmem
    rw [UInt8.toNat_ofNat'] at hbyte
    omega

/-- The bytes of a text hold a line terminator exactly where its characters do. -/
theorem crlf_infix_utf8 (cs : List Char) :
    crlf <:+: cs.flatMap String.utf8EncodeChar ↔ ['\r', '\n'] <:+: cs := by
  have hcr : ∀ c, c ≠ '\r' → CR ∉ String.utf8EncodeChar c := fun _ hc =>
    not_mem_utf8EncodeChar (d := '\r') (by decide) hc
  have hlf : ∀ c, c ≠ '\n' → LF ∉ String.utf8EncodeChar c := fun _ hc =>
    not_mem_utf8EncodeChar (d := '\n') (by decide) hc
  exact pair_infix_flatMap (fun _ => String.utf8EncodeChar_ne_nil)
    (utf8EncodeChar_of_lt (by decide)) (utf8EncodeChar_of_lt (by decide)) hcr hlf cs

theorem crlf_infix_asBytes (s : String) :
    crlf <:+: asBytes s ↔ ['\r', '\n'] <:+: s.toList := by
  rw [asBytes_eq_flatMap, crlf_infix_utf8]

theorem not_crlf_of_not_mem {cs : List Char} (h : '\r' ∉ cs) : ¬ ['\r', '\n'] <:+: cs :=
  fun hin => h (hin.subset (by simp))

theorem not_crlf_digits (n : Nat) : '\r' ∉ Nat.toDigits 10 n := by
  intro h
  have hd : '\r'.isDigit := Nat.isDigit_of_mem_toDigits (b := 10) (n := n) (by omega) (by omega) h
  exact absurd hd (by decide)

theorem not_crlf_usizeToString (n : Nat) : ¬ crlf <:+: asBytes (usizeToString n) := by
  rw [crlf_infix_asBytes, usizeToString, String.toList_ofList]
  exact not_crlf_of_not_mem (not_crlf_digits n)

theorem not_crlf_i64ToString (i : Int64) : ¬ crlf <:+: asBytes (i64ToString i) := by
  rw [i64ToString]
  split
  · rw [crlf_infix_asBytes, String.toList_ofList]
    exact not_crlf_of_not_mem (by simp [not_crlf_digits])
  · exact not_crlf_usizeToString _

/-! ## Line terminators in upper-cased and in escaped text -/

/-- Upper-casing makes no control character out of another character. -/
theorem not_mem_upper [u : Unicode] {c d : Char} (hd : d = '\r' ∨ d = '\n') (hne : c ≠ d) :
    d ∉ u.upper c := by
  intro hmem
  by_cases hc : c.toNat < 128
  · rw [u.upper_ascii c hc, List.mem_singleton] at hmem
    have hfixed : ∀ n < 128, (Char.ofNat n).toUpper = '\r' ∨ (Char.ofNat n).toUpper = '\n' →
        Char.ofNat n = (Char.ofNat n).toUpper := by
      decide +kernel
    have hself := hfixed c.toNat hc
    rw [Char.ofNat_toNat, ← hmem] at hself
    exact hne (hself hd)
  · have hcontrol := u.upper_no_control c (by omega) d hmem
    exact hd.elim hcontrol.1 hcontrol.2

/-- Upper-casing neither makes nor removes a line terminator. -/
theorem crlf_infix_toUppercase [u : Unicode] (s : String) :
    crlf <:+: asBytes (toUppercase s) ↔ crlf <:+: asBytes s := by
  rw [crlf_infix_asBytes, crlf_infix_asBytes, toUppercase, String.toList_ofList]
  exact pair_infix_flatMap u.upper_ne_nil (u.upper_ascii '\r' (by decide))
    (u.upper_ascii '\n' (by decide)) (fun _ hc => not_mem_upper (.inl rfl) hc)
    (fun _ hc => not_mem_upper (.inr rfl) hc) s.toList

theorem not_mem_hexDigits (n : Nat) : '\r' ∉ hexDigits n := by
  induction n using Nat.strongRecOn with
  | ind n ih =>
    have hdigit : ∀ d : Nat, '\r' ∉ [d.digitChar] := fun d hd =>
      Nat.digitChar_ne '\r' (by decide) (List.mem_singleton.mp hd).symm
    rw [hexDigits, Nat.toDigits_eq_if (by omega)]
    split
    · exact hdigit n
    · rw [List.mem_append, not_or]
      exact ⟨ih (n / 16) (Nat.div_lt_self (by omega) (by omega)), hdigit _⟩

theorem not_mem_unicodeEscape (c : Char) : '\r' ∉ unicodeEscape c := by
  rw [unicodeEscape, List.mem_append, List.mem_append]
  simp [not_mem_hexDigits]

theorem not_mem_escapeDebug [Unicode] (c : Char) : '\r' ∉ escapeDebug c := by
  rw [escapeDebug]
  split_ifs with h0 ht hr hn hq hascii hprint hescaped
  · decide
  · decide
  · decide
  · decide
  · simp [Ne.symm hr]
  · simp [Ne.symm hr]
  · exact not_mem_unicodeEscape c
  · exact not_mem_unicodeEscape c
  · simp [Ne.symm hr]

theorem not_mem_escapeByte (b : UInt8) : '\r' ∉ escapeByte b := by
  have hbytes : ∀ n < 256, '\r' ∉ escapeByte (UInt8.ofNat n) := by
    decide +kernel
  have h := hbytes b.toNat b.toNat_lt
  rwa [UInt8.ofNat_toNat] at h

/-- The text `{:?}` writes for a string is free of carriage returns. -/
theorem not_mem_debugString [Unicode] (s : String) : '\r' ∉ (debugString s).toList := by
  rw [debugString, String.toList_ofList, List.mem_append, List.mem_append, List.mem_flatMap]
  simp [not_mem_escapeDebug]

theorem not_mem_debugBytes (b : Bytes) : '\r' ∉ (debugBytes b).toList := by
  rw [debugBytes, String.toList_ofList, List.mem_append, List.mem_append, List.mem_flatMap]
  simp [not_mem_escapeByte]

end InMemoryCache
