-- SUMMARY: Bytes, text, machine integers and the clock, as the server's code uses them.
import Mathlib.Algebra.GroupWithZero.Nat
import Mathlib.Data.List.Basic
import Mathlib.Data.List.Infix
import Mathlib.Tactic.Common

/-!
# Basic data

`Bytes` and `&[u8]` are lists of bytes, a Rust `String` is a Lean `String` (both
hold valid UTF-8), `i64` is `Int64`, and `usize`/`u64` values are naturals below
`2^64`, except for the counters of lookups and removals, which are `UInt64` and
wrap. An `Instant` counts nanoseconds on the monotonic clock.
-/

namespace InMemoryCache

abbrev Bytes := List UInt8

def CR : UInt8 := 13
def LF : UInt8 := 10

/-- The line terminator `\r\n`. -/
def crlf : Bytes := [CR, LF]

/-- A byte literal `b'c'`. -/
def byte (c : Char) : UInt8 := c.toUInt8

-- ---------------------------------------------------------------------------
-- Text
-- ---------------------------------------------------------------------------

/-- `str::as_bytes`. -/
def asBytes (s : String) : Bytes := s.toByteArray.data.toList

/-- `String::from_utf8` and `str::from_utf8`. -/
def fromUtf8 (b : Bytes) : Option String := String.fromUTF8? ⟨b.toArray⟩

@[simp] theorem fromUtf8_asBytes (s : String) : fromUtf8 (asBytes s) = some s := by
  have h : (⟨s.toByteArray.data.toList.toArray⟩ : ByteArray) = s.toByteArray := rfl
  simp only [fromUtf8, asBytes, h, String.fromUTF8?, s.isValidUTF8, dite_true]
  rfl

theorem asBytes_of_fromUtf8 {b : Bytes} {s : String} (h : fromUtf8 b = some s) :
    asBytes s = b := by
  simp only [fromUtf8, String.fromUTF8?] at h
  split at h
  · cases h
    rfl
  · cases h

theorem asBytes_ofList (cs : List Char) :
    asBytes (String.ofList cs) = cs.flatMap String.utf8EncodeChar := by
  show (cs.utf8Encode).data.toList = _
  simp [List.utf8Encode]

theorem asBytes_eq_flatMap (s : String) :
    asBytes s = s.toList.flatMap String.utf8EncodeChar := by
  rw [← asBytes_ofList, String.ofList_toList]

@[simp] theorem asBytes_append (s t : String) : asBytes (s ++ t) = asBytes s ++ asBytes t := by
  simp [asBytes_eq_flatMap]

-- ---------------------------------------------------------------------------
-- Integers
-- ---------------------------------------------------------------------------

/-- `u64::MAX` and `usize::MAX` plus one. -/
def U64.size : Nat := 2 ^ 64

/-- `+` on `u64` and `usize`; it wraps in a release build, as `fetch_add` does in any. -/
def U64.add (a b : Nat) : Nat := (a + b) % U64.size

/-- `*` on `u64` and `usize`; it wraps in a release build. -/
def U64.mul (a b : Nat) : Nat := a * b % U64.size

theorem U64.mul_eq {a b : Nat} (h : a * b < U64.size) : U64.mul a b = a * b := Nat.mod_eq_of_lt h

/-- The digits of a decimal number; at least one is required. -/
def parseDigits (cs : List Char) : Option Nat :=
  if cs ≠ [] ∧ cs.all Char.isDigit then some (Nat.ofDigitChars 10 cs 0) else none

/-- `str::parse::<u64>` and `str::parse::<usize>`. -/
def parseU64 (s : String) : Option Nat :=
  let n := match s.toList with
    | '+' :: cs => parseDigits cs
    | cs => parseDigits cs
  n.filter (· < U64.size)

/-- `str::parse::<i64>`. -/
def parseI64 (s : String) : Option Int64 :=
  match s.toList with
  | '-' :: cs => ((parseDigits cs).filter (· ≤ 2 ^ 63)).map fun (n : Nat) => Int64.ofInt (-n)
  | '+' :: cs => ((parseDigits cs).filter (· < 2 ^ 63)).map fun (n : Nat) => Int64.ofInt n
  | cs => ((parseDigits cs).filter (· < 2 ^ 63)).map fun (n : Nat) => Int64.ofInt n

/-- `usize::to_string`. -/
def usizeToString (n : Nat) : String := String.ofList (Nat.toDigits 10 n)

/-- `i64::to_string`. -/
def i64ToString (i : Int64) : String :=
  if i.toInt < 0 then String.ofList ('-' :: Nat.toDigits 10 i.toInt.natAbs)
  else usizeToString i.toInt.natAbs

theorem parseDigits_toDigits (n : Nat) : parseDigits (Nat.toDigits 10 n) = some n := by
  have hdigit : (Nat.toDigits 10 n).all Char.isDigit := by
    rw [List.all_eq_true]
    exact fun c hc => Nat.isDigit_of_mem_toDigits (by omega) (by omega) hc
  rw [parseDigits, if_pos ⟨Nat.toDigits_ne_nil, hdigit⟩, Nat.ofDigitChars_toDigits] <;> omega

theorem toDigits_eq_cons (n : Nat) :
    ∃ c cs, Nat.toDigits 10 n = c :: cs ∧ c ≠ '+' ∧ c ≠ '-' := by
  cases h : Nat.toDigits 10 n with
  | nil => exact absurd h Nat.toDigits_ne_nil
  | cons c cs =>
    have hc : c.isDigit := Nat.isDigit_of_mem_toDigits (b := 10) (n := n) (by omega) (by omega)
      (by simp [h])
    exact ⟨c, cs, rfl, by rintro rfl; simp at hc, by rintro rfl; simp at hc⟩

theorem parseU64_usizeToString {n : Nat} (h : n < U64.size) :
    parseU64 (usizeToString n) = some n := by
  obtain ⟨c, cs, hcs, hplus, -⟩ := toDigits_eq_cons n
  have hdigits := parseDigits_toDigits n
  rw [hcs] at hdigits
  simp only [parseU64, usizeToString, String.toList_ofList, hcs]
  split
  · simp_all
  · simp [hdigits, h]

theorem parseI64_usizeToString {n : Nat} (h : n < 2 ^ 63) :
    parseI64 (usizeToString n) = some (Int64.ofInt n) := by
  obtain ⟨c, cs, hcs, hplus, hminus⟩ := toDigits_eq_cons n
  have hdigits := parseDigits_toDigits n
  rw [hcs] at hdigits
  simp only [parseI64, usizeToString, String.toList_ofList, hcs]
  split
  · simp_all
  · simp_all
  · rw [hdigits, Option.filter_some_pos (by simpa using h), Option.map_some]

@[simp] theorem parseI64_i64ToString (i : Int64) : parseI64 (i64ToString i) = some i := by
  have hlo := i.le_toInt
  have hhi := i.toInt_lt
  by_cases hneg : i.toInt < 0
  · have habs : i.toInt.natAbs ≤ 2 ^ 63 := by omega
    have hval : -(i.toInt.natAbs : Int) = i.toInt := by omega
    simp only [i64ToString, if_pos hneg, parseI64, String.toList_ofList, parseDigits_toDigits]
    rw [Option.filter_some_pos (by simpa using habs), Option.map_some, hval, Int64.ofInt_toInt]
  · have habs : i.toInt.natAbs < 2 ^ 63 := by omega
    have hval : (i.toInt.natAbs : Int) = i.toInt := by omega
    rw [i64ToString, if_neg hneg, parseI64_usizeToString habs, hval, Int64.ofInt_toInt]

/-- The text of a negative number is no `u64`. -/
theorem parseU64_i64ToString (i : Int64) :
    parseU64 (i64ToString i) = if i.toInt < 0 then none else some i.toInt.toNat := by
  have hhi := i.toInt_lt
  by_cases hneg : i.toInt < 0
  · rw [if_pos hneg]
    simp [i64ToString, if_pos hneg, parseU64, parseDigits]
  · have habs : i.toInt.natAbs < U64.size := by
      rw [U64.size]
      omega
    have hval : i.toInt.natAbs = i.toInt.toNat := by omega
    rw [if_neg hneg, i64ToString, if_neg hneg, parseU64_usizeToString habs, hval]

-- ---------------------------------------------------------------------------
-- Time
-- ---------------------------------------------------------------------------

/-- `std::time::Instant`: nanoseconds on the monotonic clock. -/
abbrev Instant := Nat

/-- `std::time::Duration`, in nanoseconds. -/
abbrev Duration := Nat

def Duration.fromSecs (s : Nat) : Duration := s * 10 ^ 9
def Duration.fromMillis (ms : Nat) : Duration := ms * 10 ^ 6

def Duration.asSecs (d : Duration) : Nat := d / 10 ^ 9
def Duration.asMillis (d : Duration) : Nat := d / 10 ^ 6

/-- `Instant + Duration`: the seconds are a signed 64-bit number, and a sum that
does not fit panics. -/
def Instant.add (t : Instant) (d : Duration) : Option Instant :=
  if (t + d) / 10 ^ 9 < 2 ^ 63 then some (t + d) else none

/-- The times an `Instant` can hold. -/
def Instant.Valid (t : Instant) : Prop := t / 10 ^ 9 < 2 ^ 63

theorem Instant.Valid.of_le {t t' : Instant} (h : t'.Valid) (hle : t ≤ t') : t.Valid :=
  (Nat.div_le_div_right hle).trans_lt h

theorem Instant.add_ne_none {t : Instant} {d : Duration} :
    Instant.add t d ≠ none ↔ Instant.Valid (t + d) := by
  rw [Instant.add, Instant.Valid]
  split <;> simp_all

theorem Instant.add_eq_some {t : Instant} {d : Duration} {t' : Instant}
    (h : Instant.add t d = some t') : t' = t + d := by
  simp only [Instant.add, Option.ite_none_right_eq_some, Option.some.injEq] at h
  exact h.2.symm

end InMemoryCache
