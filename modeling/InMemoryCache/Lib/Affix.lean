-- SUMMARY: Trimming both ends of a list, and stripping a suffix off it.
import Mathlib.Data.List.DropRight
import Mathlib.Data.List.Infix
import Mathlib.Tactic.Common

/-!
# Affixes

Trimming takes the items with a property off both ends of a list. A list is *bare* if
neither of its ends has the property; it is then what is left when it stands between items
that have it.
-/

namespace Lib

variable {α : Type}

/-! ## Trimming -/

section Trim

variable {p : α → Bool} {l w w' core : List α}

def trim (p : α → Bool) (l : List α) : List α := (l.dropWhile p).rdropWhile p

/-- Neither end of the list has the property. -/
structure Bare (p : α → Bool) (l : List α) : Prop where
  head : ∀ a ∈ l.head?, p a = false
  last : ∀ a ∈ l.getLast?, p a = false

theorem not_of_dropWhile {a : α} {rest : List α} (h : l.dropWhile p = a :: rest) : p a = false := by
  have hhead := List.head?_dropWhile_not p l
  rw [h] at hhead
  simpa using hhead

theorem bare_trim (p : α → Bool) (l : List α) : Bare p (trim p l) where
  head a ha := by
    cases hdrop : l.dropWhile p with
    | nil =>
      rw [trim, hdrop] at ha
      cases ha
    | cons b rest =>
      -- what is left is a prefix, so it begins as the list does without its front
      rw [trim, hdrop] at ha
      obtain ⟨cut, hcut⟩ := List.rdropWhile_prefix p (l := b :: rest)
      cases hleft : (b :: rest).rdropWhile p with
      | nil =>
        rw [hleft] at ha
        cases ha
      | cons c left =>
        rw [hleft] at ha hcut
        cases ha
        cases hcut
        exact not_of_dropWhile hdrop
  last a ha := by
    obtain ⟨hne, rfl⟩ := List.mem_getLast?_eq_getLast ha
    exact Bool.eq_false_iff.mpr (List.rdropWhile_last_not p (l.dropWhile p) hne)

/-- What trimming takes off has the property. -/
theorem exists_trim (p : α → Bool) (l : List α) :
    ∃ w w', l = w ++ trim p l ++ w' ∧ (∀ a ∈ w, p a = true) ∧ ∀ a ∈ w', p a = true := by
  refine ⟨l.takeWhile p, (l.dropWhile p).rtakeWhile p, ?_, fun a ha => ?_, fun a ha => ?_⟩
  · rw [trim, List.append_assoc, List.rdropWhile_append_rtakeWhile,
      List.takeWhile_append_dropWhile]
  · exact List.mem_takeWhile_imp ha
  · exact List.mem_rtakeWhile_imp ha

theorem dropWhile_append_bare (hw : ∀ a ∈ w, p a = true) (h : ∀ a ∈ l.head?, p a = false) :
    (w ++ l).dropWhile p = l := by
  rw [List.dropWhile_append_of_pos hw]
  cases l with
  | nil => rfl
  | cons a l =>
    have ha : p a = false := h a rfl
    exact List.dropWhile_cons_of_neg (by rw [ha]; decide)

theorem rdropWhile_append_bare (hw : ∀ a ∈ w, p a = true) (h : ∀ a ∈ l.getLast?, p a = false) :
    (l ++ w).rdropWhile p = l := by
  have hdrop : (w.reverse ++ l.reverse).dropWhile p = l.reverse :=
    dropWhile_append_bare (fun a ha => hw a (List.mem_reverse.mp ha)) (by rwa [List.head?_reverse])
  rw [List.rdropWhile, List.reverse_append, hdrop, List.reverse_reverse]

/-- A bare list is left of itself between items that have the property. -/
theorem trim_append (hw : ∀ a ∈ w, p a = true) (hw' : ∀ a ∈ w', p a = true) (h : Bare p core) :
    trim p (w ++ core ++ w') = core := by
  cases core with
  | nil =>
    have hall : (w ++ w').dropWhile p = [] := by
      rw [List.dropWhile_eq_nil_iff]
      exact fun a ha => (List.mem_append.mp ha).elim (hw a) (hw' a)
    rw [trim, List.append_nil, hall]
    rfl
  | cons a core =>
    rw [trim, List.append_assoc, dropWhile_append_bare hw fun b hb => h.head b (by simpa using hb)]
    exact rdropWhile_append_bare hw' h.last

/-- A list whose front does not have the property loses nothing in front. -/
theorem exists_trim_of_head (h : ∀ a ∈ l.head?, p a = false) :
    ∃ w', l = trim p l ++ w' ∧ ∀ a ∈ w', p a = true := by
  obtain ⟨w, w', hl, hw, hw'⟩ := exists_trim p l
  cases w with
  | nil => exact ⟨w', hl, hw'⟩
  | cons a w =>
    have hfront : p a = false := h a (by rw [hl]; rfl)
    rw [hw a List.mem_cons_self] at hfront
    cases hfront

end Trim

/-! ## Suffixes -/

section Suffix

variable [DecidableEq α] {l suffix r : List α}

def stripSuffix (suffix l : List α) : Option (List α) :=
  if suffix <:+ l then some (l.take (l.length - suffix.length)) else none

theorem stripSuffix_eq_some : stripSuffix suffix l = some r ↔ l = r ++ suffix := by
  rw [stripSuffix]
  constructor
  · intro h
    split at h
    · rename_i hsuffix
      obtain ⟨r', rfl⟩ := hsuffix
      rw [List.length_append, Nat.add_sub_cancel, List.take_left] at h
      rw [Option.some.inj h]
    · cases h
  · rintro rfl
    rw [if_pos (List.suffix_append r suffix), List.length_append, Nat.add_sub_cancel,
      List.take_left]

/-- A list does not end with another suffix of the same length. -/
theorem stripSuffix_append_ne {suffix' : List α} (hlen : suffix.length = suffix'.length)
    (hne : suffix ≠ suffix') : stripSuffix suffix' (r ++ suffix) = none := by
  rw [Option.eq_none_iff_forall_ne_some]
  intro r' h
  exact hne (List.append_inj_right' (stripSuffix_eq_some.mp h) hlen)

end Suffix

end Lib
