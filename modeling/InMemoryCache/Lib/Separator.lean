-- SUMMARY: Where a two-item separator occurs in a concatenation of images.
import Mathlib.Data.List.Infix
import Mathlib.Tactic.Common

/-!
# Separators

A separator is a pair of items that marks the end of something in a list. If a function
maps the two halves of one separator to the halves of another, and uses those in no other
image, then the concatenated images hold the second separator exactly where the original
list held the first.
-/

namespace Lib

variable {α β : Type}

theorem pair_infix_cons {a b c : α} {s : List α} :
    [a, b] <:+: c :: s ↔ (c = a ∧ s.head? = some b) ∨ [a, b] <:+: s := by
  rw [List.infix_cons_iff, List.cons_prefix_cons, @eq_comm _ a c]
  cases s with
  | nil => simp
  | cons d s => simp [List.cons_prefix_cons, @eq_comm _ b d]

/-- A separator does not begin in a part without its first half. -/
theorem pair_infix_append {a b : α} {p s : List α} (hp : a ∉ p) :
    [a, b] <:+: p ++ s ↔ [a, b] <:+: s := by
  induction p with
  | nil => rfl
  | cons c p ih =>
    rw [List.mem_cons, not_or] at hp
    rw [List.cons_append, pair_infix_cons, ih hp.2]
    simp [Ne.symm hp.1]

/-- A separator does not end in a part without its second half. -/
theorem pair_infix_append_right {a b : α} {p q : List α} (hq : b ∉ q) :
    [a, b] <:+: p ++ q ↔ [a, b] <:+: p := by
  induction p with
  | nil =>
    rw [List.nil_append]
    exact ⟨fun h => absurd (h.subset (by simp)) hq, fun h => absurd (h.subset List.mem_cons_self)
      List.not_mem_nil⟩
  | cons c p ih =>
    rw [List.cons_append, pair_infix_cons, pair_infix_cons, ih]
    have hhead : (p ++ q).head? = some b ↔ p.head? = some b := by
      cases p with
      | nil => exact ⟨fun h => absurd (List.mem_of_head? h) hq, fun h => by cases h⟩
      | cons d p => rfl
    rw [hhead]

section FlatMap

variable {g : α → List β} {a b : α} {a' b' : β}

theorem head?_flatMap (hne : ∀ c, g c ≠ []) (hb : g b = [b']) (hother : ∀ c, c ≠ b → b' ∉ g c)
    (l : List α) : (l.flatMap g).head? = some b' ↔ l.head? = some b := by
  cases l with
  | nil => simp
  | cons c l =>
    rw [List.flatMap_cons, List.head?_cons, Option.some.injEq]
    constructor
    · intro h
      by_contra hc
      cases hg : g c with
      | nil => exact hne c hg
      | cons d s =>
        rw [hg, List.cons_append, List.head?_cons, Option.some.injEq] at h
        exact hother c hc (by rw [hg, h]; exact List.mem_cons_self)
    · rintro rfl
      rw [hb]
      rfl

/-- The images hold the separator exactly where the list held the one it comes from. -/
theorem pair_infix_flatMap (hne : ∀ c, g c ≠ []) (ha : g a = [a']) (hb : g b = [b'])
    (hfirst : ∀ c, c ≠ a → a' ∉ g c) (hsecond : ∀ c, c ≠ b → b' ∉ g c) (l : List α) :
    [a', b'] <:+: l.flatMap g ↔ [a, b] <:+: l := by
  induction l with
  | nil => simp
  | cons c l ih =>
    rw [List.flatMap_cons, pair_infix_cons, ← ih]
    by_cases hc : c = a
    · subst hc
      rw [ha, List.singleton_append, pair_infix_cons, head?_flatMap hne hb hsecond]
      simp
    · rw [pair_infix_append (hfirst c hc)]
      simp [hc]

end FlatMap

end Lib
