-- SUMMARY: Incremental decoders: draining a growing stream, and torn tails of encoded streams.
import Mathlib.Data.List.Basic
import Mathlib.Tactic.Common

/-!
# Incremental decoders

A decoder looks at the head of a stream and answers with a frame and the rest of
the stream, asks for more input, or rejects the stream. Its answers are stable:
once it has accepted or rejected, further input does not change its mind. From
stability alone follow the two facts stream readers rely on: more input only adds
frames to those found before it came, and a cut encoding is always answered with
a request for more.
-/

namespace Lib

/-- What a decoder answers at the head of a stream. -/
inductive Verdict (β : Type u) (α : Type v) (ε : Type w) where
  | frame (a : α) (rest : List β)
  | more
  | bad (e : ε)

/-- How decoding a finite stream ends: out of input with some left over, or at a
rejected frame. -/
inductive Stop (β : Type u) (ε : Type w) where
  | starved (rest : List β)
  | bad (e : ε)

/-- A decoder whose accepting and rejecting answers survive further input. -/
structure Decoder (β : Type u) (α : Type v) (ε : Type w) where
  decode : List β → Verdict β α ε
  decode_nil : decode [] = .more
  consumes : ∀ {s a r}, decode s = .frame a r → ∃ p, p ≠ [] ∧ s = p ++ r
  frame_stable : ∀ {s a r} t, decode s = .frame a r → decode (s ++ t) = .frame a (r ++ t)
  bad_stable : ∀ {s e} t, decode s = .bad e → decode (s ++ t) = .bad e

namespace Decoder

variable {β : Type u} {α : Type v} {ε : Type w} (d : Decoder β α ε)

theorem rest_length_lt {s : List β} {a : α} {r : List β} (h : d.decode s = .frame a r) :
    r.length < s.length := by
  obtain ⟨p, hp, rfl⟩ := d.consumes h
  have := List.length_pos_iff.mpr hp
  simp only [List.length_append]
  omega

/-! ## Draining a finite stream -/

/-- Decode frame after frame until the decoder starves or rejects. -/
def drain (s : List β) : List α × Stop β ε :=
  match _h : d.decode s with
  | .frame a r => (a :: (drain r).1, (drain r).2)
  | .more => ([], .starved s)
  | .bad e => ([], .bad e)
termination_by s.length
decreasing_by all_goals exact d.rest_length_lt _h

theorem drain_frame {s : List β} {a : α} {r : List β} (h : d.decode s = .frame a r) :
    d.drain s = (a :: (d.drain r).1, (d.drain r).2) := by
  rw [drain]
  split <;> simp_all

theorem drain_more {s : List β} (h : d.decode s = .more) : d.drain s = ([], .starved s) := by
  rw [drain]
  split <;> simp_all

theorem drain_bad {s : List β} {e : ε} (h : d.decode s = .bad e) :
    d.drain s = ([], .bad e) := by
  rw [drain]
  split <;> simp_all

@[simp] theorem drain_nil : d.drain [] = ([], .starved []) := d.drain_more d.decode_nil

/-- Draining a longer stream continues where draining its prefix stopped. -/
theorem drain_append (s t : List β) :
    d.drain (s ++ t) =
      match (d.drain s).2 with
      | .starved r => ((d.drain s).1 ++ (d.drain (r ++ t)).1, (d.drain (r ++ t)).2)
      | .bad e => ((d.drain s).1, .bad e) := by
  induction hn : s.length using Nat.strongRecOn generalizing s with
  | ind n ih =>
    cases hs : d.decode s with
    | frame a r =>
      rw [d.drain_frame (d.frame_stable t hs), d.drain_frame hs,
        ih _ (hn ▸ d.rest_length_lt hs) r rfl]
      cases (d.drain r).2 <;> rfl
    | more =>
      rw [d.drain_more hs]
      rfl
    | bad e =>
      rw [d.drain_bad hs, d.drain_bad (d.bad_stable t hs)]

/-! ## Encoded streams -/

/-- The decoder reads back the encoding of `a`, whatever follows it. -/
def Decodes (enc : α → List β) (a : α) : Prop :=
  ∀ rest, d.decode (enc a ++ rest) = .frame a rest

variable {d} {enc : α → List β} {a : α} {as : List α}

/-- A proper prefix of an encoding is undecided: an answer on it would survive to
the whole encoding and contradict the one given there. -/
theorem Decodes.torn (h : d.Decodes enc a) {p q : List β} (henc : enc a = p ++ q)
    (hq : q ≠ []) : d.decode p = .more := by
  have hwhole := h []
  rw [List.append_nil, henc] at hwhole
  cases hp : d.decode p with
  | frame b r =>
    rw [d.frame_stable q hp, Verdict.frame.injEq, List.append_eq_nil_iff] at hwhole
    exact absurd hwhole.2.2 hq
  | more => rfl
  | bad e =>
    rw [d.bad_stable q hp] at hwhole
    cases hwhole

theorem drain_flatMap_append (h : ∀ a ∈ as, d.Decodes enc a) (s : List β) :
    d.drain (as.flatMap enc ++ s) = (as ++ (d.drain s).1, (d.drain s).2) := by
  induction as with
  | nil => simp
  | cons a as ih =>
    rw [List.flatMap_cons, List.append_assoc, d.drain_frame (h a (by simp) _),
      ih fun b hb => h b (List.mem_cons_of_mem a hb)]
    rfl

/-- The records of a stream that lie wholly within its first `n` items. -/
def wholly (enc : α → List β) : List α → Nat → List α
  | [], _ => []
  | a :: as, n => if (enc a).length ≤ n then a :: wholly enc as (n - (enc a).length) else []

theorem wholly_subset (enc : α → List β) (as : List α) (n : Nat) : wholly enc as n ⊆ as := by
  induction as generalizing n with
  | nil => exact List.nil_subset _
  | cons a as ih =>
    rw [wholly]
    split
    · exact List.cons_subset_cons a (ih _)
    · exact List.nil_subset _

/-- They are its first records, -/
theorem wholly_eq_take (enc : α → List β) (as : List α) (n : Nat) :
    wholly enc as n = as.take (wholly enc as n).length := by
  induction as generalizing n with
  | nil => rfl
  | cons a as ih =>
    rw [wholly]
    split
    · rw [List.length_cons, List.take_succ_cons, ← ih]
    · rfl

/-- and all of those whose encodings fit. -/
theorem le_length_wholly {enc : α → List β} {as : List α} {j n : Nat} (hj : j ≤ as.length)
    (h : ((as.take j).flatMap enc).length ≤ n) : j ≤ (wholly enc as n).length := by
  induction as generalizing j n with
  | nil => exact hj
  | cons a as ih =>
    cases j with
    | zero => exact Nat.zero_le _
    | succ j =>
      rw [List.take_succ_cons, List.flatMap_cons, List.length_append] at h
      rw [wholly, if_pos (Nat.le_of_add_right_le h), List.length_cons]
      exact Nat.succ_le_succ (ih (Nat.le_of_succ_le_succ hj) (Nat.le_sub_of_add_le' h))

/-- A cut stream is its whole records followed by a proper prefix of the next one. -/
theorem take_flatMap (enc : α → List β) (as : List α) (n : Nat) :
    ∃ tail, (as.flatMap enc).take n = (wholly enc as n).flatMap enc ++ tail ∧
      (tail = [] ∨ ∃ a ∈ as, ∃ q, q ≠ [] ∧ enc a = tail ++ q) := by
  induction as generalizing n with
  | nil => exact ⟨[], by simp [wholly], .inl rfl⟩
  | cons a as ih =>
    by_cases h : (enc a).length ≤ n
    · obtain ⟨tail, htake, htail⟩ := ih (n - (enc a).length)
      refine ⟨tail, ?_, ?_⟩
      · rw [List.flatMap_cons, List.take_append, List.take_of_length_le h, htake, wholly, if_pos h,
          List.flatMap_cons, List.append_assoc]
      · rcases htail with htail | ⟨b, hb, q, hq, hbq⟩
        · exact .inl htail
        · exact .inr ⟨b, List.mem_cons_of_mem a hb, q, hq, hbq⟩
    · refine ⟨(enc a).take n, ?_, .inr ⟨a, by simp, (enc a).drop n, ?_, ?_⟩⟩
      · rw [List.flatMap_cons, List.take_append_of_le_length (by omega), wholly, if_neg h]
        rfl
      · rw [Ne, List.drop_eq_nil_iff]
        omega
      · exact (List.take_append_drop n (enc a)).symm

/-- Draining a cut stream yields exactly its whole records. -/
theorem drain_take (h : ∀ a ∈ as, d.Decodes enc a) (n : Nat) :
    ∃ tail, d.drain ((as.flatMap enc).take n) = (wholly enc as n, .starved tail) := by
  obtain ⟨tail, htake, htail⟩ := take_flatMap enc as n
  have hsub : ∀ a ∈ wholly enc as n, d.Decodes enc a := fun a ha =>
    h a (wholly_subset enc as n ha)
  have hmore : d.decode tail = .more := by
    rcases htail with rfl | ⟨a, ha, q, hq, haq⟩
    · exact d.decode_nil
    · exact (h a ha).torn haq hq
  exact ⟨tail, by rw [htake, drain_flatMap_append hsub, d.drain_more hmore, List.append_nil]⟩

end Decoder

end Lib
