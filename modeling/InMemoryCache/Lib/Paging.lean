-- SUMMARY: Reading rows of entries page by page, and what a sequence of pages covers.
import Mathlib.Data.List.FinRange
import Mathlib.Tactic.Common

/-!
# Paging

A reader walks through numbered rows of entries. A page starts at a place, takes at most
a given number of entries, row after row, and ends at the place where the next page goes
on. Over rows that do not change the pages put together are the rows; over rows that do
change, an entry is read unless a change brings it behind the reader.
-/

namespace Lib

/-- A row and an offset in it. -/
structure Place where
  row : Nat
  offset : Nat
  deriving DecidableEq

/-- The order in which places are read. -/
def Place.Before (p q : Place) : Prop := p.row < q.row ∨ p.row = q.row ∧ p.offset < q.offset

namespace Place

theorem not_before {p q : Place} :
    ¬ p.Before q ↔ q.row < p.row ∨ q.row = p.row ∧ q.offset ≤ p.offset := by
  simp only [Before]
  omega

theorem before_irrefl (p : Place) : ¬ p.Before p := by
  simp [Before]

theorem Before.trans {p q r : Place} (h : p.Before q) (h' : q.Before r) : p.Before r := by
  simp only [Before] at h h' ⊢
  omega

end Place

section Rows

variable {α : Type u} {n : Nat} (rows : Fin n → List α)

/-- The page of at most `budget` entries from a place on, over at most `left` rows: where it
ends and what it holds. -/
def page : Nat → Place → Nat → Place × List α
  | 0, p, _ => (p, [])
  | left + 1, p, budget =>
    if h : p.row < n ∧ 0 < budget then
      let row := rows ⟨p.row, h.1⟩
      let seen := (row.drop p.offset).take budget
      if p.offset + seen.length ≥ row.length then
        let (q, more) := page left { row := p.row + 1, offset := 0 } (budget - seen.length)
        (q, seen ++ more)
      else ({ p with offset := p.offset + seen.length }, seen)
    else (p, [])

/-- The page over all rows that are left. -/
def nextPage (p : Place) (budget : Nat) : Place × List α := page rows (n - p.row) p budget

/-- The rows from number `i` on. -/
def rowsFrom (i : Nat) : List α := ((List.finRange n).drop i).flatMap rows

/-- The entries from a place on. -/
def rest (p : Place) : List α :=
  if h : p.row < n then (rows ⟨p.row, h⟩).drop p.offset ++ rowsFrom rows (p.row + 1) else []

theorem rest_of_ge {p : Place} (h : n ≤ p.row) : rest rows p = [] :=
  dif_neg (Nat.not_lt.mpr h)

theorem rest_row (i : Nat) : rest rows { row := i, offset := 0 } = rowsFrom rows i := by
  rw [rest]
  split
  · rename_i h
    have hdrop : (List.finRange n).drop i = ⟨i, h⟩ :: (List.finRange n).drop (i + 1) := by
      rw [List.drop_eq_getElem_cons (by rwa [List.length_finRange]), List.getElem_finRange]
      rfl
    rw [rowsFrom, rowsFrom, hdrop, List.flatMap_cons]
    rfl
  · rename_i h
    rw [rowsFrom, List.drop_of_length_le (by rw [List.length_finRange]; exact Nat.not_lt.mp h)]
    rfl

theorem rest_start : rest rows { row := 0, offset := 0 } = (List.finRange n).flatMap rows :=
  rest_row rows 0

theorem rowsFrom_suffix (i : Nat) : rowsFrom rows i <:+ (List.finRange n).flatMap rows := by
  refine ⟨((List.finRange n).take i).flatMap rows, ?_⟩
  rw [rowsFrom, ← List.flatMap_append, List.take_append_drop]

theorem rest_suffix (p : Place) : rest rows p <:+ (List.finRange n).flatMap rows := by
  rw [rest]
  split
  · rename_i h
    have hrow := rest_row rows p.row
    rw [rest, dif_pos h, List.drop_zero] at hrow
    refine List.IsSuffix.trans ?_ (rowsFrom_suffix rows p.row)
    rw [← hrow]
    exact List.suffix_append_self_iff.mpr (List.drop_suffix _ _)
  · exact List.nil_suffix

/-! ## One page -/

/-- A page and what is left after it are what was left before it. -/
theorem page_append_rest {left : Nat} {p : Place} (hleft : n - p.row ≤ left) (budget : Nat) :
    (page rows left p budget).2 ++ rest rows (page rows left p budget).1 = rest rows p := by
  induction left generalizing p budget with
  | zero => rfl
  | succ left ih =>
    rw [page]
    split
    · rename_i h
      dsimp only
      have hsplit := List.take_append_drop budget ((rows ⟨p.row, h.1⟩).drop p.offset)
      split
      · rename_i hend
        have hrest := @ih { row := p.row + 1, offset := 0 } (by show n - (p.row + 1) ≤ left; omega)
          (budget - (((rows ⟨p.row, h.1⟩).drop p.offset).take budget).length)
        -- nothing of the row is left behind
        have hnil : ((rows ⟨p.row, h.1⟩).drop p.offset).drop budget = [] := by
          rw [List.drop_eq_nil_iff]
          simp only [List.length_take, List.length_drop] at hend ⊢
          omega
        rw [hnil, List.append_nil] at hsplit
        dsimp only
        rw [List.append_assoc, hrest, hsplit, rest_row, rest, dif_pos h.1]
      · rename_i hend
        have hlength : (((rows ⟨p.row, h.1⟩).drop p.offset).take budget).length = budget := by
          simp only [List.length_take, List.length_drop] at hend ⊢
          omega
        rw [hlength, rest, dif_pos h.1, rest, dif_pos h.1, ← List.append_assoc, ← List.drop_drop,
          hsplit]
    · rfl

/-- A page holds entries of the rows, each as often as they do. -/
theorem page_sublist {left : Nat} {p : Place} (hleft : n - p.row ≤ left) (budget : Nat) :
    (page rows left p budget).2.Sublist ((List.finRange n).flatMap rows) := by
  have hprefix : (page rows left p budget).2 <+: rest rows p :=
    ⟨_, page_append_rest rows hleft budget⟩
  exact hprefix.sublist.trans (rest_suffix rows p).sublist

/-- A page does not go back, and one that reads nothing goes to a later row. -/
theorem page_progress {left : Nat} {p : Place} (hleft : n - p.row ≤ left) (budget : Nat) :
    p.row ≤ (page rows left p budget).1.row ∧
      (p.row < n → 0 < budget → p.Before (page rows left p budget).1 ∧
        ((page rows left p budget).2 = [] → p.row < (page rows left p budget).1.row)) := by
  induction left generalizing p budget with
  | zero => exact ⟨le_rfl, fun h => absurd h (by omega)⟩
  | succ left ih =>
    rw [page]
    split
    · rename_i h
      dsimp only
      split
      · have hmore := (@ih { row := p.row + 1, offset := 0 } (by show n - (p.row + 1) ≤ left; omega)
          (budget - (((rows ⟨p.row, h.1⟩).drop p.offset).take budget).length)).1
        have hlater : p.row < (page rows left { row := p.row + 1, offset := 0 }
            (budget - (((rows ⟨p.row, h.1⟩).drop p.offset).take budget).length)).1.row :=
          Nat.lt_of_succ_le hmore
        exact ⟨hlater.le, fun _ _ => ⟨.inl hlater, fun _ => hlater⟩⟩
      · rename_i hend
        have hpos : 0 < (((rows ⟨p.row, h.1⟩).drop p.offset).take budget).length := by
          simp only [List.length_take, List.length_drop] at hend ⊢
          omega
        refine ⟨le_rfl, fun _ _ => ⟨.inr ⟨rfl, Nat.lt_add_of_pos_right hpos⟩, fun hnil => ?_⟩⟩
        exact absurd hnil (List.length_pos_iff.mp hpos)
    · rename_i h
      exact ⟨le_rfl, fun hrow hbudget => absurd ⟨hrow, hbudget⟩ h⟩

/-- The offset is one of the row, or the row's end. -/
def Fits (p : Place) : Prop := ∀ h : p.row < n, p.offset ≤ (rows ⟨p.row, h⟩).length

theorem fits_page (left : Nat) {p : Place} {budget : Nat} (h : p.Before (page rows left p budget).1) :
    Fits rows (page rows left p budget).1 := by
  have hor : (page rows left p budget).1 = p ∨ Fits rows (page rows left p budget).1 := by
    clear h
    induction left generalizing p budget with
    | zero => exact .inl rfl
    | succ left ih =>
      rw [page]
      split
      · dsimp only
        right
        split
        · rcases ih with hsame | hfits
          · rw [hsame]
            exact fun _ => Nat.zero_le _
          · exact hfits
        · rename_i hend
          exact fun _ => (Nat.not_le.mp hend).le
      · exact .inl rfl
  rcases hor with hsame | hfits
  · rw [hsame] at h
    exact absurd h (Place.before_irrefl p)
  · exact hfits

/-- An element between the ends of a slice is in the slice. -/
theorem mem_take_drop {l : List α} {x : α} {offset j budget : Nat} (hx : l[j]? = some x)
    (hle : offset ≤ j) (hlt : j < offset + ((l.drop offset).take budget).length) :
    x ∈ (l.drop offset).take budget := by
  rw [List.length_take, List.length_drop] at hlt
  refine List.mem_of_getElem? (i := j - offset) ?_
  rw [List.getElem?_take_of_lt (by omega), List.getElem?_drop, Nat.add_sub_cancel' hle, hx]

/-- A page holds every entry between its ends. -/
theorem mem_page {left : Nat} {p : Place} {budget : Nat} {i : Fin n} {j : Nat} {x : α}
    (hx : (rows i)[j]? = some x) (hstart : ¬ Place.Before ⟨i, j⟩ p)
    (hend : Place.Before ⟨i, j⟩ (page rows left p budget).1) :
    x ∈ (page rows left p budget).2 := by
  induction left generalizing p budget with
  | zero => exact absurd hend hstart
  | succ left ih =>
    rw [page] at hend ⊢
    split at hend
    · rename_i h
      rw [dif_pos h]
      dsimp only at hend ⊢
      rw [Place.not_before] at hstart
      -- in the row of the page's start, or in a later one
      by_cases hrow : p.row = i
      · obtain rfl : i = ⟨p.row, h.1⟩ := Fin.ext hrow.symm
        have hle : p.offset ≤ j := by
          rcases hstart with hlt | ⟨-, hle⟩
          · exact absurd hlt (Nat.lt_irrefl _)
          · exact hle
        have hlength : j < (rows ⟨p.row, h.1⟩).length := (List.getElem?_eq_some_iff.mp hx).1
        split at hend
        · rename_i hge
          rw [if_pos hge]
          exact List.mem_append_left _ (mem_take_drop hx hle (Nat.lt_of_lt_of_le hlength hge))
        · rename_i hge
          rw [if_neg hge]
          rcases hend with hlt | ⟨-, hlt⟩
          · exact absurd hlt (Nat.lt_irrefl _)
          · exact mem_take_drop hx hle hlt
      · have hlt : p.row < i := by
          rcases hstart with hlt | ⟨heq, -⟩
          · exact hlt
          · exact absurd heq hrow
        split at hend
        · rename_i hge
          rw [if_pos hge]
          refine List.mem_append_right _ (ih ?_ hend)
          rw [Place.not_before]
          show p.row + 1 < i ∨ p.row + 1 = i ∧ 0 ≤ j
          omega
        · rcases hend with hlt' | ⟨heq, -⟩
          · exact absurd (hlt.trans hlt') (Nat.lt_irrefl _)
          · exact absurd heq.symm hrow
    · exact absurd hend hstart

/-- A page leaves less to read, or fewer rows. -/
theorem measure_nextPage {p : Place} (hrow : p.row < n) {budget : Nat} (hbudget : 0 < budget) :
    (rest rows (nextPage rows p budget).1).length + (n - (nextPage rows p budget).1.row) <
      (rest rows p).length + (n - p.row) := by
  have hlength := congrArg List.length (page_append_rest rows (le_refl (n - p.row)) budget)
  obtain ⟨hle, hprogress⟩ := page_progress rows (le_refl (n - p.row)) budget
  have hlater := (hprogress hrow hbudget).2
  rw [List.length_append] at hlength
  rw [nextPage]
  cases hseen : (page rows (n - p.row) p budget).2 with
  | nil =>
    have hlt := hlater hseen
    rw [hseen, List.length_nil] at hlength
    omega
  | cons x seen =>
    rw [hseen, List.length_cons] at hlength
    omega

end Rows

/-! ## A sequence of pages -/

section Reading

variable {α : Type u} {n : Nat} (rows : Nat → Fin n → List α) (budget : Nat → Nat)

/-- Where page `m` starts, when page `m` reads the rows as they are at that time. -/
def places : Nat → Place
  | 0 => { row := 0, offset := 0 }
  | m + 1 => (nextPage (rows m) (places m) (budget m)).1

def pageAt (m : Nat) : List α := (nextPage (rows m) (places rows budget m) (budget m)).2

/-- An entry that is there throughout is read, unless it was ahead of the reader in the
reader's row and was brought behind it. -/
theorem exists_mem_pageAt {i : Fin n} {index : Nat → Nat} {x : Nat → α} {last : Nat}
    (hx : ∀ m < last, (rows m i)[index m]? = some (x m))
    (hend : n ≤ (places rows budget last).row)
    (hstay : ∀ m, m + 1 < last → (places rows budget (m + 1)).row = i →
      (places rows budget (m + 1)).offset ≤ index m →
        (places rows budget (m + 1)).offset ≤ index (m + 1)) :
    ∃ m < last, x m ∈ pageAt rows budget m := by
  by_contra hnone
  have hmiss : ∀ m < last, ¬ Place.Before ⟨i, index m⟩ (places rows budget m) →
      ¬ Place.Before ⟨i, index m⟩ (places rows budget (m + 1)) := fun m hm hahead hbefore =>
    hnone ⟨m, hm, mem_page (rows m) (hx m hm) hahead hbefore⟩
  have hahead : ∀ m < last, ¬ Place.Before ⟨i, index m⟩ (places rows budget m) := by
    intro m hm
    induction m with
    | zero => rintro (hlt | ⟨-, hlt⟩) <;> exact absurd hlt (Nat.not_lt_zero _)
    | succ m ih =>
      have hstill := hmiss m (Nat.lt_of_succ_lt hm) (ih (Nat.lt_of_succ_lt hm))
      rw [Place.not_before] at hstill ⊢
      rcases hstill with hlt | ⟨hrow, hle⟩
      · exact .inl hlt
      · exact .inr ⟨hrow, hstay m hm hrow hle⟩
  cases last with
  | zero => exact absurd hend (Nat.not_le.mpr i.pos)
  | succ m =>
    exact hmiss m (Nat.lt_succ_self m) (hahead m (Nat.lt_succ_self m))
      (.inl (Nat.lt_of_lt_of_le i.isLt hend))

end Reading

section Still

variable {α : Type u} {n : Nat} (rows : Fin n → List α) (budget : Nat → Nat)

/-- The pages so far and what is left are the rows. -/
theorem flatMap_pageAt (m : Nat) :
    (List.range m).flatMap (pageAt (fun _ => rows) budget) ++
        rest rows (places (fun _ => rows) budget m) =
      (List.finRange n).flatMap rows := by
  induction m with
  | zero => exact rest_start rows
  | succ m ih =>
    rw [List.range_succ, List.flatMap_append, List.flatMap_singleton, List.append_assoc, ← ih]
    exact congrArg _ (page_append_rest rows le_rfl (budget m))

/-- Pages that may hold an entry get past the rows. -/
theorem exists_places_ge (hbudget : ∀ m, 0 < budget m) :
    ∃ m, n ≤ (places (fun _ => rows) budget m).row := by
  by_contra hnone
  have hrow : ∀ m, (places (fun _ => rows) budget m).row < n := fun m =>
    Nat.not_le.mp fun hge => hnone ⟨m, hge⟩
  let measure (m : Nat) : Nat :=
    (rest rows (places (fun _ => rows) budget m)).length +
      (n - (places (fun _ => rows) budget m).row)
  have hdrop : ∀ m, measure m + m ≤ measure 0 := by
    intro m
    induction m with
    | zero => exact le_rfl
    | succ m ih =>
      have hlt : measure (m + 1) < measure m := measure_nextPage rows (hrow m) (hbudget m)
      omega
  have hlast := hdrop (measure 0 + 1)
  omega

end Still

end Lib
