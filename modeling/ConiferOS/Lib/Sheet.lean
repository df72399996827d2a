import Mathlib

/-! # Text on a sheet

Text set in rows of a fixed width: a character takes the next cell, and a line break goes to the
start of the next row. Behind the text the sheet is blank, so the last character of a row can be
taken back by blanking its cell.
-/

namespace ConiferOS.Lib

/-- The place of the next character, and what is in the cells. -/
structure Sheet (α : Type*) where
  pos : Nat
  cells : Nat → α

namespace Sheet

variable {α : Type*} [DecidableEq α] (width : Nat) (newline blank : α)

def set (s : Sheet α) (c : α) : Sheet α :=
  if c = newline then { s with pos := (s.pos / width + 1) * width }
  else ⟨s.pos + 1, Function.update s.cells s.pos c⟩

def typeset (text : List α) : Sheet α := text.foldl (set width newline) ⟨0, fun _ => blank⟩

theorem typeset_snoc (text : List α) (c : α) :
    typeset width newline blank (text ++ [c]) = set width newline (typeset width newline blank text) c := by
  rw [typeset, List.foldl_append]
  rfl

variable {width newline blank} {text : List α} {c : α}

theorem set_newline (s : Sheet α) :
    set width newline s newline = { s with pos := (s.pos / width + 1) * width } := if_pos rfl

theorem set_char (s : Sheet α) (other : c ≠ newline) :
    set width newline s c = ⟨s.pos + 1, Function.update s.cells s.pos c⟩ := if_neg other

theorem lt_pos_set (positive : 0 < width) (s : Sheet α) : s.pos < (set width newline s c).pos := by
  unfold set
  split
  case isTrue => exact Nat.lt_mul_of_div_lt (Nat.lt_succ_self _) positive
  case isFalse => exact Nat.lt_succ_self _

/-- Every character takes the place further. -/
theorem eq_nil_of_pos (positive : 0 < width) (start : (typeset width newline blank text).pos = 0) :
    text = [] := by
  rcases List.eq_nil_or_concat text with rfl | ⟨before, c, rfl⟩
  · rfl
  · rw [List.concat_eq_append, typeset_snoc] at start
    exact absurd start (Nat.ne_zero_of_lt (lt_pos_set positive _))

theorem typeset_behind (positive : 0 < width) {index : Nat}
    (behind : (typeset width newline blank text).pos ≤ index) :
    (typeset width newline blank text).cells index = blank := by
  induction text using List.reverseRecOn with
  | nil => rfl
  | append_singleton text c ih =>
      rw [typeset_snoc] at behind ⊢
      have before := (lt_pos_set positive _).trans_le behind
      by_cases isNewline : c = newline
      · subst isNewline
        rw [set_newline]
        exact ih before.le
      · rw [set_char _ isNewline]
        exact (Function.update_of_ne before.ne' _ _).trans (ih before.le)

/-- Inside of a row the last character can be taken back. -/
theorem exists_last (positive : 0 < width) (inner : (typeset width newline blank text).pos % width ≠ 0) :
    (typeset width newline blank text).pos = (typeset width newline blank text.dropLast).pos + 1 ∧
      (typeset width newline blank text.dropLast).cells =
        Function.update (typeset width newline blank text).cells
          (typeset width newline blank text.dropLast).pos blank := by
  rcases List.eq_nil_or_concat text with rfl | ⟨before, c, rfl⟩
  · exact absurd (Nat.zero_mod width) inner
  · rw [List.concat_eq_append, List.dropLast_concat]
    rw [List.concat_eq_append, typeset_snoc] at inner
    by_cases isNewline : c = newline
    · subst isNewline
      rw [set_newline] at inner
      exact absurd (Nat.mul_mod_left _ _) inner
    · rw [typeset_snoc, set_char _ isNewline]
      refine ⟨rfl, ?_⟩
      rw [Function.update_idem]
      exact (Function.update_eq_self_iff.mpr (typeset_behind positive le_rfl).symm).symm

end Sheet

end ConiferOS.Lib
