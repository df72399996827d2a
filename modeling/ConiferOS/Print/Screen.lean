import ConiferOS.Lib.Sheet
import ConiferOS.Print.Terminal
import ConiferOS.User.Readline

/-! # The screen shows the text

What `print.c` has made of the characters sent to it: the text that is left after every backspace
has taken back a character, set in rows of 80 columns. This is so as long as the text fits on the
screen and no backspace comes at the start of a later row.
-/

namespace ConiferOS.Print

open Lib User

/-- Text as the terminal sets it. -/
def typeset (text : List Byte) : Sheet Byte := Sheet.typeset vgaWidth newline space text

/-- The character in a cell of the frame buffer. -/
def Terminal.glyph (t : Terminal) (index : Nat) : Byte := ((t.cell index).getD 0).setWidth 8

structure Shows (t : Terminal) (text : List Byte) : Prop where
  row : t.terminalRow.toNat = (typeset text).pos / vgaWidth
  col : t.terminalCol.toNat = (typeset text).pos % vgaWidth
  glyphs : ∀ index < vgaWidth * vgaHeight, t.glyph index = (typeset text).cells index

/-- There is room on the screen, and a backspace does not come at the start of a later row. -/
def OnSheet (text : List Byte) (c : Byte) : Prop :=
  (typeset text).pos < vgaWidth * vgaHeight ∧
    (c = backspace → (typeset text).pos % vgaWidth = 0 → (typeset text).pos = 0)

instance (text : List Byte) (c : Byte) : Decidable (OnSheet text c) := inferInstanceAs (Decidable (_ ∧ _))

/-! ## One character -/

theorem setWidth_terminalMakeChar (c color : Byte) : (terminalMakeChar c color).setWidth 8 = c := by
  ext i inside
  have low : i < 16 := by omega
  simp [terminalMakeChar, BitVec.getElem_signExtend, inside, low]

/-- The newest store decides. -/
theorem glyph_cons (t : Terminal) (row col : BitVec 16) (place : Nat) (c color : Byte) :
    Terminal.glyph ⟨row, col, (place, terminalMakeChar c color) :: t.stores⟩ =
      Function.update t.glyph place c := by
  funext index
  by_cases here : index = place
  · subst here
    simp [Terminal.glyph, Terminal.cell, setWidth_terminalMakeChar]
  · rw [Function.update_of_ne here]
    simp [Terminal.glyph, Terminal.cell, Ne.symm here]

section Step

variable {t : Terminal} {text : List Byte} {c : Byte}

theorem typeset_newline (text : List Byte) :
    typeset (text ++ [newline]) = { typeset text with pos := ((typeset text).pos / 80 + 1) * 80 } := by
  rw [typeset, Sheet.typeset_snoc, Sheet.set_newline]
  rfl

theorem typeset_char (text : List Byte) (other : c ≠ newline) :
    typeset (text ++ [c]) =
      ⟨(typeset text).pos + 1, Function.update (typeset text).cells (typeset text).pos c⟩ := by
  rw [typeset, Sheet.typeset_snoc, Sheet.set_char _ other]
  rfl

theorem Shows.cursor (shows : Shows t text) : t.cursor = (typeset text).pos := by
  rw [Terminal.cursor, shows.row, shows.col]
  exact Nat.div_add_mod' _ _

/-- A cell is written on both sides. -/
theorem Shows.update (shows : Shows t text) (place : Nat) (c : Byte) :
    ∀ index < vgaWidth * vgaHeight,
      Function.update t.glyph place c index = Function.update (typeset text).cells place c index := by
  intro index inside
  by_cases here : index = place
  · rw [here, Function.update_self, Function.update_self]
  · rw [Function.update_of_ne here, Function.update_of_ne here, shows.glyphs index inside]

theorem Shows.newline (shows : Shows t text) (room : (typeset text).pos < 1600) :
    Shows { t with terminalRow := t.terminalRow + 1, terminalCol := 0 } (text ++ [Print.newline]) := by
  have row : t.terminalRow.toNat = (typeset text).pos / 80 := shows.row
  have next : (t.terminalRow + 1).toNat = t.terminalRow.toNat + 1 := by bv_omega
  constructor
  · rw [typeset_newline, next, row]
    exact (Nat.mul_div_cancel _ (by decide)).symm
  · rw [typeset_newline]
    exact (Nat.mul_mod_left _ _).symm
  · rw [typeset_newline]
    exact shows.glyphs

theorem Shows.advance (shows : Shows t text) (room : (typeset text).pos < 1600)
    (other : c ≠ Print.newline) (color : Byte) : Shows (terminalAdvance c color t) (text ++ [c]) := by
  have row : t.terminalRow.toNat = (typeset text).pos / 80 := shows.row
  have col : t.terminalCol.toNat = (typeset text).pos % 80 := shows.col
  have glyphs := shows.update t.cursor c
  rw [shows.cursor] at glyphs
  by_cases inner : t.terminalCol.toNat + 1 < 80
  · have next : (t.terminalCol + 1).toNat = t.terminalCol.toNat + 1 := by bv_omega
    rw [terminalAdvance_inner inner, shows.cursor]
    constructor
    · rw [typeset_char text other]
      change t.terminalRow.toNat = ((typeset text).pos + 1) / 80
      omega
    · rw [typeset_char text other]
      change (t.terminalCol + 1).toNat = ((typeset text).pos + 1) % 80
      omega
    · rw [typeset_char text other, glyph_cons]
      exact glyphs
  · have last : t.terminalCol.toNat + 1 = 80 := by omega
    have next : (t.terminalRow + 1).toNat = t.terminalRow.toNat + 1 := by bv_omega
    rw [terminalAdvance_last last, shows.cursor]
    constructor
    · rw [typeset_char text other]
      change (t.terminalRow + 1).toNat = ((typeset text).pos + 1) / 80
      omega
    · rw [typeset_char text other]
      change 0 = ((typeset text).pos + 1) % 80
      omega
    · rw [typeset_char text other, glyph_cons]
      exact glyphs

/-- Before the first character there is nothing to take back. -/
theorem Shows.backspace (shows : Shows t text) (fits : OnSheet text User.backspace) :
    Shows (terminalBackspace t) text.dropLast := by
  have row : t.terminalRow.toNat = (typeset text).pos / 80 := shows.row
  have col : t.terminalCol.toNat = (typeset text).pos % 80 := shows.col
  by_cases start : (typeset text).pos % vgaWidth = 0
  · have origin := fits.2 rfl start
    have empty : text = [] := Sheet.eq_nil_of_pos (by decide) origin
    have here : t.terminalRow = 0 ∧ t.terminalCol = 0 := by
      rw [origin] at row col
      exact ⟨BitVec.eq_of_toNat_eq row, BitVec.eq_of_toNat_eq col⟩
    rw [terminalBackspace, if_pos here]
    rwa [empty] at shows ⊢
  · obtain ⟨pos, cells⟩ : (typeset text).pos = (typeset text.dropLast).pos + 1 ∧
        (typeset text.dropLast).cells =
          Function.update (typeset text).cells (typeset text.dropLast).pos space :=
      Sheet.exists_last (by decide) start
    have positive : (typeset text).pos % 80 ≠ 0 := start
    have back : (t.terminalCol - 1).toNat = t.terminalCol.toNat - 1 := by bv_omega
    have again : t.terminalCol - 1 + 1 = t.terminalCol := BitVec.sub_add_cancel _ _
    -- The cursor before the last character.
    have place : Terminal.cursor ⟨t.terminalRow, t.terminalCol - 1, t.stores⟩ =
        (typeset text.dropLast).pos := by
      change t.terminalRow.toNat * 80 + (t.terminalCol - 1).toNat = _
      omega
    have erase := terminalBackspace_inner (t := ⟨t.terminalRow, t.terminalCol - 1, t.stores⟩)
      (by change (t.terminalCol - 1).toNat + 1 < 80; omega) t.stores
    simp only [again, place] at erase
    have same : terminalBackspace t = _ := erase
    rw [same]
    constructor
    · change t.terminalRow.toNat = (typeset text.dropLast).pos / 80
      omega
    · change (t.terminalCol - 1).toNat = (typeset text.dropLast).pos % 80
      omega
    · rw [glyph_cons, cells]
      exact shows.update _ _

/-- One character is sent, and one key changes the text. -/
theorem Shows.send (shows : Shows t text) {sent : Byte × Byte} (fits : OnSheet text sent.1) :
    Shows (Print.send t sent) (edit text sent.1) := by
  obtain ⟨c, color⟩ := sent
  rw [Print.send, terminalWriteChar, edit]
  by_cases isNewline : c = Print.newline
  · subst isNewline
    exact shows.newline fits.1
  · by_cases isBackspace : c = User.backspace
    · subst isBackspace
      exact shows.backspace fits
    · have noBackspace : c ≠ backspaceAsciiChar := isBackspace
      rw [if_neg isNewline, if_neg noBackspace, if_neg isBackspace]
      exact shows.advance fits.1 isNewline color

end Step

/-! ## From the start -/

/-- What every step keeps once one has brought it about. -/
theorem foldl_makes {α β : Type*} {f : β → α → β} {P : α → β → Prop} (makes : ∀ b x, P x (f b x))
    (keeps : ∀ b x y, P x b → P x (f b y)) {xs : List α} {x : α} (member : x ∈ xs) (b : β) :
    P x (xs.foldl f b) := by
  induction xs generalizing b with
  | nil => cases member
  | cons y xs ih =>
      rcases List.mem_cons.mp member with rfl | later
      · exact List.foldlRecOn xs f (makes b x) fun b kept y _ => keeps b x y kept
      · exact ih later (f b y)

def Written (index : Nat) (t : Terminal) : Prop := ∃ store ∈ t.stores, store.1 = index

theorem Written.keep {index : Nat} {t : Terminal} (written : Written index t) (row col : Nat)
    (c color : Byte) : Written index (terminalPutChar row col c color t) :=
  written.imp fun _ found => ⟨List.mem_cons_of_mem _ found.1, found.2⟩

/-- Every cell of the screen is blank. -/
theorem booted_glyph {index : Nat} (inside : index < vgaWidth * vgaHeight) :
    booted.glyph index = space := by
  have values : ∀ store ∈ booted.stores, store.2 = terminalMakeChar space 0 :=
    terminalInitialize_keeps (P := fun t => ∀ store ∈ t.stores, store.2 = terminalMakeChar space 0)
      (fun t row col _ _ kept => List.forall_mem_cons.mpr ⟨rfl, kept⟩) (by simp)
  have row : index / vgaWidth < vgaHeight := Nat.div_lt_of_lt_mul inside
  have col : index % vgaWidth < vgaWidth := Nat.mod_lt _ (by decide)
  have stored : Written (index / vgaWidth * vgaWidth + index % vgaWidth) booted := by
    rw [booted, terminalInitialize]
    refine foldl_makes (P := fun row => Written (row * vgaWidth + index % vgaWidth)) (fun t row => ?_)
      (fun t row other kept => ?_) (List.mem_range.mpr row) _
    · exact foldl_makes (P := fun col => Written (row * vgaWidth + col))
        (fun t col => ⟨_, List.mem_cons_self, rfl⟩) (fun t _ _ kept => kept.keep _ _ _ _)
        (List.mem_range.mpr col) t
    · exact List.foldlRecOn (motive := Written _) _ _ kept fun t kept _ _ => kept.keep _ _ _ _
  rw [Nat.div_add_mod'] at stored
  obtain ⟨store, member, place⟩ := stored
  have found : (booted.stores.find? (·.1 = index)).isSome :=
    List.find?_isSome.mpr ⟨store, member, by simpa using place⟩
  obtain ⟨first, first_eq⟩ := Option.isSome_iff_exists.mp found
  rw [Terminal.glyph, Terminal.cell, first_eq, Option.map_some, Option.getD_some,
    values first (List.mem_of_find?_eq_some first_eq), setWidth_terminalMakeChar]

theorem booted_shows : Shows booted [] where
  row := congrArg BitVec.toNat booted_origin.1
  col := congrArg BitVec.toNat booted_origin.2
  glyphs := fun _ inside => booted_glyph inside

/-- The text that characters leave, from a text on. -/
theorem Shows.run {t : Terminal} {text : List Byte} (shows : Shows t text) {sent : List (Byte × Byte)}
    (fits : Run.Always edit OnSheet text (sent.map Prod.fst)) :
    Shows (Run.final Print.send t sent) (Run.final edit text (sent.map Prod.fst)) := by
  induction sent generalizing t text with
  | nil => exact shows
  | cons char sent ih => exact ih (shows.send fits.1) fits.2

/-- Text in the colour that `print` and `coniferos_putchar` use. -/
theorem Shows.text {t : Terminal} {before text : List Byte} (shows : Shows t before)
    (fits : Run.Always edit OnSheet before text) :
    Shows (Run.final Print.send t (text.map (·, 15))) (Run.final edit before text) := by
  have chars : (text.map (·, (15 : Byte))).map Prod.fst = text := by
    rw [List.map_map]
    exact List.map_id _
  have run := shows.run (chars.symm ▸ fits)
  rwa [chars] at run

theorem final_edit_plain {before text : List Byte} (plain : ∀ c ∈ text, c ≠ User.backspace) :
    Run.final edit before text = before ++ text := by
  induction text generalizing before with
  | nil => exact (List.append_nil before).symm
  | cons c text ih =>
      obtain ⟨here, plain⟩ := List.forall_mem_cons.mp plain
      rw [Run.final_cons, edit, if_neg here, ih plain, List.append_assoc, List.singleton_append]

/-- Whatever is printed, the screen shows the text that the backspaces have left of it. -/
theorem screen_shows_text (calls : List Call)
    (fits : Run.Always edit OnSheet [] ((calls.flatMap Call.chars).map Prod.fst)) :
    Shows (Run.final Call.run booted calls) (edited ((calls.flatMap Call.chars).map Prod.fst)) := by
  rw [final_run]
  exact booted_shows.run fits

/-- A row with an `A`, and a row on which a `B` was taken back for a `C`. -/
theorem screen_shows_text_two_rows :
    Shows (Run.final Call.run booted
      [.print [0x41, newline, 0], .terminalWriteChar 0x42 15, .print [0x08, 0x43, 0]])
      [0x41, newline, 0x43] :=
  screen_shows_text _ (by decide)

end ConiferOS.Print
