import ConiferOS.Config
import ConiferOS.Lib.Run

/-! # The terminal

`print.c` keeps a cursor in two 16-bit counters and writes to the frame buffer at the
cursor. Nothing scrolls, so the row leaves the screen after enough output; and a backspace
at the start of a row takes the column below zero.
-/

namespace ConiferOS.Print

open Lib

def vgaWidth : Nat := 80
def vgaHeight : Nat := 20
def backspaceAsciiChar : Byte := 0x08
def newline : Byte := 0x0A
def space : Byte := 0x20

structure Terminal where
  terminalRow : BitVec 16
  terminalCol : BitVec 16
  /-- The stores to `video_mem`, index and value, newest first. -/
  stores : List (Nat × BitVec 16)

/-- `char` is signed: a character above 127 spoils the colour. -/
def terminalMakeChar (c color : Byte) : BitVec 16 := color.signExtend 16 <<< 8 ||| c.signExtend 16

def terminalPutChar (row col : Nat) (c color : Byte) (t : Terminal) : Terminal :=
  { t with stores := (row * vgaWidth + col, terminalMakeChar c color) :: t.stores }

/-- The rest of `terminal_write_char`, behind the tests for newline and backspace. -/
def terminalAdvance (c color : Byte) (t : Terminal) : Terminal :=
  let t := terminalPutChar t.terminalRow.toNat t.terminalCol.toNat c color t
  let t := { t with terminalCol := t.terminalCol + 1 }
  if vgaWidth ≤ t.terminalCol.toNat then
    { t with terminalRow := t.terminalRow + 1, terminalCol := 0 }
  else t

/-- The space that `terminal_backspace` writes passes both tests. -/
def terminalBackspace (t : Terminal) : Terminal :=
  if t.terminalRow = 0 ∧ t.terminalCol = 0 then t
  else
    let t :=
      if t.terminalCol = 0 then
        { t with terminalRow := t.terminalRow - 1, terminalCol := BitVec.ofNat 16 vgaWidth }
      else t
    let t := { t with terminalCol := t.terminalCol - 1 }
    let t := terminalAdvance space 15 t
    { t with terminalCol := t.terminalCol - 1 }

def terminalWriteChar (c color : Byte) (t : Terminal) : Terminal :=
  if c = newline then { t with terminalRow := t.terminalRow + 1, terminalCol := 0 }
  else if c = backspaceAsciiChar then terminalBackspace t
  else terminalAdvance c color t

def terminalInitialize (t : Terminal) : Terminal :=
  (List.range vgaHeight).foldl (fun t row =>
    (List.range vgaWidth).foldl (fun t col => terminalPutChar row col space 0 t) t) t

/-- `str` is the memory at the argument; the string ends at its first zero. -/
def strlen : (str : List Byte) → Nat
  | [] => 0
  | c :: str => if c = 0 then 0 else strlen str + 1

def print (str : List Byte) (t : Terminal) : Terminal :=
  (str.take (strlen str)).foldl (fun t c => terminalWriteChar c 15 t) t

/-- The terminal as `kernel_main` leaves it. -/
def booted : Terminal := terminalInitialize ⟨0, 0, []⟩

/-! ## Runs -/

inductive Call where
  | terminalWriteChar (c color : Byte)
  | print (str : List Byte)

def Call.run (t : Terminal) : Call → Terminal
  | .terminalWriteChar c color => Print.terminalWriteChar c color t
  | .print str => Print.print str t

/-- The characters a call sends, with their colours. -/
def Call.chars : Call → List (Byte × Byte)
  | .terminalWriteChar c color => [(c, color)]
  | .print str => (str.take (strlen str)).map (·, 15)

/-- One character. -/
def send (t : Terminal) (sent : Byte × Byte) : Terminal := terminalWriteChar sent.1 sent.2 t

theorem Call.run_eq (t : Terminal) (call : Call) : call.run t = Run.final send t call.chars := by
  cases call with
  | terminalWriteChar c color => rfl
  | print str =>
      rw [Call.run, Print.print, Call.chars, Run.final, List.foldl_map]
      rfl

theorem final_run (t : Terminal) (calls : List Call) :
    Run.final Call.run t calls = Run.final send t (calls.flatMap Call.chars) := by
  induction calls generalizing t with
  | nil => rfl
  | cons call calls ih =>
      rw [Run.final_cons, ih, Call.run_eq, List.flatMap_cons, Run.final_append]

/-! ## The screen -/

/-- Every store so far is inside the screen, and so is the column. -/
structure Terminal.Inside (t : Terminal) : Prop where
  stores : ∀ store ∈ t.stores, store.1 < vgaWidth * vgaHeight
  column : t.terminalCol.toNat < vgaWidth

/-- Before the character the cursor is on the screen, and not at the start of a row that a
    backspace would leave. -/
def Allowed (t : Terminal) (sent : Byte × Byte) : Prop :=
  sent.1 = newline ∨
    sent.1 = backspaceAsciiChar ∧ t.terminalRow = 0 ∧ t.terminalCol = 0 ∨
    t.terminalRow.toNat < vgaHeight ∧ (sent.1 = backspaceAsciiChar → t.terminalCol ≠ 0)

instance (t : Terminal) (sent : Byte × Byte) : Decidable (Allowed t sent) :=
  inferInstanceAs (Decidable (_ ∨ _))

/-- No store is outside the screen, and after every character the column is inside. -/
structure OnScreen (calls : List Call) : Prop where
  stores : ∀ store ∈ (Run.final Call.run booted calls).stores, store.1 < vgaWidth * vgaHeight
  column : Run.Always send (fun t sent => (send t sent).terminalCol.toNat < vgaWidth) booted
    (calls.flatMap Call.chars)

theorem terminalAdvance_stores (c color : Byte) (t : Terminal) :
    (terminalAdvance c color t).stores =
      (t.terminalRow.toNat * vgaWidth + t.terminalCol.toNat, terminalMakeChar c color) ::
        t.stores := by
  unfold terminalAdvance
  dsimp only
  split <;> rfl

/-- In the last column the cursor goes to the next row, before it only one further. -/
theorem terminalAdvance_col {t : Terminal} (column : t.terminalCol.toNat < vgaWidth)
    (c color : Byte) :
    (terminalAdvance c color t).terminalCol.toNat =
      if t.terminalCol.toNat + 1 = vgaWidth then 0 else t.terminalCol.toNat + 1 := by
  have next : (t.terminalCol + 1).toNat = t.terminalCol.toNat + 1 := by
    rw [vgaWidth] at column
    bv_omega
  unfold terminalAdvance
  simp only [terminalPutChar, next]
  split
  case isTrue last => rw [if_pos (by omega)]; rfl
  case isFalse before => rw [if_neg (by omega), next]

theorem stores_inside_cons_iff {t : Terminal} (inside : t.Inside) {row col : Nat}
    (column : col < vgaWidth) (value : BitVec 16) :
    (∀ store ∈ (row * vgaWidth + col, value) :: t.stores, store.1 < vgaWidth * vgaHeight) ↔
      row < vgaHeight := by
  rw [List.forall_mem_cons, and_iff_left inside.stores]
  simp only [vgaWidth, vgaHeight] at column ⊢
  omega

theorem terminalAdvance_inside_iff {t : Terminal} (inside : t.Inside) (c color : Byte) :
    (terminalAdvance c color t).Inside ↔ t.terminalRow.toNat < vgaHeight := by
  rw [← stores_inside_cons_iff inside inside.column (terminalMakeChar c color),
    ← terminalAdvance_stores]
  have column : (terminalAdvance c color t).terminalCol.toNat < vgaWidth := by
    have before := inside.column
    rw [terminalAdvance_col before]
    split <;> omega
  exact ⟨fun after => after.stores, fun stores => ⟨stores, column⟩⟩

/-- At the start of a row the cursor returns to where it was and then one column below. -/
theorem terminalBackspace_start {t : Terminal} (row : t.terminalRow ≠ 0) (col : t.terminalCol = 0) :
    (terminalBackspace t).terminalCol = 0xFFFF := by
  rw [terminalBackspace, if_neg fun origin => row origin.1, if_pos col]
  let back : Terminal := ⟨t.terminalRow - 1, 79, t.stores⟩
  have wrapped : (terminalAdvance space 15 back).terminalCol.toNat = 0 :=
    terminalAdvance_col (by decide : (79 : BitVec 16).toNat < vgaWidth) space 15
  have below : (terminalAdvance space 15 back).terminalCol - 1 = 0xFFFF := by bv_omega
  have last : BitVec.ofNat 16 vgaWidth - 1 = 79 := by decide
  simp only [last]
  exact below

theorem terminalBackspace_inside_iff {t : Terminal} (inside : t.Inside) (col : t.terminalCol ≠ 0) :
    (terminalBackspace t).Inside ↔ t.terminalRow.toNat < vgaHeight := by
  have column := inside.column
  have back : (t.terminalCol - 1).toNat = t.terminalCol.toNat - 1 := by bv_omega
  have positive : 0 < t.terminalCol.toNat := by bv_omega
  have moved : ({ t with terminalCol := t.terminalCol - 1 } : Terminal).Inside :=
    ⟨inside.stores, by rw [back]; omega⟩
  rw [terminalBackspace, if_neg fun origin => col origin.2, if_neg col,
    ← terminalAdvance_inside_iff moved space 15]
  have here := terminalAdvance_col moved.column space 15
  simp only [back, Nat.sub_add_cancel positive, if_neg column.ne] at here
  constructor
  · exact fun after => ⟨after.stores, by rw [here]; exact column⟩
  · intro after
    refine ⟨after.stores, ?_⟩
    dsimp only
    bv_omega

theorem send_inside_iff {t : Terminal} (inside : t.Inside) (sent : Byte × Byte) :
    (send t sent).Inside ↔ Allowed t sent := by
  obtain ⟨c, color⟩ := sent
  simp only [send, terminalWriteChar, Allowed]
  split
  case isTrue isNewline =>
    exact iff_of_true ⟨inside.stores, Nat.zero_lt_succ 79⟩ (.inl isNewline)
  case isFalse noNewline =>
    split
    case isTrue isBackspace =>
      by_cases col : t.terminalCol = 0
      · by_cases row : t.terminalRow = 0
        · rw [terminalBackspace, if_pos ⟨row, col⟩]
          exact iff_of_true inside (.inr (.inl ⟨isBackspace, row, col⟩))
        · refine iff_of_false (fun after => ?_) (by tauto)
          have column := after.column
          rw [terminalBackspace_start row col] at column
          exact absurd column (by decide)
      · rw [terminalBackspace_inside_iff inside col]
        tauto
    case isFalse noBackspace =>
      rw [terminalAdvance_inside_iff inside]
      simp [noNewline, noBackspace]

theorem stores_subset_send (t : Terminal) (sent : Byte × Byte) :
    t.stores ⊆ (send t sent).stores := by
  unfold send terminalWriteChar terminalBackspace terminalAdvance terminalPutChar
  grind

theorem stores_subset_final (t : Terminal) (sent : List (Byte × Byte)) :
    t.stores ⊆ (Run.final send t sent).stores := by
  induction sent generalizing t with
  | nil => exact List.Subset.refl _
  | cons char sent ih => exact List.Subset.trans (stores_subset_send t char) (ih _)

/-- What `terminal_put_char` keeps on the screen, `terminal_initialize` keeps. -/
theorem terminalInitialize_keeps {P : Terminal → Prop}
    (keeps : ∀ t row col, row < vgaHeight → col < vgaWidth → P t →
      P (terminalPutChar row col space 0 t)) {t : Terminal} (start : P t) :
    P (terminalInitialize t) := by
  refine List.foldlRecOn _ _ start fun t kept row inRows => ?_
  refine List.foldlRecOn _ _ kept fun t kept col inCols => ?_
  exact keeps t row col (List.mem_range.mp inRows) (List.mem_range.mp inCols) kept

theorem booted_inside : booted.Inside := by
  have blank : Terminal.Inside ⟨0, 0, []⟩ := ⟨by simp, by decide⟩
  refine terminalInitialize_keeps (P := Terminal.Inside) (fun t row col inRows inCols inside => ?_) blank
  exact ⟨(stores_inside_cons_iff inside inCols _).mpr inRows, inside.column⟩

theorem booted_origin : booted.terminalRow = 0 ∧ booted.terminalCol = 0 :=
  terminalInitialize_keeps (P := fun t => t.terminalRow = 0 ∧ t.terminalCol = 0)
    (fun _ _ _ _ _ origin => origin) ⟨rfl, rfl⟩

/-- The log keeps every store, so it is enough to look at it in the end. -/
theorem always_inside_iff {t : Terminal} (inside : t.Inside) (sent : List (Byte × Byte)) :
    Run.Always send (fun t char => (send t char).Inside) t sent ↔
      (∀ store ∈ (Run.final send t sent).stores, store.1 < vgaWidth * vgaHeight) ∧
        Run.Always send (fun t char => (send t char).terminalCol.toNat < vgaWidth) t sent := by
  induction sent generalizing t with
  | nil => exact ⟨fun _ => ⟨inside.stores, trivial⟩, fun _ => trivial⟩
  | cons char sent ih =>
      constructor
      · rintro ⟨here, later⟩
        obtain ⟨stores, columns⟩ := (ih here).mp later
        exact ⟨stores, here.column, columns⟩
      · rintro ⟨stores, column, columns⟩
        have here : (send t char).Inside :=
          ⟨fun store member => stores store (stores_subset_final _ sent member), column⟩
        exact ⟨here, (ih here).mpr ⟨stores, columns⟩⟩

/-- The output stays on the screen exactly when every character finds the cursor there,
    and no backspace comes at the start of a later row. -/
theorem terminal_on_screen_iff (calls : List Call) :
    OnScreen calls ↔ Run.Always send Allowed booted (calls.flatMap Call.chars) := by
  calc OnScreen calls
      ↔ Run.Always send (fun t char => (send t char).Inside) booted (calls.flatMap Call.chars) := by
        rw [always_inside_iff booted_inside, ← final_run]
        exact ⟨fun screen => ⟨screen.stores, screen.column⟩, fun ⟨stores, column⟩ => ⟨stores, column⟩⟩
    _ ↔ Run.Always send Allowed booted (calls.flatMap Call.chars) :=
        Run.Always.iff_of_invariant Terminal.Inside (fun t char inside _ => send_inside_iff inside char)
          (fun t char inside _ allowed => (send_inside_iff inside char).mpr allowed) booted_inside
          (Run.Always.of_forall (fun _ _ => trivial) _ _)

/-- A backspace behind a newline leaves the column at 65535. -/
theorem backspace_leaves_screen :
    (Run.final Call.run booted [.print [newline, backspaceAsciiChar]]).terminalCol = 0xFFFF ∧
      ¬ OnScreen [.print [newline, backspaceAsciiChar]] := by
  have column : ∀ t : Terminal, t.terminalRow = 0 →
      (Run.final Call.run t [.print [newline, backspaceAsciiChar]]).terminalCol = 0xFFFF := by
    intro t row
    have next : t.terminalRow + 1 ≠ 0 := by
      rw [row]
      decide
    exact terminalBackspace_start (t := ⟨t.terminalRow + 1, 0, t.stores⟩) next rfl
  have second : ∀ t : Terminal,
      Run.Always send (fun t sent => (send t sent).terminalCol.toNat < vgaWidth) t
        [(newline, 15), (backspaceAsciiChar, 15)] →
      (Run.final Call.run t [.print [newline, backspaceAsciiChar]]).terminalCol.toNat < vgaWidth :=
    fun _ columns => columns.2.1
  have booted := column booted booted_origin.1
  refine ⟨booted, fun screen => ?_⟩
  have inside := second _ screen.column
  rw [booted] at inside
  exact absurd inside (by decide)

/-! ## Erasing a character -/

/-- What the last store to a cell left there; `none` if nothing was stored to it. -/
def Terminal.cell (t : Terminal) (index : Nat) : Option (BitVec 16) :=
  (t.stores.find? (·.1 = index)).map (·.2)

def Terminal.cursor (t : Terminal) : Nat := t.terminalRow.toNat * vgaWidth + t.terminalCol.toNat

/-- The cursor is where it was before, over a blank; the other cells are untouched. -/
structure Erased (before after : Terminal) : Prop where
  row : after.terminalRow = before.terminalRow
  col : after.terminalCol = before.terminalCol
  blank : after.cell before.cursor = some (terminalMakeChar space 15)
  others : ∀ index, index ≠ before.cursor → after.cell index = before.cell index

theorem terminalAdvance_inner {t : Terminal} (inner : t.terminalCol.toNat + 1 < vgaWidth)
    (c color : Byte) :
    terminalAdvance c color t =
      ⟨t.terminalRow, t.terminalCol + 1, (t.cursor, terminalMakeChar c color) :: t.stores⟩ := by
  have before : ¬ vgaWidth ≤ (t.terminalCol + 1).toNat := by
    rw [vgaWidth] at inner ⊢
    bv_omega
  exact if_neg before

theorem terminalAdvance_last {t : Terminal} (last : t.terminalCol.toNat + 1 = vgaWidth)
    (c color : Byte) :
    terminalAdvance c color t =
      ⟨t.terminalRow + 1, 0, (t.cursor, terminalMakeChar c color) :: t.stores⟩ := by
  have behind : vgaWidth ≤ (t.terminalCol + 1).toNat := by
    rw [vgaWidth] at last ⊢
    bv_omega
  exact if_pos behind

/-- Behind the cell of the cursor a backspace blanks that cell. -/
theorem terminalBackspace_inner {t : Terminal} (inner : t.terminalCol.toNat + 1 < vgaWidth)
    (stores : List (Nat × BitVec 16)) :
    terminalBackspace ⟨t.terminalRow, t.terminalCol + 1, stores⟩ =
      ⟨t.terminalRow, t.terminalCol, (t.cursor, terminalMakeChar space 15) :: stores⟩ := by
  have moved : t.terminalCol + 1 ≠ 0 := by
    rw [vgaWidth] at inner
    bv_omega
  have back : t.terminalCol + 1 - 1 = t.terminalCol := BitVec.add_sub_cancel _ _
  have here := terminalAdvance_inner (t := ⟨t.terminalRow, t.terminalCol, stores⟩) inner space 15
  rw [terminalBackspace, if_neg fun origin => moved origin.2, if_neg moved]
  simp only [back, here]
  rfl

/-- Two stores to the cell of the cursor, the second a blank. -/
theorem erased_of_stores (t : Terminal) (value : BitVec 16) :
    Erased t ⟨t.terminalRow, t.terminalCol,
      (t.cursor, terminalMakeChar space 15) :: (t.cursor, value) :: t.stores⟩ := by
  refine ⟨rfl, rfl, by simp [Terminal.cell], fun index apart => ?_⟩
  simp [Terminal.cell, apart.symm]

/-- A backspace undoes a character exactly when the character was not written to the last
    column. -/
theorem backspace_erases_iff {t : Terminal} (row : t.terminalRow.toNat + 1 < vgaHeight)
    (col : t.terminalCol.toNat < vgaWidth) {c : Byte} (noNewline : c ≠ newline)
    (noBackspace : c ≠ backspaceAsciiChar) (color backColor : Byte) :
    Erased t (terminalWriteChar backspaceAsciiChar backColor (terminalWriteChar c color t)) ↔
      t.terminalCol.toNat + 1 < vgaWidth := by
  have written : terminalWriteChar c color t = terminalAdvance c color t := by
    rw [terminalWriteChar, if_neg noNewline, if_neg noBackspace]
  have erase : ∀ t, terminalWriteChar backspaceAsciiChar backColor t = terminalBackspace t :=
    fun _ => rfl
  rw [written, erase]
  constructor
  · intro erased
    by_contra last
    have next : t.terminalRow + 1 ≠ 0 := by
      rw [vgaHeight] at row
      bv_omega
    have lost : (terminalBackspace (terminalAdvance c color t)).terminalCol = 0xFFFF := by
      rw [terminalAdvance_last (by omega)]
      exact terminalBackspace_start next rfl
    rw [← erased.col, lost] at col
    exact absurd col (by decide)
  · intro inner
    rw [terminalAdvance_inner inner, terminalBackspace_inner inner]
    exact erased_of_stores t _

/-- In the middle of the first row. -/
theorem backspace_erases_middle :
    Erased ⟨0, 40, []⟩ (terminalWriteChar 0x08 15 (terminalWriteChar 0x61 15 ⟨0, 40, []⟩)) :=
  (backspace_erases_iff (by decide) (by decide) (by decide) (by decide) 15 15).mpr (by decide)

/-- In the last column of the first row the cursor ends in the second row, at column 65535. -/
theorem backspace_keeps_wrap :
    let after := terminalWriteChar 0x08 15 (terminalWriteChar 0x61 15 ⟨0, 79, []⟩)
    after.terminalRow = 1 ∧ after.terminalCol = 0xFFFF ∧ ¬ Erased ⟨0, 79, []⟩ after := by
  refine ⟨by decide, by decide, fun erased => ?_⟩
  exact absurd erased.col (by decide)

end ConiferOS.Print
