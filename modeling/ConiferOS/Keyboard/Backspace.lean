import ConiferOS.Keyboard.Keyboard

/-! # Taking a key back

`keyboard_backspace` moves the tail, and then sets it to zero where it meant to clear the cell.
What was pushed stays in the buffer, and a get-key call, which never looks at the tail, still
returns it.
-/

namespace ConiferOS.Keyboard

open Lib Print

def decrementTail (keyboardBuffer : KeyboardBuffer) : KeyboardBuffer :=
  if keyboardBuffer.tail = keyboardBuffer.head then keyboardBuffer
  else if keyboardBuffer.tail = 0 then { keyboardBuffer with tail := keyboardBufferSize }
  else { keyboardBuffer with tail := keyboardBuffer.tail - 1 }

def keyboardBackspace (process : Word) (s : KeyState) : KeyState :=
  let keyboardBuffer := decrementTail (s.buffers process)
  { s with buffers := Function.update s.buffers process { keyboardBuffer with tail := 0x00 } }

/-! ## Typing -/

/-- The state, and what was pushed and neither delivered nor taken back. -/
structure Typing where
  state : KeyState
  pending : List Byte

inductive Edit where
  | push (c : Byte)
  | pop
  | backspace

def Typing.step (process : Word) (t : Typing) : Edit → Typing
  | .push c => ⟨keyboardPush c t.state, if c = 0 then t.pending else t.pending ++ [c]⟩
  | .pop => ⟨(keyboardPop t.state).2, t.pending.tail⟩
  | .backspace => ⟨keyboardBackspace process t.state, t.pending.dropLast⟩

/-- After the step the buffer is not full. -/
def Typing.Room (process : Word) (t : Typing) (edit : Edit) : Prop :=
  (t.step process edit).pending.length ≤ keyboardBufferSize - 1

/-- What the next get-key calls return. -/
def pops : (count : Nat) → (s : KeyState) → List Byte
  | 0, _ => []
  | count + 1, s => (keyboardPop s).1 :: pops count (keyboardPop s).2

/-- A backspace at this point takes the last pending character back. -/
structure Undone (process : Word) (t : Typing) : Prop where
  nonempty : t.pending ≠ [] →
    pops t.pending.length (keyboardBackspace process t.state) = t.pending.dropLast ++ [0]
  empty : t.pending = [] → keyboardBackspace process t.state = t.state
  head_lt : ((keyboardBackspace process t.state).buffers process).head < keyboardBufferSize
  tail_lt : ((keyboardBackspace process t.state).buffers process).tail < keyboardBufferSize

structure Typing.Inv (process : Word) (t : Typing) : Prop where
  focus : t.state.Focus process
  ring : Ring keyboardBufferSize 0 (t.state.buffers process).buffer (t.state.buffers process).head
    (t.state.buffers process).tail t.pending
  nonzero : ∀ c ∈ t.pending, c ≠ 0

section

variable {process : Word} {t : Typing}

@[simp] theorem keyboardBackspace_sched (s : KeyState) : (keyboardBackspace process s).sched = s.sched :=
  rfl

@[simp] theorem keyboardBackspace_tail (s : KeyState) :
    ((keyboardBackspace process s).buffers process).tail = 0 := by
  simp [keyboardBackspace]

/-- The cells and the head are as before. -/
theorem keyboardBackspace_kept (process : Word) (s : KeyState) :
    ((keyboardBackspace process s).buffers process).buffer = (s.buffers process).buffer ∧
      ((keyboardBackspace process s).buffers process).head = (s.buffers process).head := by
  simp only [keyboardBackspace, Function.update_self, decrementTail]
  split_ifs <;> exact ⟨rfl, rfl⟩

/-- Only the cells and the head decide what is delivered. -/
theorem pops_pending {s : KeyState} (focus : s.Focus process) {tail : Nat} {pending : List Byte}
    (ring : Ring keyboardBufferSize 0 (s.buffers process).buffer (s.buffers process).head tail pending)
    (nonzero : ∀ c ∈ pending, c ≠ 0) : pops pending.length s = pending := by
  induction pending generalizing s with
  | nil => rfl
  | cons c pending ih =>
      have front := ring.front
      have nonblank : (s.buffers process).buffer (s.buffers process).head ≠ 0 := by
        rw [front]
        exact nonzero c List.mem_cons_self
      rw [List.length_cons, pops, focus.pop_value, front]
      congr 1
      refine ih (focus.of_sched (keyboardPop_sched s)) ?_ fun d member => nonzero d (by simp [member])
      rw [focus.pop_some nonblank]
      exact ring.pop

theorem not_undone (inv : t.Inv process) (nonempty : t.pending ≠ []) : ¬ Undone process t := by
  intro undone
  obtain ⟨cells, head⟩ := keyboardBackspace_kept process t.state
  have ring := inv.ring
  rw [← cells, ← head] at ring
  have all := pops_pending (inv.focus.of_sched (keyboardBackspace_sched t.state)) ring inv.nonzero
  rw [undone.nonempty nonempty] at all
  exact inv.nonzero 0 (by rw [← all]; simp) rfl

/-- On an empty buffer only the tail can change. -/
theorem keyboardBackspace_empty_iff (inv : t.Inv process) (empty : t.pending = []) :
    keyboardBackspace process t.state = t.state ↔ (t.state.buffers process).tail = 0 := by
  constructor
  · intro same
    rw [← same]
    exact keyboardBackspace_tail t.state
  · intro zero
    have ring := inv.ring
    rw [empty] at ring
    have equal : (t.state.buffers process).tail = (t.state.buffers process).head := by
      simpa [Nat.mod_eq_of_lt ring.head_lt] using ring.tail_eq
    have unmoved : decrementTail (t.state.buffers process) = t.state.buffers process := if_pos equal
    have whole : ({ t.state.buffers process with tail := 0 } : KeyboardBuffer) =
        t.state.buffers process := by
      rw [← zero]
    simp only [keyboardBackspace, unmoved, whole, Function.update_eq_self]

theorem undone_iff (inv : t.Inv process) :
    Undone process t ↔ t.pending = [] ∧ (t.state.buffers process).tail = 0 := by
  by_cases empty : t.pending = []
  · rw [and_iff_right empty, ← keyboardBackspace_empty_iff inv empty]
    refine ⟨fun undone => undone.empty empty, fun same => ?_⟩
    refine ⟨fun nonempty => absurd empty nonempty, fun _ => same, ?_, ?_⟩
    · rw [same]
      exact inv.ring.head_lt
    · rw [same]
      exact inv.ring.tail_lt
  · exact iff_of_false (not_undone inv empty) fun both => empty both.1

theorem Typing.Inv.push (inv : t.Inv process) {c : Byte} (room : t.Room process (.push c)) :
    (t.step process (.push c)).Inv process := by
  rw [Typing.Room] at room
  by_cases silent : c = 0
  · rw [Typing.step, if_pos silent, silent, keyboardPush_zero]
    exact inv
  · simp only [Typing.step, if_neg silent] at room ⊢
    refine ⟨inv.focus.of_sched (keyboardPush_sched _ _), ?_, ?_⟩
    · rw [inv.focus.push silent]
      refine inv.ring.push ?_ c
      rw [List.length_append, List.length_singleton] at room
      omega
    · exact nonzero_of_subset inv.nonzero silent (by grind)

theorem Typing.Inv.pop (inv : t.Inv process) : (t.step process .pop).Inv process := by
  obtain ⟨focus, ring, nonzero⟩ := inv
  refine ⟨focus.of_sched (keyboardPop_sched _), ?_, fun c member => nonzero c (List.mem_of_mem_tail member)⟩
  simp only [Typing.step]
  cases pending : t.pending with
  | nil =>
      rw [pending] at ring
      rw [focus.pop_none ring.front_of_empty]
      exact ring
  | cons c rest =>
      rw [pending] at ring nonzero
      rw [focus.pop_some (by rw [ring.front]; exact nonzero c List.mem_cons_self)]
      exact ring.pop

theorem Typing.Inv.step (inv : t.Inv process) {edit : Edit} (room : t.Room process edit)
    (harmless : edit = .backspace → t.pending = [] ∧ (t.state.buffers process).tail = 0) :
    (t.step process edit).Inv process := by
  cases edit with
  | push c => exact inv.push room
  | pop => exact inv.pop
  | backspace =>
      obtain ⟨empty, zero⟩ := harmless rfl
      have same := (keyboardBackspace_empty_iff inv empty).mpr zero
      have nothing : t.pending.dropLast = t.pending := by simp [empty]
      rw [Typing.step, same, nothing]
      exact inv

end

/-- A backspace undoes the last key exactly when there is none, and the tail is at the start of
    the buffer. -/
theorem backspace_undoes_iff {process : Word} {s : KeyState} (focus : s.Focus process)
    (cleared : s.buffers process = ⟨fun _ => 0, 0, 0⟩) {edits : List Edit}
    (room : Run.Always (Typing.step process) (Typing.Room process) ⟨s, []⟩ edits) :
    Run.Always (Typing.step process) (fun t edit => edit = .backspace → Undone process t) ⟨s, []⟩ edits ↔
      Run.Always (Typing.step process)
        (fun t edit => edit = .backspace → t.pending = [] ∧ (t.state.buffers process).tail = 0)
        ⟨s, []⟩ edits := by
  have blank : Ring keyboardBufferSize 0 (s.buffers process).buffer (s.buffers process).head
      (s.buffers process).tail [] := by
    rw [cleared]
    exact Ring.empty _ (by decide) 0
  have start : Typing.Inv process ⟨s, []⟩ := ⟨focus, blank, by simp⟩
  refine Run.Always.iff_of_invariant (Typing.Inv process) ?_ ?_ start room
  · intro t edit inv _
    rw [undone_iff inv]
  · intro t edit inv room harmless
    exact inv.step room harmless

/-- The first of the two tasks runs, nothing was typed. -/
def quiet : KeyState := (started twoTasks booted).state

/-- A backspace before anything was typed is harmless. -/
theorem backspace_undoes_start :
    Run.Always (Typing.step 0x2000) (fun t edit => edit = .backspace → Undone 0x2000 t) ⟨quiet, []⟩
      [.backspace] := by
  have room : Run.Always (Typing.step 0x2000) (Typing.Room 0x2000) ⟨quiet, []⟩ [.backspace] :=
    ⟨Nat.zero_le _, trivial⟩
  exact (backspace_undoes_iff twoTasks_focus rfl room).mpr ⟨fun _ => ⟨rfl, rfl⟩, trivial⟩

/-- The character that was taken back is delivered. -/
theorem backspace_keeps_key :
    pops 1 (keyboardBackspace 0x2000 (keyboardPush 0x61 quiet)) = [0x61] ∧
      ¬ Undone 0x2000 ⟨keyboardPush 0x61 quiet, [0x61]⟩ := by
  have delivered : pops 1 (keyboardBackspace 0x2000 (keyboardPush 0x61 quiet)) = [0x61] := by decide
  refine ⟨delivered, fun undone => ?_⟩
  have gone := undone.nonempty (by simp)
  exact absurd (delivered.symm.trans gone) (by decide)

end ConiferOS.Keyboard
