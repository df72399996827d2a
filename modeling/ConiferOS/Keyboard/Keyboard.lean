import ConiferOS.Lib.Ring
import ConiferOS.Print.Terminal
import ConiferOS.Task.Schedule

/-! # The keyboard

`keyboard.c`: every process has a ring of characters. A key press goes to the process that
`current_process` names, a get-key call takes from the process of `current_task`, and
`task_exec` is what keeps the two together. An empty cell holds zero; the tail is only
looked at to print a warning.
-/

namespace ConiferOS.Keyboard

open Lib Print ConiferOS.Task

def keyboardBufferSize : Nat := 1024

structure KeyboardBuffer where
  buffer : Nat → Byte
  head : Nat
  tail : Nat

/-- Scheduling, the `keyboard_buffer` of each process structure, and the terminal. -/
structure KeyState where
  sched : SchedState
  buffers : Word → KeyboardBuffer
  terminal : Terminal

def overflowMessage : List Byte :=
  "ERROR: Keyboard buffer overflow\n".toList.map fun c => BitVec.ofNat 8 c.toNat

/-- The warning comes when the ring is full, before anything is lost. -/
def incrementTail (keyboardBuffer : KeyboardBuffer) (terminal : Terminal) :
    KeyboardBuffer × Terminal :=
  let nextTailVal := (keyboardBuffer.tail + 1) % keyboardBufferSize
  ({ keyboardBuffer with tail := (keyboardBuffer.tail + 1) % keyboardBufferSize },
    if nextTailVal = keyboardBuffer.head then print overflowMessage terminal else terminal)

def keyboardPush (c : Byte) (s : KeyState) : KeyState :=
  let process := s.sched.currentProcess
  if process = 0 then s
  else if c = 0 then s
  else
    let keyboardBuffer := s.buffers process
    let keyboardBuffer :=
      { keyboardBuffer with buffer := Function.update keyboardBuffer.buffer keyboardBuffer.tail c }
    let (keyboardBuffer, terminal) := incrementTail keyboardBuffer s.terminal
    { s with buffers := Function.update s.buffers process keyboardBuffer, terminal := terminal }

def incrementHead (keyboardBuffer : KeyboardBuffer) : KeyboardBuffer :=
  { keyboardBuffer with head := (keyboardBuffer.head + 1) % keyboardBufferSize }

def keyboardPop (s : KeyState) : Byte × KeyState :=
  let task := s.sched.list.current
  if task = 0 then (0, s)
  else
    let process := (s.sched.list.tasks task).process
    let keyboardBuffer := s.buffers process
    let val := keyboardBuffer.buffer keyboardBuffer.head
    if val = 0 then (0, s)
    else
      let keyboardBuffer :=
        { keyboardBuffer with buffer := Function.update keyboardBuffer.buffer keyboardBuffer.head 0 }
      (val, { s with buffers := Function.update s.buffers process (incrementHead keyboardBuffer) })

def KeyState.taskExec (s : KeyState) (task : Word) : KeyState :=
  { s with sched := s.sched.taskExec task }

/-- The process of the running task. -/
def KeyState.running (s : KeyState) : Word := (s.sched.list.tasks s.sched.list.current).process

section

variable (s : KeyState) (c : Byte)

theorem keyboardPush_zero : keyboardPush 0 s = s := by
  rw [keyboardPush, if_pos rfl, ite_self]

@[simp] theorem keyboardPush_sched : (keyboardPush c s).sched = s.sched := by
  unfold keyboardPush
  grind

theorem keyboardPush_other {process : Word} (other : process ≠ s.sched.currentProcess) :
    (keyboardPush c s).buffers process = s.buffers process := by
  unfold keyboardPush
  dsimp only
  split_ifs
  · rfl
  · rfl
  · exact Function.update_of_ne other _ _

theorem keyboardPush_current (real : s.sched.currentProcess ≠ 0) (nonzero : c ≠ 0) :
    (keyboardPush c s).buffers s.sched.currentProcess =
      (incrementTail
        { s.buffers s.sched.currentProcess with
          buffer := Function.update (s.buffers s.sched.currentProcess).buffer
            (s.buffers s.sched.currentProcess).tail c } s.terminal).1 := by
  simp only [keyboardPush, if_neg real, if_neg nonzero, Function.update_self]

@[simp] theorem keyboardPop_sched : (keyboardPop s).2.sched = s.sched := by
  unfold keyboardPop
  grind

theorem keyboardPop_other {process : Word} (other : process ≠ s.running) :
    (keyboardPop s).2.buffers process = s.buffers process := by
  unfold keyboardPop
  dsimp only
  split_ifs
  · rfl
  · rfl
  · exact Function.update_of_ne other _ _

theorem keyboardPop_value (task : s.sched.list.current ≠ 0) :
    (keyboardPop s).1 = (s.buffers s.running).buffer (s.buffers s.running).head := by
  unfold keyboardPop KeyState.running
  grind

/-- A get-key call either finds nothing, or takes the character at the head. -/
theorem keyboardPop_cases :
    (keyboardPop s).1 = 0 ∧ (keyboardPop s).2 = s ∨
      (keyboardPop s).1 ≠ 0 ∧
        (keyboardPop s).1 = (s.buffers s.running).buffer (s.buffers s.running).head ∧
        (keyboardPop s).2.buffers s.running =
          incrementHead
            { s.buffers s.running with
              buffer := Function.update (s.buffers s.running).buffer (s.buffers s.running).head 0 } := by
  unfold keyboardPop
  dsimp only
  split_ifs with noTask nothing
  · exact .inl ⟨rfl, rfl⟩
  · exact .inl ⟨rfl, rfl⟩
  · exact .inr ⟨nothing, rfl, Function.update_self _ _ _⟩

end

/-- One process has the keyboard: it is the current one, and its task runs. -/
structure KeyState.Focus (s : KeyState) (process : Word) : Prop where
  real : process ≠ 0
  task : s.sched.list.current ≠ 0
  running : s.running = process
  current : s.sched.currentProcess = process

namespace KeyState.Focus

variable {s s' : KeyState} {process : Word}

theorem of_sched (focus : s.Focus process) (same : s'.sched = s.sched) : s'.Focus process where
  real := focus.real
  task := by rw [same]; exact focus.task
  running := by rw [← focus.running, KeyState.running, KeyState.running, same]
  current := by rw [same]; exact focus.current

theorem push (focus : s.Focus process) {c : Byte} (nonzero : c ≠ 0) :
    (keyboardPush c s).buffers process =
      (incrementTail
        { s.buffers process with
          buffer := Function.update (s.buffers process).buffer (s.buffers process).tail c }
        s.terminal).1 := by
  obtain ⟨real, -, -, rfl⟩ := focus
  exact keyboardPush_current s c real nonzero

theorem pop_value (focus : s.Focus process) :
    (keyboardPop s).1 = (s.buffers process).buffer (s.buffers process).head := by
  rw [keyboardPop_value s focus.task, focus.running]

theorem pop_none (focus : s.Focus process)
    (blank : (s.buffers process).buffer (s.buffers process).head = 0) : (keyboardPop s).2 = s := by
  rcases keyboardPop_cases s with ⟨-, same⟩ | ⟨nonzero, -, -⟩
  · exact same
  · exact absurd (focus.pop_value.trans blank) nonzero

theorem pop_some (focus : s.Focus process)
    (nonblank : (s.buffers process).buffer (s.buffers process).head ≠ 0) :
    (keyboardPop s).2.buffers process =
      incrementHead
        { s.buffers process with
          buffer := Function.update (s.buffers process).buffer (s.buffers process).head 0 } := by
  rcases keyboardPop_cases s with ⟨zero, -⟩ | ⟨-, -, after⟩
  · exact absurd (focus.pop_value.symm.trans zero) nonblank
  · rwa [focus.running] at after

end KeyState.Focus

/-! ## Runs -/

inductive Op where
  | key (c : Byte)
  | getKey
  | taskExec (task : Word)

/-- The state, and for each process what was pushed while it was the current one and what
    its get-key calls returned. -/
structure KeyRun where
  state : KeyState
  pushed : Word → List Byte
  returned : Word → List Byte

def append (log : Word → List Byte) (process : Word) (c : Byte) : Word → List Byte :=
  if c = 0 then log else Function.update log process (log process ++ [c])

def KeyRun.step (r : KeyRun) : Op → KeyRun
  | .key c =>
      { r with
        state := keyboardPush c r.state
        pushed := append r.pushed r.state.sched.currentProcess c }
  | .getKey =>
      { r with
        state := (keyboardPop r.state).2
        returned := append r.returned r.state.running (keyboardPop r.state).1 }
  | .taskExec task => { r with state := r.state.taskExec task }

/-- After the step no process has more characters undelivered than its buffer has cells. -/
def KeyRun.Fits (r : KeyRun) (op : Op) : Prop :=
  ∀ process ≠ 0, ((r.step op).pushed process).length ≤
    ((r.step op).returned process).length + keyboardBufferSize

/-- Buffers as `kzalloc` makes them. -/
def started (sched : SchedState) (terminal : Terminal) : KeyRun :=
  ⟨⟨sched, fun _ => ⟨fun _ => 0, 0, 0⟩, terminal⟩, fun _ => [], fun _ => []⟩

/-- Key presses go to the process that runs. -/
def KeyRun.Matched (r : KeyRun) : Prop := r.state.running = r.state.sched.currentProcess

structure KeyRun.Delivered (r : KeyRun) : Prop where
  order : ∀ process ≠ 0, r.returned process <+: r.pushed process
  remaining : ∀ process ≠ 0,
    Ring keyboardBufferSize 0 (r.state.buffers process).buffer (r.state.buffers process).head
      (r.state.buffers process).tail ((r.pushed process).drop (r.returned process).length)
  answer : r.state.sched.list.current ≠ 0 → r.state.running ≠ 0 →
    ((keyboardPop r.state).1 = 0 ↔ r.pushed r.state.running = r.returned r.state.running)
  bounds : ∀ process ≠ 0, (r.state.buffers process).head < keyboardBufferSize ∧
    (r.state.buffers process).tail < keyboardBufferSize

/-! ## One buffer -/

theorem nonzero_of_subset {kept after : List Byte} {c : Byte} (nonzero : ∀ d ∈ kept, d ≠ 0)
    (new : c ≠ 0) (subset : after ⊆ c :: kept) : ∀ d ∈ after, d ≠ 0 := by
  intro d member
  rcases List.mem_cons.mp (subset member) with rfl | old
  · exact new
  · exact nonzero d old

/-- What is pushed is what was returned and what the ring still holds. -/
structure Queue (keyboardBuffer : KeyboardBuffer) (pushed returned pending : List Byte) : Prop where
  split : pushed = returned ++ pending
  ring : Ring keyboardBufferSize 0 keyboardBuffer.buffer keyboardBuffer.head keyboardBuffer.tail
    pending
  nonzero : ∀ c ∈ pending, c ≠ 0

namespace Queue

variable {keyboardBuffer : KeyboardBuffer} {pushed returned pending : List Byte}

theorem push (queue : Queue keyboardBuffer pushed returned pending) {c : Byte} (nonzero : c ≠ 0)
    (room : (pushed ++ [c]).length ≤ returned.length + keyboardBufferSize) (terminal : Terminal) :
    Queue (incrementTail
        { keyboardBuffer with buffer := Function.update keyboardBuffer.buffer keyboardBuffer.tail c }
        terminal).1
      (pushed ++ [c]) returned (pending ++ [c]) where
  split := by rw [queue.split, List.append_assoc]
  ring := by
    refine queue.ring.push ?_ c
    rw [queue.split] at room
    simp only [List.length_append, List.length_singleton] at room
    omega
  nonzero := nonzero_of_subset queue.nonzero nonzero (by grind)

theorem pop {c : Byte} (queue : Queue keyboardBuffer pushed returned (c :: pending)) :
    Queue (incrementHead
        { keyboardBuffer with buffer := Function.update keyboardBuffer.buffer keyboardBuffer.head 0 })
      pushed (returned ++ [c]) pending where
  split := by rw [queue.split, List.append_assoc, List.singleton_append]
  ring := queue.ring.pop
  nonzero := fun d member => queue.nonzero d (List.mem_cons_of_mem c member)

/-- The cell at the head tells whether anything is left. -/
theorem front_eq_zero_iff (queue : Queue keyboardBuffer pushed returned pending) :
    keyboardBuffer.buffer keyboardBuffer.head = 0 ↔ pushed = returned := by
  have split := queue.split
  cases pending with
  | nil => exact iff_of_true queue.ring.front_of_empty (by simpa using split)
  | cons c pending =>
      refine iff_of_false ?_ (by simp [split])
      rw [queue.ring.front]
      exact queue.nonzero c List.mem_cons_self

end Queue

/-! ## All buffers -/

def KeyRun.Inv (r : KeyRun) : Prop :=
  ∀ process ≠ 0, ∃ pending,
    Queue (r.state.buffers process) (r.pushed process) (r.returned process) pending

theorem KeyRun.inv_started (sched : SchedState) (terminal : Terminal) :
    (started sched terminal).Inv :=
  fun _ _ => ⟨[], rfl, Ring.empty _ (by decide) 0, by simp⟩

theorem append_zero (log : Word → List Byte) (process : Word) : append log process 0 = log :=
  if_pos rfl

theorem append_self {c : Byte} (nonzero : c ≠ 0) (log : Word → List Byte) (process : Word) :
    append log process c process = log process ++ [c] := by
  rw [append, if_neg nonzero, Function.update_self]

theorem append_of_ne {process other : Word} (apart : other ≠ process) (log : Word → List Byte)
    (c : Byte) : append log process c other = log other := by
  rw [append]
  split
  case isTrue => rfl
  case isFalse => exact Function.update_of_ne apart _ _

theorem append_length_le (log : Word → List Byte) (process other : Word) (c : Byte) :
    (append log process c other).length ≤ (log other).length + 1 := by
  by_cases silent : c = 0
  · rw [silent, append_zero]
    omega
  by_cases same : other = process
  · rw [same, append_self silent, List.length_append, List.length_singleton]
  · rw [append_of_ne same]
    omega

theorem KeyRun.Inv.key {r : KeyRun} (inv : r.Inv) (c : Byte) (fits : r.Fits (.key c)) :
    (r.step (.key c)).Inv := by
  intro process real
  obtain ⟨pending, queue⟩ := inv process real
  have room := fits process real
  simp only [step] at room ⊢
  by_cases silent : c = 0
  · rw [silent, keyboardPush_zero, append_zero]
    exact ⟨pending, queue⟩
  by_cases current : process = r.state.sched.currentProcess
  · rw [current] at queue real room ⊢
    rw [append_self silent] at room ⊢
    rw [keyboardPush_current _ _ real silent]
    exact ⟨pending ++ [c], queue.push silent room _⟩
  · rw [keyboardPush_other _ _ current, append_of_ne current]
    exact ⟨pending, queue⟩

theorem KeyRun.Inv.getKey {r : KeyRun} (inv : r.Inv) : (r.step .getKey).Inv := by
  intro process real
  obtain ⟨pending, queue⟩ := inv process real
  simp only [step]
  by_cases running : process = r.state.running
  · rw [running] at queue ⊢
    rcases keyboardPop_cases r.state with ⟨zero, same⟩ | ⟨nonzero, value, after⟩
    · rw [zero, same, append_zero]
      exact ⟨pending, queue⟩
    · rw [append_self nonzero, after, value]
      rw [value] at nonzero
      cases pending with
      | nil => exact absurd queue.ring.front_of_empty nonzero
      | cons c pending =>
          rw [queue.ring.front]
          exact ⟨pending, queue.pop⟩
  · rw [keyboardPop_other _ running, append_of_ne running]
    exact ⟨pending, queue⟩

theorem KeyRun.Inv.step {r : KeyRun} (inv : r.Inv) (op : Op) (fits : r.Fits op) :
    (r.step op).Inv := by
  cases op with
  | key c => exact inv.key c fits
  | getKey => exact inv.getKey
  | taskExec task => exact inv

theorem KeyRun.Inv.delivered {r : KeyRun} (inv : r.Inv) : r.Delivered where
  order := by
    intro process real
    obtain ⟨pending, queue⟩ := inv process real
    exact ⟨pending, queue.split.symm⟩
  remaining := by
    intro process real
    obtain ⟨pending, queue⟩ := inv process real
    rw [queue.split, List.drop_left]
    exact queue.ring
  answer := by
    intro task real
    obtain ⟨pending, queue⟩ := inv _ real
    rw [keyboardPop_value _ task]
    exact queue.front_eq_zero_iff
  bounds := by
    intro process real
    obtain ⟨pending, queue⟩ := inv process real
    exact ⟨queue.ring.head_lt, queue.ring.tail_lt⟩

/-- `task_exec` brings the two together, and nothing else moves either. -/
theorem KeyRun.Matched.step {r : KeyRun} (matched : r.Matched) (op : Op) : (r.step op).Matched := by
  cases op with
  | key c =>
      rw [Matched, KeyState.running] at matched ⊢
      simpa only [KeyRun.step, keyboardPush_sched] using matched
  | getKey =>
      rw [Matched, KeyState.running] at matched ⊢
      simpa only [KeyRun.step, keyboardPop_sched] using matched
  | taskExec task => rfl

/-- Characters reach the process that was current when they were typed, in order, and
    none is lost while no more are waiting than a buffer holds. -/
theorem keys_delivered (sched : SchedState) (terminal : Terminal) (ops : List Op)
    (fits : Run.Always KeyRun.step KeyRun.Fits (started sched terminal) ops) :
    (Run.final KeyRun.step (started sched terminal) ops).Delivered ∧
      ((started sched terminal).Matched →
        (Run.final KeyRun.step (started sched terminal) ops).Matched) := by
  constructor
  · have inv : (Run.final KeyRun.step (started sched terminal) ops).Inv :=
      Run.Always.invariant KeyRun.Inv (fun _ op inv fits => inv.step op fits)
        (KeyRun.inv_started sched terminal) fits
    exact inv.delivered
  · intro matched
    exact Run.Always.invariant KeyRun.Matched (fun _ op matched _ => matched.step op) matched fits

/-- As many steps as a buffer has cells cannot fill it beyond. -/
theorem fits_of_length_le {ops : List Op} {r : KeyRun} {count : Nat}
    (few : ∀ process, (r.pushed process).length ≤ count)
    (short : count + ops.length ≤ keyboardBufferSize) : Run.Always KeyRun.step KeyRun.Fits r ops := by
  induction ops generalizing r count with
  | nil => exact trivial
  | cons op ops ih =>
      rw [List.length_cons] at short
      have next : ∀ process, ((r.step op).pushed process).length ≤ count + 1 := by
        intro process
        have before := few process
        cases op with
        | key c =>
            have after := append_length_le r.pushed r.state.sched.currentProcess process c
            exact after.trans (by omega)
        | getKey => exact before.trans (Nat.le_succ count)
        | taskExec task => exact before.trans (Nat.le_succ count)
      exact ⟨fun process _ => (next process).trans (by omega), ih next (by omega)⟩

/-- Two tasks, each of a process of its own; the first one runs. -/
def twoTasks : SchedState :=
  ⟨fun _ => 0, fun _ => ⟨0, 0⟩, ⟨fun task => ⟨task + 0x1000, 0, 0⟩, 0x1000, 0x2000, 0x1000⟩, 0x2000⟩

theorem twoTasks_focus : (started twoTasks booted).state.Focus 0x2000 := ⟨by decide, by decide, rfl, rfl⟩

theorem keys_delivered_two_tasks :
    (Run.final KeyRun.step (started twoTasks booted)
      [.key 0x61, .taskExec 0x2000, .key 0x62, .getKey]).Delivered := by
  have none : ∀ process, ((started twoTasks booted).pushed process).length ≤ 0 := fun _ => le_rfl
  exact (keys_delivered twoTasks booted _ (fits_of_length_le none (by decide))).1

end ConiferOS.Keyboard
