import ConiferOS.Keyboard.Keyboard
import ConiferOS.User.Readline

/-! # From scan codes to a line

`ps2_keyboard.c` turns a scan code into a character and pushes it to the current process, which
asks for characters in its own time. The line that it reads is the line that was typed, whichever
way interrupts and calls alternate. Behind the last entry of the table there is one more code that
passes the test, and codes beyond it are pushed as an error code.
-/

namespace ConiferOS.Keyboard

open Lib Print

def keyReleasedBit : Byte := 0x80

def ascii (c : Char) : Byte := BitVec.ofNat 8 c.toNat

/-- The index is the scan code. -/
def keyboardScanSetOne : List Byte := [
  0x00, 0x1B, ascii '1', ascii '2', ascii '3', ascii '4', ascii '5',
  ascii '6', ascii '7', ascii '8', ascii '9', ascii '0', ascii '-', ascii '=',
  0x08, 0x09, ascii 'Q', ascii 'W', ascii 'E', ascii 'R', ascii 'T',
  ascii 'Y', ascii 'U', ascii 'I', ascii 'O', ascii 'P', ascii '[', ascii ']',
  0x0d, 0x00, ascii 'A', ascii 'S', ascii 'D', ascii 'F', ascii 'G',
  ascii 'H', ascii 'J', ascii 'K', ascii 'L', ascii ';', 0x27, 0x60,
  0x00, 0x5C, ascii 'Z', ascii 'X', ascii 'C', ascii 'V', ascii 'B',
  ascii 'N', ascii 'M', ascii ',', ascii '.', ascii '/', 0x00, ascii '*',
  0x00, 0x20, 0x00, 0x00, 0x00, 0x00,
  0x00, 0x00, 0x00, 0x00, 0x00, 0x00,
  0x00, ascii '7', ascii '8', ascii '9', ascii '-', ascii '4', ascii '5',
  ascii '6', ascii '+', ascii '1', ascii '2', ascii '3', ascii '0', ascii '.']

def invalidMessage : List Byte :=
  "ps2_keyboard.c scancode_to_char: invalid argument".toList.map ascii

/-- `beyond` is the byte of the kernel's data behind the table. -/
def ps2KeyboardScancodeToChar (beyond scancode : Byte) (terminal : Terminal) : Byte × Terminal :=
  let numElementsScanSet := keyboardScanSetOne.length
  if numElementsScanSet < scancode.toNat then
    (BitVec.ofInt 8 (-einvarg), print invalidMessage terminal)
  else (keyboardScanSetOne.getD scancode.toNat beyond, terminal)

/-- The byte that is read after the scan code is not looked at. -/
def ps2KeyboardHandleInterrupt (beyond scancode : Byte) (s : KeyState) : KeyState :=
  if scancode &&& keyReleasedBit ≠ 0 then s
  else
    let (c, terminal) := ps2KeyboardScancodeToChar beyond scancode s.terminal
    let s := { s with terminal := terminal }
    if 0 < c.toNat then keyboardPush c s else s

/-- The character that a scan code stands for, zero if there is none. -/
def character (beyond scancode : Byte) : Byte :=
  if scancode &&& keyReleasedBit ≠ 0 then 0 else (ps2KeyboardScancodeToChar beyond scancode booted).1

/-- Apart from what it may print, the handler is a push. -/
theorem ps2KeyboardHandleInterrupt_eq (beyond scancode : Byte) (s : KeyState) :
    ∃ terminal, ps2KeyboardHandleInterrupt beyond scancode s =
      keyboardPush (character beyond scancode) { s with terminal := terminal } := by
  unfold ps2KeyboardHandleInterrupt character
  by_cases released : scancode &&& keyReleasedBit ≠ 0
  · refine ⟨s.terminal, ?_⟩
    rw [if_pos released, if_pos released, keyboardPush_zero]
  · refine ⟨(ps2KeyboardScancodeToChar beyond scancode s.terminal).2, ?_⟩
    have same : (ps2KeyboardScancodeToChar beyond scancode booted).1 =
        (ps2KeyboardScancodeToChar beyond scancode s.terminal).1 := by
      unfold ps2KeyboardScancodeToChar
      dsimp only
      split <;> rfl
    rw [if_neg released, if_neg released, same]
    dsimp only
    split
    case isTrue => rfl
    case isFalse silent =>
      rw [show (ps2KeyboardScancodeToChar beyond scancode s.terminal).1 = 0 by bv_omega, keyboardPush_zero]

/-! ## Interrupts and get-key calls -/

inductive Event where
  | interrupt (scancode : Byte)
  | getKey

/-- The state, the characters that were typed, and the results of the get-key calls. -/
structure Exchange where
  state : KeyState
  typed : List Byte
  polls : List Byte

def Exchange.step (beyond : Byte) (t : Exchange) : Event → Exchange
  | .interrupt scancode =>
      { t with
        state := ps2KeyboardHandleInterrupt beyond scancode t.state
        typed := t.typed ++ [character beyond scancode] }
  | .getKey => { t with state := (keyboardPop t.state).2, polls := t.polls ++ [(keyboardPop t.state).1] }

open User (pressed)

/-- After the event no more characters are waiting than the buffer has cells. -/
def Exchange.Fits (beyond : Byte) (t : Exchange) (event : Event) : Prop :=
  (pressed (t.step beyond event).typed).length ≤ (pressed (t.step beyond event).polls).length + keyboardBufferSize

/-- The process has the keyboard, and gets what was typed in order. -/
structure Exchange.Inv (process : Word) (t : Exchange) : Prop where
  focus : t.state.Focus process
  queue : ∃ pending, Queue (t.state.buffers process) (pressed t.typed) (pressed t.polls) pending

theorem pressed_append (keys : List Byte) (c : Byte) :
    pressed (keys ++ [c]) = if c = 0 then pressed keys else pressed keys ++ [c] := by
  rw [pressed, pressed, List.filter_append]
  split
  case isTrue zero =>
    subst zero
    simp
  case isFalse nonzero =>
    rw [List.filter_eq_self (l := [c]) |>.mpr (by simpa using nonzero)]

section

variable {process : Word} {beyond : Byte} {t : Exchange}

theorem Exchange.Inv.interrupt (inv : t.Inv process) (scancode : Byte)
    (fits : t.Fits beyond (.interrupt scancode)) : (t.step beyond (.interrupt scancode)).Inv process := by
  obtain ⟨focus, pending, queue⟩ := inv
  obtain ⟨terminal, run⟩ := ps2KeyboardHandleInterrupt_eq beyond scancode t.state
  rw [Fits] at fits
  simp only [step, run, pressed_append] at fits ⊢
  generalize character beyond scancode = c at fits ⊢
  have printed : ({ t.state with terminal := terminal } : KeyState).Focus process := focus.of_sched rfl
  by_cases silent : c = 0
  · subst silent
    rw [keyboardPush_zero]
    exact ⟨printed, pending, by simpa [pressed_append] using queue⟩
  · rw [if_neg silent] at fits
    refine ⟨printed.of_sched (keyboardPush_sched _ _), pending ++ [c], ?_⟩
    simp only [pressed_append, if_neg silent]
    rw [printed.push silent]
    exact queue.push silent fits terminal

variable (beyond) in
/-- A get-key call takes the first character that is waiting, if there is one. -/
theorem getKey_queue {pending : List Byte} (focus : t.state.Focus process)
    (queue : Queue (t.state.buffers process) (pressed t.typed) (pressed t.polls) pending) :
    (t.step beyond .getKey).state.Focus process ∧
      Queue ((t.step beyond .getKey).state.buffers process) (pressed (t.step beyond .getKey).typed)
        (pressed (t.step beyond .getKey).polls) pending.tail := by
  refine ⟨focus.of_sched (keyboardPop_sched _), ?_⟩
  simp only [Exchange.step, pressed_append, focus.pop_value]
  cases pending with
  | nil =>
      have blank := queue.ring.front_of_empty
      rw [if_pos blank, focus.pop_none blank]
      exact queue
  | cons c pending =>
      have nonzero := queue.nonzero c List.mem_cons_self
      have front := queue.ring.front
      rw [front, if_neg nonzero, focus.pop_some (by rwa [front])]
      exact queue.pop

theorem Exchange.Inv.step (inv : t.Inv process) (event : Event) (fits : t.Fits beyond event) :
    (t.step beyond event).Inv process := by
  cases event with
  | interrupt scancode => exact inv.interrupt scancode fits
  | getKey =>
      obtain ⟨focus, pending, queue⟩ := inv
      obtain ⟨focus, queue⟩ := getKey_queue beyond focus queue
      exact ⟨focus, _, queue⟩

variable (beyond) in
/-- Enough calls in a row take everything that is waiting. -/
theorem getKeys_queue {pending : List Byte} (focus : t.state.Focus process)
    (queue : Queue (t.state.buffers process) (pressed t.typed) (pressed t.polls) pending) (n : Nat)
    (enough : pending.length ≤ n) :
    pressed (Run.final (Exchange.step beyond) t (List.replicate n .getKey)).polls = pressed t.typed := by
  induction n generalizing t pending with
  | zero =>
      obtain rfl := List.eq_nil_of_length_eq_zero (Nat.le_zero.mp enough)
      rw [queue.split, List.append_nil]
      rfl
  | succ n ih =>
      obtain ⟨focus, queue⟩ := getKey_queue beyond focus queue
      exact ih focus queue (by rw [List.length_tail]; omega)

def Event.character (beyond : Byte) : Event → Option Byte
  | .interrupt scancode => some (Keyboard.character beyond scancode)
  | .getKey => none

/-- What the scan codes stand for. -/
def characters (beyond : Byte) (events : List Event) : List Byte :=
  events.filterMap (Event.character beyond)

theorem typed_eq (beyond : Byte) (t : Exchange) (events : List Event) :
    (Run.final (Exchange.step beyond) t events).typed = t.typed ++ characters beyond events := by
  induction events generalizing t with
  | nil => simp [characters]
  | cons event events ih =>
      rw [Run.final_cons, ih]
      cases event with
      | interrupt scancode =>
          simp only [Exchange.step, List.append_assoc]
          rfl
      | getKey => rfl

end

open User (coniferosTerminalReadline Editor carriageReturn)

section Delivered

variable {process : Word} {beyond : Byte} {s : KeyState} {events : List Event}

/-- The scan codes and then as many calls as the buffer has places. -/
def asked (beyond : Byte) (s : KeyState) (events : List Event) : Exchange :=
  Run.final (Exchange.step beyond) ⟨s, [], []⟩ (events ++ List.replicate keyboardBufferSize .getKey)

/-- The process is given what was typed. -/
theorem asked_polls (focus : s.Focus process)
    (empty : Ring keyboardBufferSize 0 (s.buffers process).buffer (s.buffers process).head
      (s.buffers process).tail [])
    (fits : Run.Always (Exchange.step beyond) (Exchange.Fits beyond) ⟨s, [], []⟩ events) :
    pressed (asked beyond s events).polls = pressed (characters beyond events) := by
  have start : Exchange.Inv process ⟨s, [], []⟩ := ⟨focus, [], rfl, empty, by simp⟩
  have inv : (Run.final (Exchange.step beyond) ⟨s, [], []⟩ events).Inv process :=
    Run.Always.invariant (Exchange.Inv process) (fun _ event inv fits => inv.step event fits) start fits
  obtain ⟨focus, pending, queue⟩ := inv
  have delivered := getKeys_queue beyond focus queue keyboardBufferSize queue.ring.fits
  rwa [← Run.final_append, typed_eq, List.nil_append] at delivered

theorem asked_typed (delivered : pressed (asked beyond s events).polls = pressed (characters beyond events)) :
    User.typed (asked beyond s events).polls = User.typed (characters beyond events) := by
  rw [User.typed, User.typed, delivered]

theorem asked_entered (delivered : pressed (asked beyond s events).polls = pressed (characters beyond events))
    (entered : carriageReturn ∈ characters beyond events) : carriageReturn ∈ (asked beyond s events).polls := by
  have member : carriageReturn ∈ pressed (asked beyond s events).polls := by
    rw [delivered]
    exact List.mem_filter.mpr ⟨entered, by decide⟩
  exact List.mem_of_mem_filter member

/-- The line that a process reads depends on the scan codes alone: not on when the interrupts
    come, as long as the buffer does not overflow and the process asks often enough. -/
theorem line_of_scancodes (focus : s.Focus process)
    (empty : Ring keyboardBufferSize 0 (s.buffers process).buffer (s.buffers process).head
      (s.buffers process).tail [])
    (fits : Run.Always (Exchange.step beyond) (Exchange.Fits beyond) ⟨s, [], []⟩ events)
    (entered : carriageReturn ∈ characters beyond events) {max : Int}
    (room : ∀ keys, keys <+: User.typed (characters beyond events) → (Editor.after keys).kept.length < max) :
    ∃ r, coniferosTerminalReadline max (asked beyond s events).polls = .returned r ∧
      r.Holds ((Editor.after (User.typed (characters beyond events))).kept ++ [0]) := by
  have delivered := asked_polls focus empty fits
  rw [← asked_typed delivered] at room ⊢
  exact User.readlineLoop_returns (User.start_tracks max) room (asked_entered delivered entered)

end Delivered

/-- Too few events to fill the buffer. -/
theorem exchange_fits {beyond : Byte} {events : List Event} {t : Exchange} (count : Nat)
    (few : (pressed t.typed).length ≤ count) (short : count + events.length ≤ keyboardBufferSize) :
    Run.Always (Exchange.step beyond) (Exchange.Fits beyond) t events := by
  induction events generalizing t count with
  | nil => exact trivial
  | cons event events ih =>
      rw [List.length_cons] at short
      have next : (pressed (t.step beyond event).typed).length ≤ count + 1 := by
        cases event with
        | interrupt scancode =>
            simp only [Exchange.step, pressed_append]
            split
            case isTrue => omega
            case isFalse =>
              rw [List.length_append, List.length_singleton]
              omega
        | getKey => exact few.trans (Nat.le_succ count)
      refine ⟨?_, ih (count + 1) next (by omega)⟩
      rw [Exchange.Fits]
      omega

/-- The keys `A` and return, with a release and a call in between. -/
theorem line_of_scancodes_a :
    ∃ r, coniferosTerminalReadline 8 (asked 0 (started twoTasks booted).state
        [.interrupt 0x1E, .getKey, .interrupt 0x9E, .interrupt 0x1C]).polls = .returned r ∧
      r.Holds [0x41, 0] := by
  have typed : User.typed (characters 0 [.interrupt 0x1E, .getKey, .interrupt 0x9E, .interrupt 0x1C]) =
      [0x41] := by decide
  have fits : Run.Always (Exchange.step 0) (Exchange.Fits 0) ⟨(started twoTasks booted).state, [], []⟩
      [.interrupt 0x1E, .getKey, .interrupt 0x9E, .interrupt 0x1C] := exchange_fits 0 le_rfl (by decide)
  have room : ∀ keys, keys <+: User.typed
      (characters 0 [.interrupt 0x1E, .getKey, .interrupt 0x9E, .interrupt 0x1C]) →
      (Editor.after keys).kept.length < (8 : Int) := by
    rw [typed, User.forall_prefix_cons]
    simp [Editor.after, Editor.kept, Editor.press, User.backspace]
  have line := line_of_scancodes twoTasks_focus (Ring.empty _ (by decide) 0) fits (by decide) room
  rw [typed] at line
  exact line

end ConiferOS.Keyboard
