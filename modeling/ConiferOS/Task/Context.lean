import ConiferOS.Config
import ConiferOS.Lib.Stack

/-! # Saving and restoring the context of a task

A trap leaves the registers of user mode on the kernel stack, `task_current_save_state` copies
them to the task, and `task_exec` builds from there the frame that `iretd` takes. The copy of
the flags is never read: user mode goes on with the flags of the kernel.
-/

namespace ConiferOS.Task.Context

open Lib

/-- The registers and the memory that the kernel sees. Both sets of page tables map the kernel's
    memory to itself. -/
structure Machine where
  edi : Word
  esi : Word
  ebp : Word
  ebx : Word
  edx : Word
  ecx : Word
  eax : Word
  esp : Word
  eip : Word
  eflags : Word
  cs : BitVec 16
  ss : BitVec 16
  ds : BitVec 16
  es : BitVec 16
  fs : BitVec 16
  gs : BitVec 16
  mem : Mem

namespace Machine

def push (v : Word) (s : Machine) : Machine :=
  { s with esp := s.esp - 4, mem := s.mem.store32 (s.esp - 4) v }

/-- `pushf` clears the virtual-8086 and the resume flag of the image. -/
def pushf (s : Machine) : Machine := s.push (s.eflags &&& 0x00FCFFFF)

def popEax (s : Machine) : Machine := { s with eax := s.mem.load32 s.esp, esp := s.esp + 4 }

def ret (s : Machine) : Machine := { s with eip := s.mem.load32 s.esp, esp := s.esp + 4 }

/-- The return is to another privilege level, so the stack is taken from the frame as well. -/
def iretd (s : Machine) : Machine :=
  { s with
    eip := s.mem.load32 s.esp
    cs := (s.mem.load32 (s.esp + 4)).setWidth 16
    eflags := s.mem.load32 (s.esp + 8)
    esp := s.mem.load32 (s.esp + 12)
    ss := (s.mem.load32 (s.esp + 16)).setWidth 16 }

/-- What the processor pushes on the stack of the task state segment. The handler's own code
    segment, instruction pointer and flags are left out. -/
def interrupt (esp0 : Word) (ss0 : BitVec 16) (s : Machine) : Machine :=
  let kernel := { s with esp := esp0, ss := ss0 }
  ((((kernel.push (s.ss.setWidth 32)).push s.esp).push s.eflags).push (s.cs.setWidth 32)).push s.eip

def pushad (s : Machine) : Machine :=
  (((((((s.push s.eax).push s.ecx).push s.edx).push s.ebx).push s.esp).push s.ebp).push s.esi).push s.edi

/-- The entry of `int%1` and of `isr80h_wrapper`; the frame is at the stack pointer. -/
def trap (esp0 : Word) (ss0 : BitVec 16) (s : Machine) : Machine := (s.interrupt esp0 ss0).pushad

end Machine

/-! ## The two structures -/

/-- The fields of `struct registers`. -/
inductive Field where
  | edi
  | esi
  | ebp
  | ebx
  | edx
  | ecx
  | eax
  | ip
  | cs
  | eflags
  | esp
  | ss
  deriving DecidableEq

/-- Offsets in `struct interrupt_frame`, which has `unused_esp` at 12. -/
def Field.inFrame : Field → Word
  | edi => 0
  | esi => 4
  | ebp => 8
  | ebx => 16
  | edx => 20
  | ecx => 24
  | eax => 28
  | ip => 32
  | cs => 36
  | eflags => 40
  | esp => 44
  | ss => 48

/-- Offsets in `struct registers`. -/
def Field.inRegisters : Field → Word
  | edi => 0
  | esi => 4
  | ebp => 8
  | ebx => 12
  | edx => 16
  | ecx => 20
  | eax => 24
  | ip => 28
  | cs => 32
  | eflags => 36
  | esp => 40
  | ss => 44

def sizeofRegisters : Nat := 48
def sizeofInterruptFrame : Nat := 52

/-- `registers` comes behind the pointer to the page tables. -/
def taskRegisters (task : Word) : Word := task + 4

def saveField (registers frame : Word) (m : Mem) (field : Field) : Mem :=
  m.store32 (registers + field.inRegisters) (m.load32 (frame + field.inFrame))

/-- `none` is the panic without a current task. -/
def taskCurrentSaveState (task frame : Word) (m : Mem) : Option Mem :=
  if task = 0 then none
  else
    some ([Field.edi, .esi, .ebp, .ebx, .edx, .ecx, .eax, .ip, .cs, .eflags, .esp, .ss].foldl
      (saveField (taskRegisters task) frame) m)

/-! ## `task.asm` -/

def restoreGeneralPurposeRegisters (s : Machine) : Machine :=
  let s := s.push s.ebp
  let s := { s with ebp := s.esp }
  let s := { s with ebx := s.mem.load32 (s.ebp + 8) }
  let s := { s with edi := s.mem.load32 s.ebx }
  let s := { s with esi := s.mem.load32 (s.ebx + 4) }
  let s := { s with ebp := s.mem.load32 (s.ebx + 8) }
  let s := { s with edx := s.mem.load32 (s.ebx + 16) }
  let s := { s with ecx := s.mem.load32 (s.ebx + 20) }
  let s := { s with eax := s.mem.load32 (s.ebx + 24) }
  let s := { s with ebx := s.mem.load32 (s.ebx + 12) }
  let s := { s with esp := s.esp + 4 }
  s.ret

/-- The first part of `task_enter_userland`, up to the instruction pointer. -/
def pushReturnFrame (s : Machine) : Machine :=
  let s := { s with ebp := s.esp }
  let s := { s with ebx := s.mem.load32 (s.ebp + 4) }
  let s := s.push (s.mem.load32 (s.ebx + 44))
  let s := s.push (s.mem.load32 (s.ebx + 40))
  let s := s.pushf
  let s := s.popEax
  let s := { s with eax := s.eax ||| 0x200 }
  let s := s.push s.eax
  let s := s.push (s.mem.load32 (s.ebx + 32))
  s.push (s.mem.load32 (s.ebx + 28))

/-- The low half of `eax` goes through `ax`. -/
def setDataSegments (s : Machine) : Machine :=
  let ax := s.mem.load16 (s.ebx + 44)
  { s with eax := s.eax.extractLsb' 16 16 ++ ax, ds := ax, es := ax, fs := ax, gs := ax }

/-- `back` is the address behind the call; `none` if control does not come back there. -/
def taskEnterUserland (back : Word) (s : Machine) : Option Machine :=
  let s := setDataSegments (pushReturnFrame s)
  let s := s.push (s.mem.load32 (s.ebp + 4))
  let s := restoreGeneralPurposeRegisters (s.push back)
  if s.eip = back then
    let s := { s with esp := s.esp + 4 }
    some s.iretd
  else none

/-- The call that ends `task_exec`; `caller` is its return address. The current task and process
    that it sets are those of the scheduler. -/
def taskExec (task caller back : Word) (s : Machine) : Option Machine :=
  taskEnterUserland back ((s.push (taskRegisters task)).push caller)

/-! ## The frame -/

/-- What user mode has in the register of a field. -/
def Machine.field (s : Machine) : Field → Word
  | .edi => s.edi
  | .esi => s.esi
  | .ebp => s.ebp
  | .ebx => s.ebx
  | .edx => s.edx
  | .ecx => s.ecx
  | .eax => s.eax
  | .ip => s.eip
  | .cs => s.cs.setWidth 32
  | .eflags => s.eflags
  | .esp => s.esp
  | .ss => s.ss.setWidth 32

theorem push_words {s : Machine} {words : List Word} (held : s.mem.Words s.esp words)
    (few : words.length < 16) (v : Word) : (s.push v).mem.Words (s.push v).esp (v :: words) :=
  held.push (by omega)

theorem interrupt_words (s : Machine) (esp0 : Word) (ss0 : BitVec 16) :
    (s.interrupt esp0 ss0).mem.Words (s.interrupt esp0 ss0).esp
      [s.eip, s.cs.setWidth 32, s.eflags, s.esp, s.ss.setWidth 32] := by
  have start : ({ s with esp := esp0, ss := ss0 } : Machine).mem.Words esp0 [] := trivial
  unfold Machine.interrupt
  iterate 5 refine push_words ?_ (by simp) _
  exact start

theorem pushad_words {s : Machine} {words : List Word} (held : s.mem.Words s.esp words)
    (few : words.length < 8) :
    s.pushad.mem.Words s.pushad.esp
      (s.edi :: s.esi :: s.ebp :: s.esp :: s.ebx :: s.edx :: s.ecx :: s.eax :: words) := by
  unfold Machine.pushad
  iterate 7 refine push_words ?_ (by simp only [List.length_cons]; omega) _
  exact push_words held (by omega) _

/-- The other registers are those of user mode. -/
theorem interrupt_kept (s : Machine) (esp0 : Word) (ss0 : BitVec 16) :
    (s.interrupt esp0 ss0).edi = s.edi ∧ (s.interrupt esp0 ss0).esi = s.esi ∧
      (s.interrupt esp0 ss0).ebp = s.ebp ∧ (s.interrupt esp0 ss0).ebx = s.ebx ∧
      (s.interrupt esp0 ss0).edx = s.edx ∧ (s.interrupt esp0 ss0).ecx = s.ecx ∧
      (s.interrupt esp0 ss0).eax = s.eax := by
  simp only [Machine.interrupt, Machine.push, and_self]

theorem trap_words (u : Machine) (esp0 : Word) (ss0 : BitVec 16) :
    (u.trap esp0 ss0).mem.Words (u.trap esp0 ss0).esp
      [u.edi, u.esi, u.ebp, (u.interrupt esp0 ss0).esp, u.ebx, u.edx, u.ecx, u.eax, u.eip,
        u.cs.setWidth 32, u.eflags, u.esp, u.ss.setWidth 32] := by
  have pushed := pushad_words (interrupt_words u esp0 ss0) (by simp)
  obtain ⟨edi, esi, ebp, ebx, edx, ecx, eax⟩ := interrupt_kept u esp0 ss0
  rw [edi, esi, ebp, ebx, edx, ecx, eax] at pushed
  exact pushed

/-- The words that the processor and `pushad` push are the fields of the frame. -/
theorem trap_field (u : Machine) (esp0 : Word) (ss0 : BitVec 16) (field : Field) :
    (u.trap esp0 ss0).mem.load32 ((u.trap esp0 ss0).esp + field.inFrame) = u.field field := by
  have words := trap_words u esp0 ss0
  cases field with
  | edi => exact words.get (i := 0) rfl
  | esi => exact words.get (i := 1) rfl
  | ebp => exact words.get (i := 2) rfl
  | ebx => exact words.get (i := 4) rfl
  | edx => exact words.get (i := 5) rfl
  | ecx => exact words.get (i := 6) rfl
  | eax => exact words.get (i := 7) rfl
  | ip => exact words.get (i := 8) rfl
  | cs => exact words.get (i := 9) rfl
  | eflags => exact words.get (i := 10) rfl
  | esp => exact words.get (i := 11) rfl
  | ss => exact words.get (i := 12) rfl

/-! ## The copy -/

theorem inRegisters_le (field : Field) : field.inRegisters.toNat + 4 ≤ sizeofRegisters := by
  cases field <;> decide

theorem inFrame_le (field : Field) : field.inFrame.toNat + 4 ≤ sizeofInterruptFrame := by
  cases field <;> decide

theorem inRegisters_apart {f g : Field} (other : f ≠ g) : 4 ≤ (f.inRegisters - g.inRegisters).toNat := by
  cases f <;> cases g <;> first | contradiction | decide

/-- Two areas with no byte in common. -/
def Apart (a : Word) (n : Nat) (b : Word) (k : Nat) : Prop := n ≤ (b - a).toNat ∧ k ≤ (a - b).toNat

section

variable {registers frame : Word} {m : Mem}

theorem saveField_frame (apart : Apart frame sizeofInterruptFrame registers sizeofRegisters)
    (field other : Field) :
    (saveField registers frame m field).load32 (frame + other.inFrame) =
      m.load32 (frame + other.inFrame) := by
  obtain ⟨after, before⟩ := apart
  have inFrame := inFrame_le other
  have inRegisters := inRegisters_le field
  rw [sizeofInterruptFrame] at after inFrame
  rw [sizeofRegisters] at before inRegisters
  exact Mem.load32_store32_apart (by bv_omega) (by bv_omega)

theorem saveField_other {field other : Field} (apart : field ≠ other) :
    (saveField registers frame m field).load32 (registers + other.inRegisters) =
      m.load32 (registers + other.inRegisters) := by
  have after := inRegisters_apart apart
  have before := inRegisters_apart apart.symm
  exact Mem.load32_store32_apart (by bv_omega) (by bv_omega)

/-- Every field of the list is copied, and the others are left. -/
theorem saveFields_load (apart : Apart frame sizeofInterruptFrame registers sizeofRegisters)
    (fields : List Field) (m : Mem) (field : Field) :
    (fields.foldl (saveField registers frame) m).load32 (registers + field.inRegisters) =
      if field ∈ fields then m.load32 (frame + field.inFrame)
      else m.load32 (registers + field.inRegisters) := by
  induction fields generalizing m with
  | nil => simp
  | cons first fields ih =>
      rw [List.foldl_cons, ih, saveField_frame apart]
      by_cases later : field ∈ fields
      · simp [later]
      by_cases here : field = first
      · subst here
        simp [later, saveField]
      · simp [later, here, saveField_other (Ne.symm here)]

/-- The task has the registers of user mode. -/
def Saved (m : Mem) (registers : Word) (u : Machine) : Prop :=
  ∀ field : Field, m.load32 (registers + field.inRegisters) = u.field field

theorem save_saved {u : Machine} {esp0 : Word} {ss0 : BitVec 16} {task : Word} {m : Mem}
    (apart : Apart (u.trap esp0 ss0).esp sizeofInterruptFrame (taskRegisters task) sizeofRegisters)
    (save : taskCurrentSaveState task (u.trap esp0 ss0).esp (u.trap esp0 ss0).mem = some m) :
    Saved m (taskRegisters task) u := by
  intro field
  rw [taskCurrentSaveState] at save
  split at save
  case isTrue => simp at save
  case isFalse =>
    obtain rfl := Option.some.inj save
    rw [saveFields_load apart, trap_field, if_pos]
    cases field <;> simp

end

/-! ## The way back -/

/-- The stack from `bottom` on has `room` free words and then `words`, and the saved registers are
    still there. -/
structure Live (registers bottom : Word) (u : Machine) (room : Nat) (words : List Word) (m : Mem)
    (esp : Word) : Prop where
  place : esp = bottom + BitVec.ofNat 32 (4 * room)
  held : m.Words esp words
  few : words.length < 16
  saved : Saved m registers u

/-- How much of the stack is used on the way, by `task_exec` and the two routines. -/
def stackUsed : Nat := 40

section

variable {registers bottom : Word} {u : Machine} {room : Nat} {words : List Word} {m : Mem} {esp : Word}

theorem Live.push (apart : Apart bottom stackUsed registers sizeofRegisters)
    (live : Live registers bottom u (room + 1) words m esp) (inside : 4 * (room + 1) ≤ stackUsed)
    (few : words.length < 15) (v : Word) :
    Live registers bottom u room (v :: words) (m.store32 (esp - 4) v) (esp - 4) := by
  obtain ⟨after, before⟩ := apart
  have place := live.place
  rw [stackUsed] at after inside
  rw [sizeofRegisters] at before
  refine ⟨by bv_omega, live.held.push (by omega), Nat.succ_lt_succ few, fun field => ?_⟩
  have inRegisters := inRegisters_le field
  rw [sizeofRegisters] at inRegisters
  rw [Mem.load32_store32_apart (by bv_omega) (by bv_omega)]
  exact live.saved field

theorem Live.pop {w : Word} (live : Live registers bottom u room (w :: words) m esp) :
    Live registers bottom u (room + 1) words m (esp + 4) where
  place := by
    have place := live.place
    bv_omega
  held := live.held.2
  few := by
    have few := live.few
    rw [List.length_cons] at few
    omega
  saved := live.saved

variable {s : Machine}

/-- The flags that user mode gets. -/
def returnedFlags (eflags : Word) : Word := eflags &&& 0x00FCFFFF ||| 0x200

theorem pushReturnFrame_live (apart : Apart bottom stackUsed registers sizeofRegisters) {caller : Word}
    (live : Live registers bottom u 8 [caller, registers] s.mem s.esp) :
    Live registers bottom u 3
        [u.field .ip, u.field .cs, returnedFlags s.eflags, u.field .esp, u.field .ss, caller, registers]
        (pushReturnFrame s).mem (pushReturnFrame s).esp ∧
      (pushReturnFrame s).ebp = s.esp ∧ (pushReturnFrame s).ebx = registers := by
  have argument : s.mem.load32 (s.esp + 4) = registers := live.held.2.1
  have ss := live.push apart (by decide) (by simp) (u.field .ss)
  have esp := ss.push apart (by decide) (by simp) (u.field .esp)
  have image := esp.push apart (by decide) (by simp) (s.eflags &&& 0x00FCFFFF)
  have flags := image.pop.push apart (by decide) (by simp) (s.eflags &&& 0x00FCFFFF ||| 0x200)
  have cs := flags.push apart (by decide) (by simp) (u.field .cs)
  have ip := cs.push apart (by decide) (by simp) (u.field .ip)
  have ssLoad := live.saved .ss
  have espLoad := ss.saved .esp
  have csLoad := flags.saved .cs
  have ipLoad := cs.saved .ip
  simp only [Field.inRegisters] at ssLoad espLoad csLoad ipLoad
  simp only [pushReturnFrame, Machine.push, Machine.pushf, Machine.popEax, argument, ssLoad, espLoad,
    image.held.1, csLoad, ipLoad, and_true]
  exact ip

/-- On entry the stack has the address behind the call and the argument. -/
theorem restoreGeneralPurposeRegisters_live (apart : Apart bottom stackUsed registers sizeofRegisters)
    {back : Word} (live : Live registers bottom u 1 (back :: registers :: words) s.mem s.esp)
    (few : words.length < 8) :
    let r := restoreGeneralPurposeRegisters s
    (r.edi = u.edi ∧ r.esi = u.esi ∧ r.ebp = u.ebp ∧ r.ebx = u.ebx ∧ r.edx = u.edx ∧ r.ecx = u.ecx ∧
        r.eax = u.eax) ∧
      r.eip = back ∧ Live registers bottom u 2 (registers :: words) r.mem r.esp := by
  have pushed := live.push apart (by decide) (by simp; omega) s.ebp
  have argument : (s.mem.store32 (s.esp - 4) s.ebp).load32 (s.esp - 4 + 8) = registers :=
    pushed.held.get (i := 2) rfl
  have behind := pushed.pop.held.1
  have edi : (s.mem.store32 (s.esp - 4) s.ebp).load32 registers = u.edi := by
    simpa [Field.inRegisters, Machine.field] using pushed.saved .edi
  have esi := pushed.saved .esi
  have ebp := pushed.saved .ebp
  have ebx := pushed.saved .ebx
  have edx := pushed.saved .edx
  have ecx := pushed.saved .ecx
  have eax := pushed.saved .eax
  simp only [Field.inRegisters, Machine.field] at esi ebp ebx edx ecx eax
  simp only [restoreGeneralPurposeRegisters, Machine.push, Machine.ret, argument, behind, edi, esi, ebp,
    ebx, edx, ecx, eax, and_self, true_and]
  exact pushed.pop.pop

/-- The words on the stack are what `iretd` takes. -/
theorem iretd_live {flags : Word}
    (live : Live registers bottom u room
      (u.field .ip :: u.field .cs :: flags :: u.field .esp :: u.field .ss :: words) s.mem s.esp) :
    s.iretd =
      { s with eip := u.eip, cs := u.cs, eflags := flags, esp := u.esp, ss := u.ss } := by
  have ip : s.mem.load32 s.esp = u.eip := live.held.1
  have cs : s.mem.load32 (s.esp + 4) = u.cs.setWidth 32 := live.held.get (i := 1) rfl
  have eflags : s.mem.load32 (s.esp + 8) = flags := live.held.get (i := 2) rfl
  have esp : s.mem.load32 (s.esp + 12) = u.esp := live.held.get (i := 3) rfl
  have ss : s.mem.load32 (s.esp + 16) = u.ss.setWidth 32 := live.held.get (i := 4) rfl
  have narrow : ∀ x : BitVec 16, (x.setWidth 32).setWidth 16 = x := by simp
  rw [Machine.iretd, ip, cs, eflags, esp, ss, narrow, narrow]

/-- The argument is still on the stack when it is pushed again. -/
theorem argument_live {caller : Word} {s p : Machine}
    (entered : Live registers bottom u 8 [caller, registers] s.mem s.esp) {ip cs flags esp ss : Word}
    (framed : Live registers bottom u 3 [ip, cs, flags, esp, ss, caller, registers] p.mem p.esp) :
    p.mem.load32 (s.esp + 4) = registers := by
  have argument := framed.held.get (i := 6) rfl
  rw [framed.place] at argument
  rw [entered.place]
  have same : bottom + BitVec.ofNat 32 (4 * 8) + 4 =
      bottom + BitVec.ofNat 32 (4 * 3) + BitVec.ofNat 32 (4 * 6) := by bv_omega
  rw [same]
  exact argument

end

/-- What user mode sees of the registers, but the flags. -/
structure Restored (u r : Machine) : Prop where
  edi : r.edi = u.edi
  esi : r.esi = u.esi
  ebp : r.ebp = u.ebp
  ebx : r.ebx = u.ebx
  edx : r.edx = u.edx
  ecx : r.ecx = u.ecx
  eax : r.eax = u.eax
  eip : r.eip = u.eip
  cs : r.cs = u.cs
  esp : r.esp = u.esp
  ss : r.ss = u.ss

/-- User mode goes on where it was interrupted, with interrupts on. -/
structure Resumed (u r : Machine) : Prop extends Restored u r where
  eflags : r.eflags = u.eflags ||| 0x200

/-- On entry the stack has the address behind the call and the argument. -/
theorem taskEnterUserland_restored {registers bottom caller back : Word} {u s : Machine}
    (apart : Apart bottom stackUsed registers sizeofRegisters)
    (entered : Live registers bottom u 8 [caller, registers] s.mem s.esp) :
    ∃ r, taskEnterUserland back s = some r ∧ Restored u r ∧ r.eflags = returnedFlags s.eflags := by
  obtain ⟨framed, ebp, -⟩ := pushReturnFrame_live apart entered
  have argument := argument_live entered framed
  rw [taskEnterUserland]
  -- Only the words on the stack matter from here on.
  generalize pushReturnFrame s = f at framed ebp argument ⊢
  rw [← ebp] at argument
  have called := (framed.push apart (by decide) (by simp) registers).push apart (by decide) (by simp) back
  have again : (setDataSegments f).mem.load32 ((setDataSegments f).ebp + 4) = registers := argument
  simp only [again]
  obtain ⟨⟨edi, esi, ebp, ebx, edx, ecx, eax⟩, eip, returned⟩ :=
    restoreGeneralPurposeRegisters_live (s := ((setDataSegments f).push registers).push back) apart called
      (by simp)
  generalize restoreGeneralPurposeRegisters (((setDataSegments f).push registers).push back) = r at *
  have last := iretd_live (s := { r with esp := r.esp + 4 }) returned.pop
  rw [if_pos eip, last]
  exact ⟨_, rfl, ⟨edi, esi, ebp, ebx, edx, ecx, eax, rfl, rfl, rfl, rfl⟩, rfl⟩

/-- The way back from a saved task. -/
theorem taskExec_restored {u k : Machine} {task : Word} (saved : Saved k.mem (taskRegisters task) u)
    (apart : Apart (k.esp - BitVec.ofNat 32 stackUsed) stackUsed (taskRegisters task) sizeofRegisters)
    (caller back : Word) :
    ∃ r, taskExec task caller back k = some r ∧ Restored u r ∧ r.eflags = returnedFlags k.eflags := by
  have start : Live (taskRegisters task) (k.esp - BitVec.ofNat 32 stackUsed) u 10 [] k.mem k.esp :=
    ⟨by rw [stackUsed]; bv_omega, trivial, by simp, saved⟩
  have entered := (start.push apart (by decide) (by simp) (taskRegisters task)).push apart (by decide)
    (by simp) caller
  exact taskEnterUserland_restored (s := (k.push (taskRegisters task)).push caller) apart entered

theorem Saved.congr {m m' : Mem} {registers : Word} {u : Machine} (saved : Saved m registers u)
    (same : ∀ x, (x - registers).toNat < sizeofRegisters → m' x = m x) : Saved m' registers u := by
  intro field
  rw [← saved field]
  refine Mem.load32_congr fun x near => same x ?_
  have inRegisters := inRegisters_le field
  rw [sizeofRegisters] at inRegisters ⊢
  bv_omega

/-- A task that was saved at a trap is resumed as it was exactly when the kernel's flags, with
    interrupts on, happen to be those of the task. -/
theorem context_restored_iff {u k : Machine} {esp0 : Word} {ss0 : BitVec 16} {task : Word} {m : Mem}
    (frameApart : Apart (u.trap esp0 ss0).esp sizeofInterruptFrame (taskRegisters task) sizeofRegisters)
    (save : taskCurrentSaveState task (u.trap esp0 ss0).esp (u.trap esp0 ss0).mem = some m)
    (kept : ∀ x, (x - taskRegisters task).toNat < sizeofRegisters → k.mem x = m x)
    (stackApart : Apart (k.esp - BitVec.ofNat 32 stackUsed) stackUsed (taskRegisters task) sizeofRegisters)
    (caller back : Word) :
    (∃ r, taskExec task caller back k = some r ∧ Resumed u r) ↔
      k.eflags &&& 0x00FCFFFF ||| 0x200 = u.eflags ||| 0x200 := by
  have saved := (save_saved frameApart save).congr kept
  obtain ⟨r, run, restored, flags⟩ := taskExec_restored saved stackApart caller back
  constructor
  · rintro ⟨r', run', resumed⟩
    obtain rfl : r = r' := Option.some.inj (run.symm.trans run')
    exact flags.symm.trans resumed.eflags
  · intro same
    exact ⟨r, run, restored, flags.trans same⟩

theorem trap_esp (u : Machine) (esp0 : Word) (ss0 : BitVec 16) : (u.trap esp0 ss0).esp = esp0 - 52 := by
  simp only [Machine.trap, Machine.pushad, Machine.interrupt, Machine.push]
  bv_omega

/-- A machine with the given stack pointer and flags. -/
def machineAt (esp eflags : Word) (m : Mem) : Machine :=
  ⟨1, 2, 3, 4, 5, 6, 7, esp, 0x400000, eflags, 0x1B, 0x23, 0x23, 0x23, 0x23, 0x23, m⟩

/-- A task with these flags, interrupted and saved at `0x1001000`. -/
def savedAt (eflags : Word) : Option Mem :=
  taskCurrentSaveState 0x1001000 ((machineAt 0x3FF000 eflags 0).trap kernelStackAddr 0x10).esp
    ((machineAt 0x3FF000 eflags 0).trap kernelStackAddr 0x10).mem

theorem savedAt_apart (eflags : Word) :
    Apart ((machineAt 0x3FF000 eflags 0).trap kernelStackAddr 0x10).esp sizeofInterruptFrame
      (taskRegisters 0x1001000) sizeofRegisters := by
  rw [trap_esp]
  exact ⟨by decide, by decide⟩

theorem stack_apart :
    Apart ((0x5FFF00 : Word) - BitVec.ofNat 32 stackUsed) stackUsed (taskRegisters 0x1001000)
      sizeofRegisters :=
  ⟨by decide, by decide⟩

theorem savedAt_some (eflags : Word) : ∃ m, savedAt eflags = some m := by
  rw [savedAt, taskCurrentSaveState, if_neg (by decide)]
  exact ⟨_, rfl⟩

/-- The kernel has the flags of the task. -/
theorem context_restored_same_flags :
    ∃ m, savedAt 0x202 = some m ∧
      ∃ r, taskExec 0x1001000 0 0 (machineAt 0x5FFF00 0x202 m) = some r ∧
        Resumed (machineAt 0x3FF000 0x202 0) r := by
  obtain ⟨m, save⟩ := savedAt_some 0x202
  have same : (0x202 : Word) &&& 0x00FCFFFF ||| 0x200 = 0x202 ||| 0x200 := by decide
  refine ⟨m, save, ?_⟩
  exact (context_restored_iff (k := machineAt 0x5FFF00 0x202 m) (savedAt_apart 0x202) save
    (fun _ _ => rfl) stack_apart 0 0).mpr same

/-- The task had its carry flag set, and the kernel has not. -/
theorem context_loses_carry :
    ∃ m, savedAt 0x203 = some m ∧
      ∃ r, taskExec 0x1001000 0 0 (machineAt 0x5FFF00 0x2 m) = some r ∧
        r.eflags = 0x202 ∧ ¬ Resumed (machineAt 0x3FF000 0x203 0) r := by
  obtain ⟨m, save⟩ := savedAt_some 0x203
  have saved := save_saved (savedAt_apart 0x203) save
  obtain ⟨r, run, -, flags⟩ :=
    taskExec_restored (k := machineAt 0x5FFF00 0x2 m) saved stack_apart 0 0
  have cleared : r.eflags = 0x202 := by
    rw [flags]
    exact (by decide : (0x2 : Word) &&& 0x00FCFFFF ||| 0x200 = 0x202)
  refine ⟨m, save, r, run, cleared, fun resumed => ?_⟩
  have wanted : r.eflags = 0x203 ||| 0x200 := resumed.eflags
  exact absurd (cleared.symm.trans wanted) (by decide)

end ConiferOS.Task.Context
