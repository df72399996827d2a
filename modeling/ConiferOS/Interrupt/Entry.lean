import ConiferOS.Interrupt.Dispatch
import ConiferOS.Process.UserCopy
import ConiferOS.Task.Context

/-! # Into the kernel and back

The stubs of `idt.asm` and the C functions they call. The frame that a trap leaves on the kernel
stack is what `popad` and `iretd` take on the way back, so a program goes on as it was, but for
the result of a system call.
-/

namespace ConiferOS.Interrupt

open Lib Process Task.Context

def userDataSegment : BitVec 16 := 0x23

/-- The other half of `pushad`; the stack pointer among the words is skipped. -/
def popad (s : Machine) : Machine :=
  { s with
    edi := s.mem.load32 s.esp
    esi := s.mem.load32 (s.esp + 4)
    ebp := s.mem.load32 (s.esp + 8)
    ebx := s.mem.load32 (s.esp + 16)
    edx := s.mem.load32 (s.esp + 20)
    ecx := s.mem.load32 (s.esp + 24)
    eax := s.mem.load32 (s.esp + 28)
    esp := s.esp + 32 }

def cli (s : Machine) : Machine := { s with eflags := s.eflags &&& 0xFFFFFDFF }

def sti (s : Machine) : Machine := { s with eflags := s.eflags ||| 0x200 }

/-- What a C function leaves in the registers and on the stack that are its own to use. -/
structure Leftover where
  ecx : Word
  edx : Word
  eflags : Word
  stack : Mem

/-- The call of a C function in the convention of the compiler, with `argc` words of arguments on
    the stack and `depth` bytes for the function below them. `m` is memory as it leaves it. -/
def ccall (c : Leftover) (depth argc : Nat) (result : Word) (m : Mem) (s : Machine) : Machine :=
  { s with
    eax := result
    ecx := c.ecx
    edx := c.edx
    eflags := c.eflags
    mem := fun x =>
      if (x - (s.esp - BitVec.ofNat 32 depth)).toNat < depth + 4 * argc then c.stack x else m x }

/-- `set_seg_regs_to_user_data`, the last of the two changes of the data segments. -/
def setSegRegsToUserData (s : Machine) : Machine :=
  { s with ds := userDataSegment, es := userDataSegment, fs := userDataSegment, gs := userDataSegment }

/-! ## The C functions -/

/-- The parts of the kernel that an interrupt meets. What the rest of the kernel keeps is in `σ`. -/
structure Kernel (σ : Type*) where
  /-- `current_task`, and what its page tables make of an address -/
  task : Word
  view : σ → Word → Word
  handlers : Nat → Option (Mem → σ → Option (Mem × σ))
  commands : Nat → Option SystemCall
  /-- what a command does with its arguments; `none` when it does not return -/
  body : SystemCall → List Word → Mem → σ → Option (Word × Mem × σ)
  tmpRes : Word
  /-- how much stack the C functions use -/
  depth : Nat

/-- How many stack items a command takes. -/
def SystemCall.items : SystemCall → Nat
  | sum => 2
  | print => 1
  | getKeyPress => 0
  | putCharOnDisplay => 1
  | malloc => 1
  | free => 1
  | execve => 3
  | exit => 0

/-- The item is read through the page tables of the task. -/
def taskGetStackItem (view : Word → Word) (task : Word) (m : Mem) (index : Int) : Option Word :=
  if index < 0 then none
  else
    let taskEsp := m.load32 (taskRegisters task + Field.esp.inRegisters)
    some (loadVia view m (taskEsp + BitVec.ofNat 32 (4 * index.toNat)))

variable {σ : Type*}

namespace Kernel

/-- All commands read their items before they do anything else. -/
def isr80hHandleCommand (k : Kernel σ) (commandId : Int) (m : Mem) (s : σ) :
    Option (Word × Mem × σ) :=
  match Interrupt.isr80hHandleCommand k.commands commandId with
  | none => some (0, m, s)
  | some call =>
      match (List.range call.items).mapM fun i : Nat => taskGetStackItem (k.view s) k.task m i with
      | none => none
      | some items => k.body call items m s

def isr80hHandler (k : Kernel σ) (commandId : Int) (frame : Word) (m : Mem) (s : σ) :
    Option (Word × Mem × σ) :=
  match taskCurrentSaveState k.task frame m with
  | none => none
  | some m => k.isr80hHandleCommand commandId m s

/-- Without its acknowledgment, which comes last. -/
def interruptHandler (k : Kernel σ) (interrupt : Nat) (frame : Word) (m : Mem) (s : σ) :
    Option (Mem × σ) :=
  match k.handlers interrupt with
  | none => some (m, s)
  | some handler =>
      match taskCurrentSaveState k.task frame m with
      | none => none
      | some m => handler m s

end Kernel

/-! ## The stubs -/

/-- The machine, the rest of the kernel, and how often the PIC got an acknowledgment. -/
structure System (σ : Type*) where
  machine : Machine
  state : σ
  acknowledged : Nat

/-- `int%1`, from user mode and back to it. -/
def interruptStub (k : Kernel σ) (c : Leftover) (esp0 : Word) (ss0 : BitVec 16) (interrupt : Nat)
    (u : System σ) : Option (System σ) :=
  let s := cli (u.machine.trap esp0 ss0)
  let frame := s.esp
  let s := (s.push s.esp).push (BitVec.ofNat 32 interrupt)
  match k.interruptHandler interrupt frame s.mem u.state with
  | none => none
  | some (m, state) =>
      let s := setSegRegsToUserData (ccall c k.depth 2 0 m s)
      let s := { s with esp := s.esp + 8 }
      let s := sti (popad s)
      some ⟨s.iretd, state, u.acknowledged + 1⟩

/-- `isr80h_wrapper`, from user mode and back to it. -/
def isr80hWrapper (k : Kernel σ) (c : Leftover) (esp0 : Word) (ss0 : BitVec 16) (u : System σ) :
    Option (System σ) :=
  let s := cli (u.machine.trap esp0 ss0)
  let frame := s.esp
  let s := (s.push s.esp).push s.eax
  match k.isr80hHandler s.eax.toInt frame s.mem u.state with
  | none => none
  | some (result, m, state) =>
      let s := setSegRegsToUserData (ccall c k.depth 2 result m s)
      let s := { s with mem := s.mem.store32 k.tmpRes s.eax }
      let s := { s with esp := s.esp + 8 }
      let s := popad s
      let s := { s with eax := s.mem.load32 k.tmpRes }
      some ⟨(sti s).iretd, state, u.acknowledged⟩

/-! ## In -/

/-- `n` words were pushed below `top`, and the rest of memory is `m`. -/
structure Grown (top : Word) (m : Mem) (n : Nat) (s : Machine) : Prop where
  place : s.esp = top - BitVec.ofNat 32 (4 * n)
  same : ∀ x : Word, 4 * n ≤ (x - (top - BitVec.ofNat 32 (4 * n))).toNat → s.mem x = m x

theorem Grown.push {top : Word} {m : Mem} {n : Nat} {s : Machine} (grown : Grown top m n s)
    (fits : 4 * (n + 1) < 2 ^ 32) (v : Word) : Grown top m (n + 1) (s.push v) where
  place := by
    have place := grown.place
    simp only [Machine.push]
    bv_omega
  same x outside := by
    have place := grown.place
    have below := Mem.store32_apply_of_le (m := s.mem) (a := s.esp - 4) (v := v) (x := x) (by bv_omega)
    exact below.trans (grown.same x (by bv_omega))

/-- The machine when a stub calls its C function. -/
def entered (esp0 : Word) (ss0 : BitVec 16) (number : Word) (u : Machine) : Machine :=
  let s := cli (u.trap esp0 ss0)
  (s.push s.esp).push number

section Entered

variable (u : Machine) (esp0 : Word) (ss0 : BitVec 16) (number : Word)

theorem entered_grown : Grown esp0 u.mem 15 (entered esp0 ss0 number u) := by
  have start : Grown esp0 u.mem 0 { u with esp := esp0, ss := ss0 } :=
    ⟨by simp, fun _ _ => rfl⟩
  have trapped : Grown esp0 u.mem 13 (cli (u.trap esp0 ss0)) := by
    have pushed : Grown esp0 u.mem 13 (u.trap esp0 ss0) := by
      unfold Machine.trap Machine.pushad Machine.interrupt
      iterate 13 refine Grown.push ?_ (by decide) _
      exact start
    exact ⟨pushed.place, pushed.same⟩
  exact (trapped.push (by decide) _).push (by decide) _

theorem entered_words :
    (entered esp0 ss0 number u).mem.Words (esp0 - 52)
      [u.edi, u.esi, u.ebp, (u.interrupt esp0 ss0).esp, u.ebx, u.edx, u.ecx, u.eax, u.eip,
        u.cs.setWidth 32, u.eflags, u.esp, u.ss.setWidth 32] := by
  have words := trap_words u esp0 ss0
  rw [← trap_esp u esp0 ss0]
  simp only [entered, Machine.push, cli]
  generalize u.trap esp0 ss0 = s at words ⊢
  have pushed := (words.push (v := s.esp) (by simp)).push (v := number) (by simp)
  have frame := pushed.2.2
  rwa [BitVec.sub_add_cancel, BitVec.sub_add_cancel] at frame

end Entered

/-- The words of a trap are the fields of the frame. -/
theorem frame_field {m : Mem} {frame skipped : Word} {u : Machine}
    (words : m.Words frame [u.edi, u.esi, u.ebp, skipped, u.ebx, u.edx, u.ecx, u.eax, u.eip,
      u.cs.setWidth 32, u.eflags, u.esp, u.ss.setWidth 32]) (field : Field) :
    m.load32 (frame + field.inFrame) = u.field field := by
  cases field with
  | edi => exact words.get (i := 0) rfl
  | esi => exact words.get (i := 1) rfl
  | ebp => exact words.get (i := 2) rfl
  | ebx => exact words.get (i := 4) rfl
  | edx => exact words.get (i := 5) rfl
  | ecx => exact words.get (i := 6) rfl
  | eax => exact words.get (i := 7) rfl
  | ip => exact words.get (i := 8) rfl
  | cs => exact words.get (i := 9) rfl
  | eflags => exact words.get (i := 10) rfl
  | esp => exact words.get (i := 11) rfl
  | ss => exact words.get (i := 12) rfl

theorem saveFields_apply (registers frame : Word) (fields : List Field) (m : Mem) {x : Word}
    (outside : sizeofRegisters ≤ (x - registers).toNat) :
    fields.foldl (saveField registers frame) m x = m x := by
  induction fields generalizing m with
  | nil => rfl
  | cons field fields ih =>
      rw [List.foldl_cons, ih]
      have inside := inRegisters_le field
      rw [sizeofRegisters] at inside outside
      exact Mem.store32_apply_of_le (by bv_omega)

theorem taskCurrentSaveState_frame {task frame skipped : Word} {m : Mem} {u : Machine} (nonnull : task ≠ 0)
    (apart : Apart frame sizeofInterruptFrame (taskRegisters task) sizeofRegisters)
    (words : m.Words frame [u.edi, u.esi, u.ebp, skipped, u.ebx, u.edx, u.ecx, u.eax, u.eip,
      u.cs.setWidth 32, u.eflags, u.esp, u.ss.setWidth 32]) :
    ∃ m', taskCurrentSaveState task frame m = some m' ∧ Saved m' (taskRegisters task) u ∧
      ∀ x : Word, sizeofRegisters ≤ (x - taskRegisters task).toNat → m' x = m x := by
  rw [taskCurrentSaveState, if_neg nonnull]
  refine ⟨_, rfl, fun field => ?_, fun x outside => saveFields_apply _ _ _ _ outside⟩
  rw [saveFields_load apart, frame_field words, if_pos]
  cases field <;> simp

/-! ## Out -/

/-- What the stubs do with the frame. Between the two instructions `eax` may get a result. -/
theorem popad_iretd {s u : Machine} {skipped : Word}
    (words : s.mem.Words s.esp [u.edi, u.esi, u.ebp, skipped, u.ebx, u.edx, u.ecx, u.eax, u.eip,
      u.cs.setWidth 32, u.eflags, u.esp, u.ss.setWidth 32]) (result : Word) :
    let r := (sti { popad s with eax := result }).iretd
    Restored { u with eax := result } r ∧ r.eflags = u.eflags ∧ r.mem = s.mem := by
  have field := frame_field words
  have edi : s.mem.load32 s.esp = u.edi := words.1
  have esi := field .esi
  have ebp := field .ebp
  have ebx := field .ebx
  have edx := field .edx
  have ecx := field .ecx
  have eip := field .ip
  have cs := field .cs
  have eflags := field .eflags
  have esp := field .esp
  have ss := field .ss
  simp only [Field.inFrame, Machine.field] at esi ebp ebx edx ecx eip cs eflags esp ss
  have narrow : ∀ x : BitVec 16, (x.setWidth 32).setWidth 16 = x := by simp
  simp only [popad, sti, Machine.iretd, BitVec.add_assoc, BitVec.reduceAdd, and_true]
  refine ⟨⟨edi, esi, ebp, ebx, edx, ecx, rfl, eip, ?_, esp, ?_⟩, eflags⟩
  · exact (congrArg (BitVec.setWidth 16) cs).trans (narrow _)
  · exact (congrArg (BitVec.setWidth 16) ss).trans (narrow _)

/-! ## The whole way -/

/-- The kernel stack, with its `15` words and what the C functions use, the registers of the task
    and `tmp_res` do not overlap. -/
structure Kernel.Placed (k : Kernel σ) (esp0 : Word) : Prop where
  task : k.task ≠ 0
  registers : Apart (esp0 - BitVec.ofNat 32 (60 + k.depth)) (60 + k.depth) (taskRegisters k.task) sizeofRegisters
  tmpRes : Apart (esp0 - BitVec.ofNat 32 (60 + k.depth)) (60 + k.depth) k.tmpRes 4

/-- The bytes that the way in and out may change. -/
def Kernel.Own (k : Kernel σ) (esp0 x : Word) : Prop :=
  (x - (esp0 - BitVec.ofNat 32 (60 + k.depth))).toNat < 60 + k.depth ∨
    (x - taskRegisters k.task).toNat < sizeofRegisters ∨ (x - k.tmpRes).toNat < 4

def KeepsFrame (esp0 : Word) (m m' : Mem) : Prop :=
  ∀ x : Word, (x - (esp0 - 52)).toNat < sizeofInterruptFrame → m' x = m x

theorem outside_of_apart {a b x : Word} {n k : Nat} (apart : Apart a n b k) (inside : (x - a).toNat < n) :
    k ≤ (x - b).toNat := by
  obtain ⟨after, before⟩ := apart
  bv_omega

/-- The frame is the last part of the stack. -/
theorem frame_inside {esp0 x : Word} {depth : Nat} (small : 60 + depth < 2 ^ 32)
    (inFrame : (x - (esp0 - 52)).toNat < sizeofInterruptFrame) :
    depth + 8 ≤ (x - (esp0 - BitVec.ofNat 32 (60 + depth))).toNat ∧
      (x - (esp0 - BitVec.ofNat 32 (60 + depth))).toNat < 60 + depth := by
  rw [sizeofInterruptFrame] at inFrame
  constructor <;> bv_omega

section Stubs

variable {k : Kernel σ} {c : Leftover} {esp0 : Word} {ss0 : BitVec 16} {u : System σ}

theorem Kernel.Placed.small (placed : k.Placed esp0) : 60 + k.depth < 2 ^ 32 :=
  lt_of_le_of_lt placed.registers.1 (BitVec.isLt _)

/-- The frame is apart from whatever the stack is apart from. -/
theorem Kernel.Placed.frame (placed : k.Placed esp0) {x b : Word} {n : Nat}
    (apart : Apart (esp0 - BitVec.ofNat 32 (60 + k.depth)) (60 + k.depth) b n)
    (inFrame : (x - (esp0 - 52)).toNat < sizeofInterruptFrame) : n ≤ (x - b).toNat :=
  outside_of_apart apart (frame_inside placed.small inFrame).2

variable (ss0 u) in
/-- On the way in, up to the command or the handler. -/
theorem entered_saved (placed : k.Placed esp0) (number : Word) :
    ∃ m, taskCurrentSaveState k.task (esp0 - 52) (entered esp0 ss0 number u.machine).mem = some m ∧
      Saved m (taskRegisters k.task) u.machine ∧
      KeepsFrame esp0 (entered esp0 ss0 number u.machine).mem m ∧
      ∀ x, ¬ k.Own esp0 x → m x = u.machine.mem x := by
  have apart : Apart (esp0 - 52) sizeofInterruptFrame (taskRegisters k.task) sizeofRegisters := by
    obtain ⟨after, before⟩ := placed.registers
    rw [sizeofRegisters] at before
    rw [sizeofInterruptFrame, sizeofRegisters]
    exact ⟨by bv_omega, by bv_omega⟩
  obtain ⟨m, save, saved, same⟩ := taskCurrentSaveState_frame placed.task apart
    (entered_words u.machine esp0 ss0 number)
  refine ⟨m, save, saved, fun x inFrame => same x (placed.frame placed.registers inFrame),
    fun x outside => ?_⟩
  rw [Kernel.Own, not_or, not_or, not_lt, not_lt] at outside
  obtain ⟨stack, registers, -⟩ := outside
  have small := placed.small
  rw [same x registers]
  exact (entered_grown u.machine esp0 ss0 number).same x (by bv_omega)

variable (c) in
/-- On the way out, after the C function. The caller's frame is where it was. -/
theorem ccall_words {m : Mem} {number : Word} (result : Word) (placed : k.Placed esp0)
    (kept : KeepsFrame esp0 (entered esp0 ss0 number u.machine).mem m) :
    let s := setSegRegsToUserData (ccall c k.depth 2 result m (entered esp0 ss0 number u.machine))
    s.esp = esp0 - 60 ∧
      s.mem.Words (esp0 - 52) [u.machine.edi, u.machine.esi, u.machine.ebp,
        (u.machine.interrupt esp0 ss0).esp, u.machine.ebx, u.machine.edx, u.machine.ecx, u.machine.eax,
        u.machine.eip, u.machine.cs.setWidth 32, u.machine.eflags, u.machine.esp,
        u.machine.ss.setWidth 32] ∧
      ∀ x, ¬ k.Own esp0 x → s.mem x = m x := by
  have place := (entered_grown u.machine esp0 ss0 number).place
  have small := placed.small
  have bottom : (entered esp0 ss0 number u.machine).esp - BitVec.ofNat 32 k.depth =
      esp0 - BitVec.ofNat 32 (60 + k.depth) := by
    rw [place]
    bv_omega
  refine ⟨place, (entered_words u.machine esp0 ss0 number).congr (by simp) fun x inFrame => ?_,
    fun x outside => ?_⟩
  · have above := (frame_inside small inFrame).1
    simp only [setSegRegsToUserData, ccall, bottom]
    rw [if_neg (by omega)]
    exact kept x inFrame
  · have above := (not_or.mp outside).1
    simp only [setSegRegsToUserData, ccall, bottom]
    rw [if_neg (by omega)]

/-- Without a result, `eax` comes back with the other registers. -/
theorem frame_returned {s u : Machine} {skipped : Word} (place : s.esp = esp0 - 60)
    (words : s.mem.Words (esp0 - 52) [u.edi, u.esi, u.ebp, skipped, u.ebx, u.edx, u.ecx, u.eax, u.eip,
      u.cs.setWidth 32, u.eflags, u.esp, u.ss.setWidth 32]) :
    let r := (sti (popad { s with esp := s.esp + 8 })).iretd
    Restored u r ∧ r.eflags = u.eflags ∧ r.mem = s.mem := by
  have top : s.esp + 8 = esp0 - 52 := by
    rw [place]
    bv_omega
  rw [← top] at words
  have eax : (popad { s with esp := s.esp + 8 }).eax = u.eax := words.get (i := 7) rfl
  have returned := popad_iretd (s := { s with esp := s.esp + 8 }) words u.eax
  generalize popad { s with esp := s.esp + 8 } = p at eax returned ⊢
  have same : { p with eax := u.eax } = p := by rw [← eax]
  simp only [same] at returned
  exact returned

/-- The result of a system call takes the place of `eax`. -/
theorem result_returned {s u : Machine} {skipped : Word} (placed : k.Placed esp0)
    (place : s.esp = esp0 - 60)
    (words : s.mem.Words (esp0 - 52) [u.edi, u.esi, u.ebp, skipped, u.ebx, u.edx, u.ecx, u.eax, u.eip,
      u.cs.setWidth 32, u.eflags, u.esp, u.ss.setWidth 32]) (result : Word) :
    let t := { s with mem := s.mem.store32 k.tmpRes result, esp := s.esp + 8 }
    let r := (sti { popad t with eax := t.mem.load32 k.tmpRes }).iretd
    Restored { u with eax := result } r ∧ r.eflags = u.eflags ∧
      ∀ x, ¬ k.Own esp0 x → r.mem x = s.mem x := by
  have stored := words.congr (by simp) fun x inFrame =>
    show s.mem.store32 k.tmpRes result x = s.mem x from
      Mem.store32_apply_of_le (placed.frame placed.tmpRes inFrame)
  have top : s.esp + 8 = esp0 - 52 := by
    rw [place]
    bv_omega
  rw [← top] at stored
  obtain ⟨restored, eflags, mem⟩ := popad_iretd
    (s := { s with mem := s.mem.store32 k.tmpRes result, esp := s.esp + 8 }) stored result
  simp only [Mem.load32_store32_self]
  refine ⟨restored, eflags, fun x outside => ?_⟩
  rw [mem]
  have apart := not_or.mp (not_or.mp outside).2
  exact Mem.store32_apply_of_le (by omega)

theorem isr80hWrapper_eq :
    isr80hWrapper k c esp0 ss0 u =
      match k.isr80hHandler u.machine.eax.toInt (esp0 - 52)
        (entered esp0 ss0 u.machine.eax u.machine).mem u.state with
      | none => none
      | some (result, m, state) =>
          let s := setSegRegsToUserData
            (ccall c k.depth 2 result m (entered esp0 ss0 u.machine.eax u.machine))
          let s := { s with mem := s.mem.store32 k.tmpRes result, esp := s.esp + 8 }
          some ⟨(sti { popad s with eax := s.mem.load32 k.tmpRes }).iretd, state, u.acknowledged⟩ := by
  have eax : (u.machine.trap esp0 ss0).eax = u.machine.eax := by
    simp only [Machine.trap, Machine.pushad, Machine.interrupt, Machine.push]
  rw [← trap_esp u.machine esp0 ss0, isr80hWrapper, ← eax]
  simp only [entered]
  generalize u.machine.trap esp0 ss0 = t
  rfl

variable (c ss0 u) in
/-- A system call goes in with the registers of the program saved, and comes out with all of them
    but the result. -/
theorem isr80hWrapper_cases (placed : k.Placed esp0) :
    ∃ m, Saved m (taskRegisters k.task) u.machine ∧ (∀ x, ¬ k.Own esp0 x → m x = u.machine.mem x) ∧
      (k.isr80hHandleCommand u.machine.eax.toInt m u.state = none →
        isr80hWrapper k c esp0 ss0 u = none) ∧
      ∀ result m' state,
        k.isr80hHandleCommand u.machine.eax.toInt m u.state = some (result, m', state) →
        KeepsFrame esp0 m m' →
        ∃ r, isr80hWrapper k c esp0 ss0 u = some ⟨r, state, u.acknowledged⟩ ∧
          Restored { u.machine with eax := result } r ∧ r.eflags = u.machine.eflags ∧
          ∀ x, ¬ k.Own esp0 x → r.mem x = m' x := by
  obtain ⟨m, save, saved, kept, same⟩ := entered_saved ss0 u placed u.machine.eax
  have handler : k.isr80hHandler u.machine.eax.toInt (esp0 - 52)
      (entered esp0 ss0 u.machine.eax u.machine).mem u.state =
        k.isr80hHandleCommand u.machine.eax.toInt m u.state := by
    rw [Kernel.isr80hHandler, save]
  refine ⟨m, saved, same, fun stops => ?_, fun result m' state runs keeps => ?_⟩
  · rw [isr80hWrapper_eq, handler, stops]
  have allKept : KeepsFrame esp0 (entered esp0 ss0 u.machine.eax u.machine).mem m' :=
    fun x inFrame => (keeps x inFrame).trans (kept x inFrame)
  obtain ⟨place, words, rest⟩ := ccall_words c result placed allKept
  obtain ⟨restored, eflags, mem⟩ := result_returned placed place words result
  rw [isr80hWrapper_eq, handler, runs]
  exact ⟨_, rfl, restored, eflags, fun x outside => (mem x outside).trans (rest x outside)⟩

/-! ## Interrupts -/

theorem interruptStub_eq (interrupt : Nat) :
    interruptStub k c esp0 ss0 interrupt u =
      match k.interruptHandler interrupt (esp0 - 52)
        (entered esp0 ss0 (BitVec.ofNat 32 interrupt) u.machine).mem u.state with
      | none => none
      | some (m, state) =>
          let s := setSegRegsToUserData
            (ccall c k.depth 2 0 m (entered esp0 ss0 (BitVec.ofNat 32 interrupt) u.machine))
          some ⟨(sti (popad { s with esp := s.esp + 8 })).iretd, state, u.acknowledged + 1⟩ := by
  rw [← trap_esp u.machine esp0 ss0, interruptStub]
  simp only [entered]
  generalize u.machine.trap esp0 ss0 = t
  rfl

/-- What a handler leaves alone: the frame, and the bytes of `P`. -/
structure Kernel.Spares (k : Kernel σ) (esp0 : Word) (P : Word → Prop) (interrupt : Nat) : Prop where
  outside : ∀ x, P x → ¬ k.Own esp0 x
  kept : ∀ handler, k.handlers interrupt = some handler → ∀ m s, ∃ m' s', handler m s = some (m', s') ∧
    KeepsFrame esp0 m m' ∧ ∀ x, P x → m' x = m x

/-- What a program sees of interrupts. -/
structure Unnoticed (P : Word → Prop) (u r : Machine) : Prop extends Restored u r where
  eflags : r.eflags = u.eflags
  memory : ∀ x, P x → r.mem x = u.mem x

variable {P : Word → Prop}

theorem Unnoticed.trans {u s r : Machine} (first : Unnoticed P u s) (second : Unnoticed P s r) :
    Unnoticed P u r where
  edi := second.edi.trans first.edi
  esi := second.esi.trans first.esi
  ebp := second.ebp.trans first.ebp
  ebx := second.ebx.trans first.ebx
  edx := second.edx.trans first.edx
  ecx := second.ecx.trans first.ecx
  eax := second.eax.trans first.eax
  eip := second.eip.trans first.eip
  cs := second.cs.trans first.cs
  esp := second.esp.trans first.esp
  ss := second.ss.trans first.ss
  eflags := second.eflags.trans first.eflags
  memory x inside := (second.memory x inside).trans (first.memory x inside)

variable (ss0 u) in
theorem interruptHandler_kept {interrupt : Nat} (placed : k.Placed esp0)
    (spares : k.Spares esp0 P interrupt) (number : Word) :
    ∃ m state, k.interruptHandler interrupt (esp0 - 52) (entered esp0 ss0 number u.machine).mem u.state =
        some (m, state) ∧
      KeepsFrame esp0 (entered esp0 ss0 number u.machine).mem m ∧ ∀ x, P x → m x = u.machine.mem x := by
  cases registered : k.handlers interrupt with
  | none =>
      refine ⟨_, u.state, by rw [Kernel.interruptHandler, registered], fun _ _ => rfl, fun x inside => ?_⟩
      have small := placed.small
      have stack := (not_or.mp (spares.outside x inside)).1
      exact (entered_grown u.machine esp0 ss0 number).same x (by bv_omega)
  | some handler =>
      obtain ⟨m, save, -, kept, same⟩ := entered_saved ss0 u placed number
      obtain ⟨m', state, runs, keeps, spared⟩ := spares.kept handler registered m u.state
      refine ⟨m', state, ?_, fun x inFrame => (keeps x inFrame).trans (kept x inFrame), fun x inside => ?_⟩
      · rw [Kernel.interruptHandler, registered]
        simp only [save, runs]
      · exact (spared x inside).trans (same x (spares.outside x inside))

variable (c ss0 u) in
/-- One interrupt. -/
theorem interruptStub_unnoticed {interrupt : Nat} (placed : k.Placed esp0)
    (spares : k.Spares esp0 P interrupt) :
    ∃ r, interruptStub k c esp0 ss0 interrupt u = some r ∧ Unnoticed P u.machine r.machine ∧
      r.acknowledged = u.acknowledged + 1 := by
  obtain ⟨m, state, runs, kept, same⟩ :=
    interruptHandler_kept ss0 u placed spares (BitVec.ofNat 32 interrupt)
  obtain ⟨place, words, rest⟩ := ccall_words c 0 placed kept
  obtain ⟨restored, eflags, mem⟩ := frame_returned place words
  rw [interruptStub_eq, runs]
  refine ⟨_, rfl, ⟨restored, eflags, fun x inside => ?_⟩, rfl⟩
  exact ((congrFun mem x).trans (rest x (spares.outside x inside))).trans (same x inside)

/-- Interrupts one after another; a C function leaves something else behind each time. -/
def interrupts (k : Kernel σ) (esp0 : Word) (ss0 : BitVec 16) :
    List (Nat × Leftover) → System σ → Option (System σ)
  | [], u => some u
  | (interrupt, c) :: events, u =>
      match interruptStub k c esp0 ss0 interrupt u with
      | none => none
      | some r => interrupts k esp0 ss0 events r

end Stubs

/-- A kernel with the registers of its task at `0x1001004`. The handler of the keyboard counts the
    interrupts in a byte, and a command returns the sum of its items. -/
def countingKernel (commands : Nat → Option SystemCall) : Kernel Nat where
  task := 0x1001000
  view _ := id
  handlers interrupt :=
    if interrupt = 0x21 then some fun m s => some (m.store8 0x1002000 (BitVec.ofNat 8 s), s + 1) else none
  commands := commands
  body _ items m s := some (items.sum, m, s)
  tmpRes := 0x110000
  depth := 4096

theorem countingKernel_placed (commands : Nat → Option SystemCall) :
    (countingKernel commands).Placed kernelStackAddr where
  task := by
    simp only [countingKernel]
    decide
  registers := by
    simp only [countingKernel]
    exact ⟨by decide, by decide⟩
  tmpRes := by
    simp only [countingKernel]
    exact ⟨by decide, by decide⟩

/-- The program's page is at `0x2000000`. -/
theorem countingKernel_spares (commands : Nat → Option SystemCall) (interrupt : Nat) :
    (countingKernel commands).Spares kernelStackAddr (fun x => x.toNat / 4096 = 0x2000) interrupt where
  outside := by
    intro x page
    simp only [countingKernel, Kernel.Own, kernelStackAddr, taskRegisters, sizeofRegisters, not_or, not_lt]
    refine ⟨?_, ?_, ?_⟩ <;> bv_omega
  kept := by
    intro handler registered m s
    simp only [countingKernel] at registered
    split at registered
    case isFalse => cases registered
    case isTrue =>
      obtain rfl := Option.some.inj registered
      refine ⟨_, _, rfl, fun x inFrame => if_neg ?_, fun x page => if_neg ?_⟩
      · rintro rfl
        revert inFrame
        decide
      · rintro rfl
        revert page
        decide

/-- What the C functions happen to leave behind. -/
def someLeftover : Leftover := ⟨1, 2, 0x46, 0⟩

end ConiferOS.Interrupt
