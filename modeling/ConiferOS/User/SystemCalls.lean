import ConiferOS.Interrupt.Entry

/-! # The system calls of the standard library

`coniferos.asm` pushes the arguments of a C call once more, puts a number into `eax` and traps. A
command finds the copies as the items of the stack, the last argument first.
-/

namespace ConiferOS.User.SystemCalls

open Lib Process Interrupt Task.Context

/-! ## `coniferos.asm` -/

inductive Instr where
  | pushEbp
  | movEbpEsp
  /-- `push dword[ebp+offset]` -/
  | pushArgument (offset : Nat)
  | movEax (number : Word)
  | int80
  | addEsp (size : Nat)
  | popEbp
  | ret

variable {σ : Type*}

def userPush (view : Word → Word) (v : Word) (s : Machine) : Machine :=
  { s with esp := s.esp - 4, mem := storeVia view s.mem (s.esp - 4) v }

/-- The flags of `add` are left out. -/
def exec (k : Kernel σ) (c : Leftover) (esp0 : Word) (ss0 : BitVec 16) (u : System σ) :
    Instr → Option (System σ)
  | .pushEbp => some { u with machine := userPush (k.view u.state) u.machine.ebp u.machine }
  | .movEbpEsp => some { u with machine := { u.machine with ebp := u.machine.esp } }
  | .pushArgument offset =>
      let argument := loadVia (k.view u.state) u.machine.mem (u.machine.ebp + BitVec.ofNat 32 offset)
      some { u with machine := userPush (k.view u.state) argument u.machine }
  | .movEax number => some { u with machine := { u.machine with eax := number } }
  | .int80 => isr80hWrapper k c esp0 ss0 u
  | .addEsp size => some { u with machine := { u.machine with esp := u.machine.esp + BitVec.ofNat 32 size } }
  | .popEbp =>
      let ebp := loadVia (k.view u.state) u.machine.mem u.machine.esp
      some { u with machine := { u.machine with ebp := ebp, esp := u.machine.esp + 4 } }
  | .ret =>
      let eip := loadVia (k.view u.state) u.machine.mem u.machine.esp
      some { u with machine := { u.machine with eip := eip, esp := u.machine.esp + 4 } }

def execAll (k : Kernel σ) (c : Leftover) (esp0 : Word) (ss0 : BitVec 16) :
    List Instr → System σ → Option (System σ)
  | [], u => some u
  | instr :: code, u =>
      match exec k c esp0 ss0 u instr with
      | none => none
      | some u => execAll k c esp0 ss0 code u

/-- What the functions have in common. -/
def function (call clean : List Instr) : List Instr :=
  [.pushEbp, .movEbpEsp] ++ call ++ [.int80] ++ clean ++ [.popEbp, .ret]

def print : List Instr := function [.pushArgument 8, .movEax 1] [.addEsp 4]
def coniferosGetKey : List Instr := function [.movEax 2] []
def coniferosMalloc : List Instr := function [.movEax 4, .pushArgument 8] [.addEsp 4]
def coniferosFree : List Instr := function [.movEax 5, .pushArgument 8] [.addEsp 4]
def coniferosPutchar : List Instr := function [.movEax 3, .pushArgument 8] [.addEsp 4]
def coniferosExec : List Instr := function [.movEax 6, .pushArgument 8] [.addEsp 4]
def coniferosExecve : List Instr :=
  function [.movEax 6, .pushArgument 8, .pushArgument 12, .pushArgument 16] [.addEsp 12]
def coniferosExit : List Instr := function [.movEax 7] []

inductive Function where
  | print
  | getKey
  | malloc
  | free
  | putchar
  | exec
  | execve
  | exit

def Function.code : Function → List Instr
  | print => SystemCalls.print
  | getKey => coniferosGetKey
  | malloc => coniferosMalloc
  | free => coniferosFree
  | putchar => coniferosPutchar
  | exec => coniferosExec
  | execve => coniferosExecve
  | exit => coniferosExit

/-- How many arguments the prototype in C has. -/
def Function.argc : Function → Nat
  | print => 1
  | getKey => 0
  | malloc => 1
  | free => 1
  | putchar => 1
  | exec => 1
  | execve => 3
  | exit => 0

def Function.call : Function → SystemCall
  | print => .print
  | getKey => .getKeyPress
  | malloc => .malloc
  | free => .free
  | putchar => .putCharOnDisplay
  | exec => .execve
  | execve => .execve
  | exit => .exit

/-! ## The stack of a program -/

/-- Memory as the program sees it. -/
def seen (view : Word → Word) (m : Mem) : Mem := fun x => m (view x)

/-- The part of the stack that a call uses. -/
def Window (low : Word) (n : Nat) (x : Word) : Prop := (x - low).toNat < 4 * n

/-- The stack has `room` free words from `low` on, and then `words`. No byte of it is mapped twice. -/
structure Stack (view : Word → Word) (m : Mem) (low : Word) (room : Nat) (esp : Word) (words : List Word) :
    Prop where
  place : esp = low + BitVec.ofNat 32 (4 * room)
  held : (seen view m).Words esp words
  once : ∀ x y, Window low (room + words.length) x → Window low (room + words.length) y →
    view x = view y → x = y
  small : 4 * (room + words.length) < 2 ^ 31

section Stack

variable {view : Word → Word} {m : Mem} {low esp v : Word} {room : Nat} {words : List Word}

/-- Where nothing is mapped twice, a store changes its own four bytes. -/
theorem seen_storeVia {a x : Word} {n : Nat}
    (once : ∀ x y, Window low n x → Window low n y → view x = view y → x = y)
    (inside : (a - low).toNat + 4 ≤ 4 * n) (near : Window low n x) :
    seen view (storeVia view m a v) x = (seen view m).store32 a v x := by
  have same : ∀ d : Nat, d < 4 → (view x = view (a + BitVec.ofNat 32 d) ↔ x = a + BitVec.ofNat 32 d) := by
    intro d bound
    refine ⟨fun equal => once _ _ near ?_ equal, fun equal => congrArg view equal⟩
    rw [Window]
    bv_omega
  have s0 : view x = view a ↔ x = a := by simpa using same 0 (by decide)
  have s1 : view x = view (a + 1) ↔ x = a + 1 := same 1 (by decide)
  have s2 : view x = view (a + 2) ↔ x = a + 2 := same 2 (by decide)
  have s3 : view x = view (a + 3) ↔ x = a + 3 := same 3 (by decide)
  simp only [seen, storeVia, Mem.store8, Mem.store32, s0, s1, s2, s3]
  by_cases close : (x - a).toNat < 4
  · obtain rfl | rfl | rfl | rfl : x = a ∨ x = a + 1 ∨ x = a + 2 ∨ x = a + 3 := by bv_omega
    all_goals simp
  · rw [if_neg close, if_neg (by bv_omega), if_neg (by bv_omega), if_neg (by bv_omega),
      if_neg (by bv_omega)]

theorem Stack.push (stack : Stack view m low (room + 1) esp words) (v : Word) :
    Stack view (storeVia view m (esp - 4) v) low room (esp - 4) (v :: words) where
  place := by
    have place := stack.place
    bv_omega
  held := by
    have place := stack.place
    have small := stack.small
    have held := stack.held.push (v := v) (by omega)
    refine held.congr (by rw [List.length_cons]; omega) fun x near => ?_
    rw [List.length_cons] at near
    refine seen_storeVia stack.once ?_ ?_
    · bv_omega
    · rw [Window]
      bv_omega
  once := by
    have once := stack.once
    rw [List.length_cons]
    rwa [show room + 1 + words.length = room + (words.length + 1) by omega] at once
  small := by
    have small := stack.small
    rw [List.length_cons]
    omega

theorem Stack.pop (stack : Stack view m low room esp (v :: words)) :
    Stack view m low (room + 1) (esp + 4) words where
  place := by
    have place := stack.place
    bv_omega
  held := stack.held.2
  once := by
    have once := stack.once
    rwa [List.length_cons, show room + (words.length + 1) = room + 1 + words.length by omega] at once
  small := by
    have small := stack.small
    rw [List.length_cons] at small
    omega

theorem Stack.get (stack : Stack view m low room esp words) {i : Nat} (found : words[i]? = some v) :
    loadVia view m (esp + BitVec.ofNat 32 (4 * i)) = v :=
  stack.held.get found

theorem Stack.congr (m' : Mem) (stack : Stack view m low room esp words)
    (same : ∀ x, Window low (room + words.length) x → m' (view x) = m (view x)) :
    Stack view m' low room esp words where
  place := stack.place
  held := by
    have place := stack.place
    have small := stack.small
    refine stack.held.congr (by omega) fun x near => same x ?_
    rw [Window]
    bv_omega
  once := stack.once
  small := stack.small

theorem storeVia_apply {a y : Word} (other : ∀ d < 4, view (a + BitVec.ofNat 32 d) ≠ y) :
    storeVia view m a v y = m y := by
  have o0 : ¬ y = view a := by simpa using (other 0 (by decide)).symm
  have o1 : ¬ y = view (a + 1) := (other 1 (by decide)).symm
  have o2 : ¬ y = view (a + 2) := (other 2 (by decide)).symm
  have o3 : ¬ y = view (a + 3) := (other 3 (by decide)).symm
  simp only [storeVia, Mem.store8, o0, o1, o2, o3, if_false]

/-- A push stays in the window. -/
theorem Stack.push_apply (stack : Stack view m low (room + 1) esp words) {y : Word}
    (other : ∀ x, Window low (room + 1 + words.length) x → view x ≠ y) :
    storeVia view m (esp - 4) v y = m y := by
  refine storeVia_apply fun d bound => other _ ?_
  have place := stack.place
  have small := stack.small
  rw [Window]
  bv_omega

end Stack

/-! ## Up to the trap -/

/-- The function has pushed `copies`, and keeps the other registers of its caller. -/
structure Calling (k : Kernel σ) (low back : Word) (args : List Word) (u : System σ) (room : Nat)
    (copies : List Word) (s : System σ) : Prop where
  state : s.state = u.state
  acknowledged : s.acknowledged = u.acknowledged
  stack : Stack (k.view u.state) s.machine.mem low room s.machine.esp
    (copies ++ u.machine.ebp :: back :: args)
  ebp : s.machine.ebp = s.machine.esp + BitVec.ofNat 32 (4 * copies.length)
  top : u.machine.esp = s.machine.ebp + 4
  ebx : s.machine.ebx = u.machine.ebx
  esi : s.machine.esi = u.machine.esi
  edi : s.machine.edi = u.machine.edi
  ecx : s.machine.ecx = u.machine.ecx
  edx : s.machine.edx = u.machine.edx
  memory : ∀ y, (∀ x, Window low (room + (copies ++ u.machine.ebp :: back :: args).length) x →
    k.view u.state x ≠ y) → s.machine.mem y = u.machine.mem y

section Calling

variable {k : Kernel σ} {c : Leftover} {esp0 : Word} {ss0 : BitVec 16} {low back : Word} {args : List Word}
  {u s : System σ} {room : Nat} {copies : List Word}

theorem execAll_append (first second : List Instr) (u : System σ) :
    execAll k c esp0 ss0 (first ++ second) u =
      (execAll k c esp0 ss0 first u).bind (execAll k c esp0 ss0 second) := by
  induction first generalizing u with
  | nil => rfl
  | cons instr first ih =>
      rw [List.cons_append, execAll, execAll]
      cases exec k c esp0 ss0 u instr with
      | none => rfl
      | some next => exact ih next

variable (c esp0 ss0) in
theorem calling_start
    (stack : Stack (k.view u.state) u.machine.mem low (room + 1) u.machine.esp (back :: args)) :
    ∃ s, execAll k c esp0 ss0 [.pushEbp, .movEbpEsp] u = some s ∧ Calling k low back args u room [] s := by
  refine ⟨_, rfl, rfl, rfl, stack.push u.machine.ebp, ?_, ?_, rfl, rfl, rfl, rfl, rfl, fun y other => ?_⟩
  · simp [userPush]
  · simp [userPush]
  · refine stack.push_apply fun x inside => other x ?_
    simpa [Nat.add_assoc, Nat.add_comm 1] using inside

theorem Calling.movEax (calling : Calling k low back args u room copies s) (number : Word) :
    Calling k low back args u room copies { s with machine := { s.machine with eax := number } } :=
  ⟨calling.state, calling.acknowledged, calling.stack, calling.ebp, calling.top, calling.ebx, calling.esi,
    calling.edi, calling.ecx, calling.edx, calling.memory⟩

variable (c esp0 ss0) in
/-- The argument is where the caller left it. -/
theorem Calling.pushArgument (calling : Calling k low back args u (room + 1) copies s) {i : Nat}
    {arg : Word} (found : args[i]? = some arg) :
    ∃ s', exec k c esp0 ss0 s (.pushArgument (8 + 4 * i)) = some s' ∧
      s'.machine.eax = s.machine.eax ∧ Calling k low back args u room (arg :: copies) s' := by
  have argument : loadVia (k.view s.state) s.machine.mem
      (s.machine.ebp + BitVec.ofNat 32 (8 + 4 * i)) = arg := by
    have word := calling.stack.get (i := copies.length + (2 + i)) (v := arg) (by
      rw [List.getElem?_append_right (by omega)]
      simpa [Nat.add_comm 2] using found)
    have address : s.machine.ebp + BitVec.ofNat 32 (8 + 4 * i) =
        s.machine.esp + BitVec.ofNat 32 (4 * (copies.length + (2 + i))) := by
      rw [calling.ebp]
      bv_omega
    rw [calling.state, address]
    exact word
  refine ⟨_, rfl, rfl, calling.state, calling.acknowledged, ?_, ?_, calling.top, calling.ebx, calling.esi,
    calling.edi, calling.ecx, calling.edx, fun y other => ?_⟩
  · rw [argument, calling.state]
    exact calling.stack.push arg
  · have ebp := calling.ebp
    simp only [userPush, List.length_cons]
    bv_omega
  · rw [argument, calling.state]
    have before := calling.memory y
    simp only [List.cons_append, List.length_cons] at other before
    refine (calling.stack.push_apply fun x inside => other x ?_).trans (before fun x inside => other x ?_)
    · simpa [Nat.add_assoc, Nat.add_comm 1] using inside
    · simpa [Nat.add_assoc, Nat.add_comm 1] using inside

/-- The instructions that copy `n` arguments, from the `i`th on. -/
def pushArguments (n i : Nat) : List Instr := (List.range' i n).map fun i => .pushArgument (8 + 4 * i)

variable (c esp0 ss0) in
theorem Calling.pushArguments {n i : Nat} (inside : i + n ≤ args.length)
    (calling : Calling k low back args u (room + n) (args.take i).reverse s) :
    ∃ s', execAll k c esp0 ss0 (pushArguments n i) s = some s' ∧ s'.machine.eax = s.machine.eax ∧
      Calling k low back args u room (args.take (i + n)).reverse s' := by
  induction n generalizing i s with
  | zero => exact ⟨s, rfl, rfl, calling⟩
  | succ n ih =>
      have bound : i < args.length := by omega
      have calling : Calling k low back args u (room + n + 1) (args.take i).reverse s := calling
      obtain ⟨next, one, eax, pushed⟩ :=
        calling.pushArgument c esp0 ss0 (List.getElem?_eq_getElem bound)
      have grown : args[i] :: (args.take i).reverse = (args.take (i + 1)).reverse := by
        rw [List.take_succ_eq_append_getElem bound, List.reverse_append]
        rfl
      rw [grown] at pushed
      obtain ⟨last, rest, same, done⟩ := ih (by omega) pushed
      refine ⟨last, ?_, same.trans eax, by rwa [show i + (n + 1) = i + 1 + n by omega]⟩
      rw [SystemCalls.pushArguments, List.range'_succ, List.map_cons, execAll, one]
      exact rest

/-! ## Through the kernel -/

/-- The number of a function, and whether it is set before the arguments are pushed. -/
def Function.number : Function → Word
  | print => 1
  | getKey => 2
  | malloc => 4
  | free => 5
  | putchar => 3
  | exec => 6
  | execve => 6
  | exit => 7

theorem Function.number_id (f : Function) : f.number.toInt = f.call.id := by
  cases f <;> rfl

/-- What follows the trap. -/
def Function.after (f : Function) : List Instr :=
  (if f.argc = 0 then [] else [.addEsp (4 * f.argc)]) ++ [.popEbp, .ret]

/-- The number is set first, but by `print`. -/
theorem Function.code_eq (f : Function) :
    ∃ before, f.code = [.pushEbp, .movEbpEsp] ++ (before ++ .int80 :: f.after) ∧
      (before = .movEax f.number :: SystemCalls.pushArguments f.argc 0 ∨
        before = SystemCalls.pushArguments f.argc 0 ++ [.movEax f.number]) := by
  cases f with
  | print => exact ⟨_, rfl, .inr rfl⟩
  | getKey | malloc | free | putchar | exec | execve | exit => exact ⟨_, rfl, .inl rfl⟩

variable (c esp0 ss0) in
/-- The arguments and the number are in place when the function traps. -/
theorem Function.before_trap (f : Function) (count : args.length = f.argc)
    (stack : Stack (k.view u.state) u.machine.mem low (f.argc + 1) u.machine.esp (back :: args)) :
    ∃ s, execAll k c esp0 ss0 f.code u = execAll k c esp0 ss0 (.int80 :: f.after) s ∧
      s.machine.eax = f.number ∧ Calling k low back args u 0 args.reverse s := by
  obtain ⟨before, code, order⟩ := f.code_eq
  obtain ⟨p, prologue, start⟩ := calling_start c esp0 ss0 stack
  have whole : (args.take (0 + f.argc)).reverse = args.reverse := by
    rw [Nat.zero_add, ← count, List.take_length]
  have inside : 0 + f.argc ≤ args.length := by omega
  rw [← Nat.zero_add f.argc] at start
  have pushed : ∃ s, execAll k c esp0 ss0 before p = some s ∧ s.machine.eax = f.number ∧
      Calling k low back args u 0 args.reverse s := by
    rw [← whole]
    rcases order with rfl | rfl
    · exact (start.movEax f.number).pushArguments c esp0 ss0 inside
    · obtain ⟨s, run, -, done⟩ := start.pushArguments c esp0 ss0 inside
      refine ⟨_, ?_, rfl, done.movEax f.number⟩
      rw [execAll_append, run]
      rfl
  obtain ⟨s, run, eax, calling⟩ := pushed
  refine ⟨s, ?_, eax, calling⟩
  rw [code, execAll_append, prologue, Option.bind_some, execAll_append, run, Option.bind_some]

theorem stackItems_eq {view : Word → Word} {m : Mem} {esp task : Word} {words : List Word} {n : Nat}
    (held : (seen view m).Words esp words) (enough : n ≤ words.length)
    (saved : m.load32 (taskRegisters task + Field.esp.inRegisters) = esp) :
    ((List.range n).mapM fun i : Nat => taskGetStackItem view task m i) = some (words.take n) := by
  have item : (fun i : Nat => taskGetStackItem view task m i) =
      fun i => pure (loadVia view m (esp + BitVec.ofNat 32 (4 * i))) := by
    funext i
    rw [taskGetStackItem, if_neg (by omega), saved, Int.toNat_natCast]
    rfl
  rw [item, List.mapM_pure]
  refine congrArg some (List.ext_getElem (by simp [enough]) fun i lower upper => ?_)
  rw [List.length_map, List.length_range] at lower
  have word := held.get (List.getElem?_eq_getElem (lower.trans_le enough))
  rw [List.getElem_map, List.getElem_range, List.getElem_take]
  exact word

/-- A function of C has returned. -/
structure Returned (u : Machine) (back result : Word) (r : Machine) : Prop where
  eip : r.eip = back
  esp : r.esp = u.esp + 4
  eax : r.eax = result
  ebp : r.ebp = u.ebp
  ebx : r.ebx = u.ebx
  esi : r.esi = u.esi
  edi : r.edi = u.edi
  ecx : r.ecx = u.ecx
  edx : r.edx = u.edx

variable (c esp0 ss0) in
/-- From the copies of the arguments back to the caller. -/
theorem Function.after_trap (f : Function) (count : args.length = f.argc) {r : System σ} {result : Word}
    (calling : Calling k low back args u 0 args.reverse s)
    (restored : Restored { s.machine with eax := result } r.machine)
    (held : (seen (k.view r.state) r.machine.mem).Words r.machine.esp
      (args.reverse ++ u.machine.ebp :: back :: args)) :
    ∃ t, execAll k c esp0 ss0 f.after r = some t ∧ Returned u.machine back result t.machine ∧
      t.state = r.state ∧ t.acknowledged = r.acknowledged ∧ t.machine.mem = r.machine.mem := by
  have clean : ∃ t, execAll k c esp0 ss0 (if f.argc = 0 then [] else [.addEsp (4 * f.argc)]) r = some t ∧
      t = { r with machine := { r.machine with esp := s.machine.ebp } } := by
    have esp : r.machine.esp + BitVec.ofNat 32 (4 * f.argc) = s.machine.ebp := by
      rw [calling.ebp, List.length_reverse, count, restored.esp]
    refine ⟨_, ?_, rfl⟩
    split
    case isTrue none =>
      rw [none, Nat.mul_zero, BitVec.add_zero] at esp
      rw [execAll, ← esp]
    case isFalse =>
      simp only [execAll, SystemCalls.exec, esp]
  obtain ⟨t, cleaned, rfl⟩ := clean
  have words := held.drop
  rw [restored.esp, ← calling.ebp] at words
  obtain ⟨ebp, eip, -⟩ := words
  rw [Function.after, execAll_append, cleaned, Option.bind_some]
  refine ⟨_, rfl, ⟨eip, ?_, restored.eax, ebp, restored.ebx.trans calling.ebx,
    restored.esi.trans calling.esi, restored.edi.trans calling.edi, restored.ecx.trans calling.ecx,
    restored.edx.trans calling.edx⟩, rfl, rfl, rfl⟩
  simp only [calling.top]

/-- The command gets what is on the stack: the arguments, the last one first. -/
theorem isr80hHandleCommand_items {m : Mem} {esp : Word} {words : List Word} (f : Function)
    (registered : isr80hRegisterCommands (fun _ => none) = some k.commands)
    (held : (seen (k.view u.state) m).Words esp words) (enough : f.call.items ≤ words.length)
    (saved : m.load32 (taskRegisters k.task + Field.esp.inRegisters) = esp) :
    k.isr80hHandleCommand f.number.toInt m u.state =
      k.body f.call (words.take f.call.items) m u.state := by
  obtain ⟨commands, all, dispatched⟩ := isr80hRegisterCommands_some
  rw [registered, Option.some_inj] at all
  rw [Kernel.isr80hHandleCommand, f.number_id, all, (dispatched _ _).mpr rfl]
  simp only [stackItems_eq held enough saved]

end Calling

/-- The stack of a program that has just called `coniferos_execve`. -/
def execveCalled : Mem :=
  ((((0 : Mem).store32 0x3FF00C 3).store32 0x3FF008 0x400900).store32 0x3FF004 0x400800).store32
    0x3FF000 0x400123

theorem execveCalled_stack :
    Stack id execveCalled 0x3FEFF0 4 0x3FF000 [0x400123, 0x400800, 0x400900, 3] where
  place := rfl
  held := ⟨by decide, by decide, by decide, by decide, trivial⟩
  once _ _ _ _ same := same
  small := by decide

end ConiferOS.User.SystemCalls
