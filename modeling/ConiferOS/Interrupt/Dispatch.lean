import ConiferOS.Config
import ConiferOS.Lib.ByteMemory

/-! # Gates, handlers and commands

`idt.c` fills three tables: the gates of the processor, the handlers of the generic stubs, and
the commands behind `int 0x80`. A handler is registered for every exception, but the gate of
vector 0 does not lead to a stub.
-/

namespace ConiferOS.Interrupt

def coniferosTotalInterrupts : Nat := 512
def kernelCodeSelector : BitVec 16 := 0x08
def maxIsr80hCommands : Nat := 1024

/-! ## Gates -/

def sizeofIdtEntry : Nat := 8

def store16 (bytes : Nat → Byte) (a : Nat) (v : BitVec 16) : Nat → Byte :=
  Function.update (Function.update bytes a (v.extractLsb' 0 8)) (a + 1) (v.extractLsb' 8 8)

/-- `idt` is the bytes of the array, which is packed. -/
def idtSet (i : Nat) (handler : Word) (idt : Nat → Byte) : Nat → Byte :=
  let entry := sizeofIdtEntry * i
  let idt := store16 idt entry ((handler &&& 0x0000ffff).setWidth 16)
  let idt := store16 idt (entry + 2) kernelCodeSelector
  let idt := Function.update idt (entry + 4) 0x00
  let idt := Function.update idt (entry + 5) 0xEE
  store16 idt (entry + 6) ((handler >>> 16).setWidth 16)

/-- `for (int i = 0; i < CONIFEROS_TOTAL_INTERRUPTS; i++)` -/
def idtSetAll (interruptPointerTable : Nat → Word) : (remaining i : Nat) → (Nat → Byte) → Nat → Byte
  | 0, _, idt => idt
  | remaining + 1, i, idt =>
      idtSetAll interruptPointerTable remaining (i + 1) (idtSet i (interruptPointerTable i) idt)

variable {α : Type*}

/-- `interrupt_handlers`, where `none` is `NULL`. -/
def idtRegisterInterruptHandler (interrupt : Int) (handler : Option α) (handlers : Nat → Option α) :
    Int × (Nat → Option α) :=
  if interrupt < 0 ∨ coniferosTotalInterrupts ≤ interrupt then (-einvarg, handlers)
  else (0, Function.update handlers interrupt.toNat handler)

/-- `for (int i = 0; i < 0x20; i++)` -/
def registerHandlerForExceptions (exception : α) : (remaining i : Nat) → (Nat → Option α) → Nat → Option α
  | 0, _, handlers => handlers
  | remaining + 1, i, handlers =>
      registerHandlerForExceptions exception remaining (i + 1)
        (idtRegisterInterruptHandler i (some exception) handlers).2

/-- The two tables; `exception` is `idt_handle_user_process_exception`. -/
def idtInit (interruptPointerTable : Nat → Word) (idtZero isr80hWrapper : Word) (exception : α)
    (handlers : Nat → Option α) : (Nat → Byte) × (Nat → Option α) :=
  let idt := fun _ => 0
  let idt := idtSetAll interruptPointerTable coniferosTotalInterrupts 0 idt
  let idt := idtSet 0 idtZero idt
  let idt := idtSet 0x80 isr80hWrapper idt
  (idt, registerHandlerForExceptions exception 0x20 0 handlers)

/-- A descriptor as the processor reads it. -/
structure Gate where
  offset : Word
  selector : BitVec 16
  type : BitVec 4
  storage : Bool
  dpl : BitVec 2
  present : Bool
  deriving DecidableEq

def Gate.decode (idt : Nat → Byte) (vector : Nat) : Gate :=
  let entry := sizeofIdtEntry * vector
  { offset := idt (entry + 7) ++ idt (entry + 6) ++ idt (entry + 1) ++ idt entry
    selector := idt (entry + 3) ++ idt (entry + 2)
    type := (idt (entry + 5)).extractLsb' 0 4
    storage := (idt (entry + 5)).getLsbD 4
    dpl := (idt (entry + 5)).extractLsb' 5 2
    present := (idt (entry + 5)).getLsbD 7 }

/-- A 32-bit interrupt gate into the kernel's code that user mode may use. -/
def Gate.to (handler : Word) : Gate := ⟨handler, kernelCodeSelector, 0xE, false, 3, true⟩

theorem low_half (handler : Word) : (handler &&& 0x0000ffff).setWidth 16 = handler.extractLsb' 0 16 := by
  apply BitVec.eq_of_toNat_eq
  rw [BitVec.toNat_setWidth, BitVec.toNat_and, BitVec.extractLsb'_toNat,
    show (0x0000ffff : Word).toNat = 2 ^ 16 - 1 from rfl, Nat.and_two_pow_sub_one_eq_mod]
  simp

theorem high_half (handler : Word) : (handler >>> 16).setWidth 16 = handler.extractLsb' 16 16 := by
  apply BitVec.eq_of_toNat_eq
  simp [Nat.shiftRight_eq_div_pow]

theorem handler_bytes (handler : Word) :
    (handler.extractLsb' 16 16).extractLsb' 8 8 ++ (handler.extractLsb' 16 16).extractLsb' 0 8 ++
        (handler.extractLsb' 0 16).extractLsb' 8 8 ++ (handler.extractLsb' 0 16).extractLsb' 0 8 =
      handler := by
  have byteOf : ∀ start k, k + 8 ≤ 16 →
      (handler.extractLsb' start 16).extractLsb' k 8 = handler.extractLsb' (start + k) 8 := by
    intro start k inside
    ext i small
    simp [show k + i < 16 by omega, Nat.add_assoc]
  rw [byteOf _ _ le_rfl, byteOf _ _ le_rfl, byteOf _ 0 (by decide), byteOf _ 0 (by decide)]
  exact Lib.Mem.bytes_append handler

theorem decode_idtSet_self (i : Nat) (handler : Word) (idt : Nat → Byte) :
    Gate.decode (idtSet i handler idt) i = Gate.to handler := by
  have bytes := handler_bytes handler
  simp only [Gate.decode, idtSet, store16, low_half, high_half]
  simp (disch := omega) only [Function.update_self, Function.update_of_ne]
  rw [bytes]
  rfl

theorem decode_idtSet_other {i v : Nat} (other : v ≠ i) (handler : Word) (idt : Nat → Byte) :
    Gate.decode (idtSet i handler idt) v = Gate.decode idt v := by
  have bytes : ∀ k < 8, idtSet i handler idt (sizeofIdtEntry * v + k) = idt (sizeofIdtEntry * v + k) := by
    intro k inside
    simp (disch := simp only [sizeofIdtEntry]; omega) only [idtSet, store16, Function.update_of_ne]
  have first := bytes 0 (by decide)
  rw [Nat.add_zero] at first
  simp only [Gate.decode]
  rw [first, bytes 1 (by decide), bytes 2 (by decide), bytes 3 (by decide), bytes 5 (by decide),
    bytes 6 (by decide), bytes 7 (by decide)]

/-- The gates from `i` on, one after the other. -/
theorem decode_idtSetAll (interruptPointerTable : Nat → Word) (remaining i : Nat) (idt : Nat → Byte)
    (v : Nat) :
    Gate.decode (idtSetAll interruptPointerTable remaining i idt) v =
      if i ≤ v ∧ v < i + remaining then Gate.to (interruptPointerTable v) else Gate.decode idt v := by
  induction remaining generalizing i idt with
  | zero => rw [idtSetAll, if_neg (by omega)]
  | succ remaining ih =>
      rw [idtSetAll, ih]
      by_cases here : v = i
      · subst here
        rw [if_neg (by omega), decode_idtSet_self, if_pos (by omega)]
      · rw [decode_idtSet_other here]
        exact if_congr (by omega) rfl rfl

theorem registerHandlerForExceptions_eq (exception : α) {remaining i : Nat}
    (inside : i + remaining ≤ coniferosTotalInterrupts) (handlers : Nat → Option α) (v : Nat) :
    registerHandlerForExceptions exception remaining i handlers v =
      if i ≤ v ∧ v < i + remaining then some exception else handlers v := by
  induction remaining generalizing i handlers with
  | zero => rw [registerHandlerForExceptions, if_neg (by omega)]
  | succ remaining ih =>
      have valid : ¬ ((i : Int) < 0 ∨ (coniferosTotalInterrupts : Int) ≤ i) := by omega
      rw [registerHandlerForExceptions, ih (by omega), idtRegisterInterruptHandler, if_neg valid]
      simp only [Int.toNat_natCast]
      by_cases here : v = i
      · subst here
        rw [Function.update_self, if_neg (by omega), if_pos (by omega)]
      · rw [Function.update_of_ne here]
        exact if_congr (by omega) rfl rfl

/-- Where an interrupt enters the kernel. -/
def entry (interruptPointerTable : Nat → Word) (idtZero isr80hWrapper : Word) (vector : Nat) : Word :=
  if vector = 0 then idtZero else if vector = 0x80 then isr80hWrapper else interruptPointerTable vector

/-- Every vector has a gate that user mode may use. All of them but two lead to the stub of the
    vector, and the stubs of the other exceptions find a handler. -/
theorem idtInit_routes (interruptPointerTable : Nat → Word) (idtZero isr80hWrapper : Word) (exception : α)
    (handlers : Nat → Option α) :
    let tables := idtInit interruptPointerTable idtZero isr80hWrapper exception handlers
    (∀ v < coniferosTotalInterrupts,
      Gate.decode tables.1 v = Gate.to (entry interruptPointerTable idtZero isr80hWrapper v)) ∧
    ∀ v, tables.2 v = if v < 0x20 then some exception else handlers v := by
  refine ⟨fun v inside => ?_, fun v => ?_⟩
  · simp only [idtInit]
    rw [entry]
    by_cases call : v = 0x80
    · rw [call, decode_idtSet_self, if_neg (by decide), if_pos rfl]
    rw [decode_idtSet_other call]
    by_cases zero : v = 0
    · rw [zero, decode_idtSet_self, if_pos rfl]
    · rw [decode_idtSet_other zero, decode_idtSetAll, if_pos (by omega), if_neg zero, if_neg call]
  · simp only [idtInit, registerHandlerForExceptions_eq exception (by decide : 0 + 0x20 ≤ coniferosTotalInterrupts)]
    exact if_congr (by omega) rfl rfl

/-! ## Commands -/

/-- `isr80h_commands`, where `none` is `NULL`; the result is `none` for a panic. -/
def isr80hRegisterCommand (commandId : Int) (command : Option α) (commands : Nat → Option α) :
    Option (Nat → Option α) :=
  if commandId < 0 ∨ maxIsr80hCommands ≤ commandId then none
  else if (commands commandId.toNat).isSome then none
  else some (Function.update commands commandId.toNat command)

/-- The command that is called; without one the result is `NULL`. -/
def isr80hHandleCommand (commands : Nat → Option α) (commandId : Int) : Option α :=
  if commandId < 0 ∨ maxIsr80hCommands ≤ commandId then none else commands commandId.toNat

def registerAll : List (Int × α) → (Nat → Option α) → Option (Nat → Option α)
  | [], commands => some commands
  | (id, command) :: calls, commands =>
      match isr80hRegisterCommand id (some command) commands with
      | none => none
      | some commands => registerAll calls commands

/-- `enum SystemCalls` -/
inductive SystemCall where
  | sum
  | print
  | getKeyPress
  | putCharOnDisplay
  | malloc
  | free
  | execve
  | exit
  deriving DecidableEq

def SystemCall.id : SystemCall → Int
  | sum => 0
  | print => 1
  | getKeyPress => 2
  | putCharOnDisplay => 3
  | malloc => 4
  | free => 5
  | execve => 6
  | exit => 7

open SystemCall in
def systemCalls : List (Int × SystemCall) :=
  [sum, print, getKeyPress, putCharOnDisplay, malloc, free, execve, exit].map fun call => (call.id, call)

def isr80hRegisterCommands (commands : Nat → Option SystemCall) : Option (Nat → Option SystemCall) :=
  registerAll systemCalls commands

/-- The numbers are in the table, free, and all different. -/
structure Registrable (calls : List (Int × α)) (commands : Nat → Option α) : Prop where
  inside : ∀ call ∈ calls, 0 ≤ call.1 ∧ call.1 < maxIsr80hCommands
  vacant : ∀ call ∈ calls, commands call.1.toNat = none
  distinct : (calls.map Prod.fst).Nodup

section Registration

variable {commands after : Nat → Option α} {id : Int} {command : α} {calls : List (Int × α)}

theorem isr80hRegisterCommand_some (inside : 0 ≤ id ∧ id < maxIsr80hCommands)
    (vacant : commands id.toNat = none) :
    isr80hRegisterCommand id (some command) commands =
      some (Function.update commands id.toNat (some command)) := by
  have valid : ¬ (id < 0 ∨ (maxIsr80hCommands : Int) ≤ id) := by omega
  rw [isr80hRegisterCommand, if_neg valid, vacant]
  rfl

theorem isr80hRegisterCommand_ne_none
    (accepted : isr80hRegisterCommand id (some command) commands ≠ none) :
    (0 ≤ id ∧ id < maxIsr80hCommands) ∧ commands id.toNat = none := by
  rw [isr80hRegisterCommand] at accepted
  split at accepted
  · exact absurd rfl accepted
  · split at accepted
    · exact absurd rfl accepted
    · rename_i valid vacant
      exact ⟨by omega, by simpa using vacant⟩

/-- The first call takes its number away from the others. -/
theorem registrable_cons_iff (inside : 0 ≤ id ∧ id < maxIsr80hCommands)
    (vacant : commands id.toNat = none) :
    Registrable ((id, command) :: calls) commands ↔
      Registrable calls (Function.update commands id.toNat (some command)) := by
  have apart : ∀ call : Int × α, 0 ≤ call.1 →
      (Function.update commands id.toNat (some command) call.1.toNat = none ↔
        call.1 ≠ id ∧ commands call.1.toNat = none) := by
    intro call positive
    by_cases same : call.1 = id
    · simp [same]
    · have other : call.1.toNat ≠ id.toNat := by omega
      simp [same, Function.update_of_ne other]
  constructor
  · rintro ⟨insides, vacants, distinct⟩
    obtain ⟨fresh, distinct⟩ := List.nodup_cons.mp distinct
    obtain ⟨-, insides⟩ := List.forall_mem_cons.mp insides
    obtain ⟨-, vacants⟩ := List.forall_mem_cons.mp vacants
    refine ⟨insides, fun call member => (apart call (insides call member).1).mpr ⟨?_, vacants call member⟩,
      distinct⟩
    rintro rfl
    exact fresh (List.mem_map.mpr ⟨call, member, rfl⟩)
  · rintro ⟨insides, vacants, distinct⟩
    have later := fun call member => (apart call (insides call member).1).mp (vacants call member)
    refine ⟨List.forall_mem_cons.mpr ⟨inside, insides⟩,
      List.forall_mem_cons.mpr ⟨vacant, fun call member => (later call member).2⟩,
      List.nodup_cons.mpr ⟨fun member => ?_, distinct⟩⟩
    obtain ⟨call, member, same⟩ := List.mem_map.mp member
    exact (later call member).1 same

/-- What is in the table after the calls. -/
def registered (calls : List (Int × α)) (commands : Nat → Option α) : Nat → Option α :=
  calls.foldl (fun commands call => Function.update commands call.1.toNat (some call.2)) commands

theorem registerAll_eq (calls : List (Int × α)) (commands : Nat → Option α) :
    (Registrable calls commands → registerAll calls commands = some (registered calls commands)) ∧
      (¬ Registrable calls commands → registerAll calls commands = none) := by
  induction calls generalizing commands with
  | nil => exact ⟨fun _ => rfl, fun not => absurd ⟨by simp, by simp, List.nodup_nil⟩ not⟩
  | cons call calls ih =>
      obtain ⟨id, command⟩ := call
      by_cases first : (0 ≤ id ∧ id < maxIsr80hCommands) ∧ commands id.toNat = none
      · obtain ⟨inside, vacant⟩ := first
        rw [registerAll, isr80hRegisterCommand_some inside vacant, registrable_cons_iff inside vacant]
        exact ih _
      · have panics : isr80hRegisterCommand id (some command) commands = none := by
          by_contra accepted
          exact first (isr80hRegisterCommand_ne_none accepted)
        rw [registerAll, panics]
        refine ⟨fun all => absurd ?_ first, fun _ => rfl⟩
        exact ⟨all.inside _ List.mem_cons_self, all.vacant _ List.mem_cons_self⟩

theorem registered_of_notMem (n : Nat) (other : ∀ call ∈ calls, call.1.toNat ≠ n) :
    registered calls commands n = commands n := by
  induction calls generalizing commands with
  | nil => rfl
  | cons call calls ih =>
      obtain ⟨here, later⟩ := List.forall_mem_cons.mp other
      rw [registered, List.foldl_cons, ← registered, ih later, Function.update_of_ne (Ne.symm here)]

theorem registered_of_mem (all : Registrable calls commands) (member : (id, command) ∈ calls) :
    registered calls commands id.toNat = some command := by
  induction calls generalizing commands with
  | nil => simp at member
  | cons call calls ih =>
      obtain ⟨first, command'⟩ := call
      have inside := all.inside _ List.mem_cons_self
      have vacant := all.vacant _ List.mem_cons_self
      have rest := (registrable_cons_iff inside vacant).mp all
      rw [registered, List.foldl_cons, ← registered]
      rcases List.mem_cons.mp member with same | later
      · obtain ⟨rfl, rfl⟩ := Prod.mk.inj same
        have fresh := (List.nodup_cons.mp all.distinct).1
        rw [registered_of_notMem, Function.update_self]
        intro call found equal
        have positive := rest.inside call found
        exact fresh (List.mem_map.mpr ⟨call, found, by omega⟩)
      · exact ih rest later

theorem isr80hHandleCommand_of_mem (all : Registrable calls commands) (member : (id, command) ∈ calls) :
    isr80hHandleCommand (registered calls commands) id = some command := by
  have inside := all.inside _ member
  have valid : ¬ (id < 0 ∨ (maxIsr80hCommands : Int) ≤ id) := by omega
  rw [isr80hHandleCommand, if_neg valid, registered_of_mem all member]

theorem isr80hHandleCommand_of_notMem (all : Registrable calls commands) (other : id ∉ calls.map Prod.fst) :
    isr80hHandleCommand (registered calls commands) id = isr80hHandleCommand commands id := by
  rw [isr80hHandleCommand, isr80hHandleCommand]
  split
  case isTrue => rfl
  case isFalse valid =>
    refine registered_of_notMem _ fun call member same => other ?_
    have positive := (all.inside call member).1
    exact List.mem_map.mpr ⟨call, member, by omega⟩

end Registration

/-- Registering panics exactly for a number that is outside of the table or taken. Afterwards a
    number leads to its command, and all other numbers lead where they led before. -/
theorem commands_dispatched (calls : List (Int × α)) (commands : Nat → Option α) :
    (registerAll calls commands = none ↔ ¬ Registrable calls commands) ∧
      ∀ after, registerAll calls commands = some after →
        (∀ id command, (id, command) ∈ calls → isr80hHandleCommand after id = some command) ∧
        ∀ id, id ∉ calls.map Prod.fst → isr80hHandleCommand after id = isr80hHandleCommand commands id := by
  obtain ⟨good, bad⟩ := registerAll_eq calls commands
  refine ⟨⟨fun panics all => ?_, bad⟩, fun after run => ?_⟩
  · rw [good all] at panics
    cases panics
  have all : Registrable calls commands := by
    by_contra not
    rw [bad not] at run
    cases run
  rw [good all, Option.some_inj] at run
  subst run
  exact ⟨fun id command => isr80hHandleCommand_of_mem all, fun id => isr80hHandleCommand_of_notMem all⟩

/-- The eight numbers, and no others. -/
theorem isr80hRegisterCommands_some :
    ∃ commands, isr80hRegisterCommands (fun _ => none) = some commands ∧
      ∀ id call, isr80hHandleCommand commands id = some call ↔ id = call.id := by
  have all : Registrable systemCalls (fun _ => none) :=
    ⟨by decide, fun _ _ => rfl, by decide⟩
  have member : ∀ call : SystemCall, (call.id, call) ∈ systemCalls := by
    intro call
    cases call <;> decide
  refine ⟨_, (registerAll_eq systemCalls _).1 all, fun id call => ⟨fun called => ?_, ?_⟩⟩
  · by_cases known : id ∈ systemCalls.map Prod.fst
    · obtain ⟨⟨id', call'⟩, found, rfl⟩ := List.mem_map.mp known
      rw [isr80hHandleCommand_of_mem all found, Option.some_inj] at called
      subst called
      obtain ⟨other, -, same⟩ := List.mem_map.mp found
      obtain ⟨rfl, rfl⟩ := Prod.mk.inj same
      rfl
    · rw [isr80hHandleCommand_of_notMem all known, isr80hHandleCommand, ite_self] at called
      cases called
  · rintro rfl
    exact isr80hHandleCommand_of_mem all (member call)

end ConiferOS.Interrupt
