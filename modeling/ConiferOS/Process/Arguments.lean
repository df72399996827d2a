import ConiferOS.Process.Execve
import ConiferOS.Process.Mapping

/-! # Passing arguments to a new process

From the array of argument strings in the kernel to the `main` of the new process: the
argument block with its pointers and slots, the stack that `start.asm` takes `argc` and
`argv` from, and the child's page tables through which it reads them. A slot has
`MAX_CMMD_ARG_LEN` bytes and no room for the zero behind a string of that length.
-/

namespace ConiferOS.Process

open Lib Paging

/-! ## The argument block -/

def translateArgBlockAddrToUserspaceAddr (addr argBlock : Word) : Word :=
  if addr.toNat < argBlock.toNat then 0 else commandLineArgVirtualAddr + (addr - argBlock)

/-- Slot `i` of the argument block, behind the pointers. -/
def argSlot (argBlock : Word) (i : Nat) : Word :=
  argBlock + BitVec.ofNat 32 (4 * maxNumArgs + maxCmmdArgLen * i)

/-- The loop of `load_arg_block`, `none` when a `strcpy` is not through after `fuel` bytes. -/
def loadArgBlockLoop (fuel : Nat) (argBlock argv : Word) :
    (remaining i : Nat) → Trace → Option Trace
  | 0, _, t => some t
  | remaining + 1, i, t =>
      match strcpy fuel t (argSlot argBlock i) (t.mem.load32 (argv + BitVec.ofNat 32 (4 * i))) with
      | none => none
      | some t =>
          loadArgBlockLoop fuel argBlock argv remaining (i + 1)
            (t.store32 (argBlock + BitVec.ofNat 32 (4 * i))
              (translateArgBlockAddrToUserspaceAddr (argSlot argBlock i) argBlock))

def loadArgBlock (fuel : Nat) (argBlock : Word) (argc : Int) (argv : Word) (t : Trace) :
    Option Trace :=
  loadArgBlockLoop fuel argBlock argv argc.toNat 0 t

def putArgvArgcInStackMem (m : Mem) (processStackPtr : Word) (argc : Int) (argv : Word) : Mem :=
  (m.store32 (processStackPtr + BitVec.ofNat 32 taskStackSize - 4) (BitVec.ofInt 32 argc)).store32
    (processStackPtr + BitVec.ofNat 32 taskStackSize - 8) argv

/-! ## The new process -/

/-- What a load brings along: the two blocks it gets for the stack and the arguments, the
    executable, and what the rest of it does to memory before and after them. -/
structure LoadFrame where
  stackAddr : Word
  argBlock : Word
  executable : Executable
  loadData : Mem → Mem
  taskNew : Mem → Mem

/-- A process before its first instruction, with the addresses that `load_arg_block` wrote. -/
structure Child where
  written : List Word
  mem : Mem
  pages : PageMap

/-- `process_load_for_slot` as far as arguments go, `none` when it does not come to an end
    or fails. -/
def processLoadForSlot (fuel : Nat) (l : LoadFrame) (argc : Int) (argv : Word) (m : Mem) :
    Option Child :=
  let m := (l.loadData m).fill l.stackAddr taskStackSize 0
  let argv := if argc = 0 then 0 else argv
  let m := putArgvArgcInStackMem m l.stackAddr argc commandLineArgVirtualAddr
  let m := m.fill l.argBlock lenArgBlock 0
  match loadArgBlock fuel l.argBlock argc argv ⟨m, []⟩ with
  | none => none
  | some t =>
      let mapping := processMapTaskMemory l.stackAddr l.argBlock l.executable
        (PageMap.linear ((pagingUserSupervisor ||| pagingPresent).setWidth 8))
      if mapping.1 < 0 then none else some ⟨t.written, l.taskNew t.mem, mapping.2⟩

/-- The system call from the caller's registers to the child. -/
def isr80hCommand6Execve (fuel : Nat) (f : ExecveFrame) (l : LoadFrame) (argc : Int)
    (argvUsrAddr filenameUsrAddr : Word) (m : Mem) (pages : PageMap) : Option Child :=
  processLoadForSlot fuel l argc f.argv (execveCopy f argc argvUsrAddr filenameUsrAddr m pages).1

/-- `main` as it is entered: its two parameters and memory. -/
structure MainCall where
  argc : Word
  argv : Word
  mem : Mem

/-- `_start` of `start.asm` up to the first instruction of `main`; `ret` is the return address
    that `call` pushes. -/
def start (view : Word → Word) (m : Mem) (esp ret : Word) : MainCall :=
  let eax := loadVia view m esp
  let m := storeVia view m (esp - 4) eax
  let esp := esp - 4
  let eax := loadVia view m (esp + 8)
  let m := storeVia view m (esp - 4) eax
  let esp := esp - 4
  let m := storeVia view m (esp - 4) ret
  let esp := esp - 4
  ⟨loadVia view m (esp + 4), loadVia view m (esp + 8), m⟩

/-! ## What is to hold -/

/-- The argument block is not left, and `main` gets the arguments it is to get. -/
structure ArgsPassed (l : LoadFrame) (child : Child) (ret : Word) (args : List (List Byte)) : Prop where
  inside : ∀ x ∈ child.written, (x - l.argBlock).toNat < lenArgBlock
  argc : (start child.pages.translate child.mem (taskStackVirtAddr - 8) ret).argc =
    BitVec.ofNat 32 args.length
  argv : ∀ i, ∀ bound : i < args.length,
    let main := start child.pages.translate child.mem (taskStackVirtAddr - 8) ret
    ∃ text, StringAt main.mem child.pages.translate
        (loadVia child.pages.translate main.mem (main.argv + BitVec.ofNat 32 (4 * i))) text ∧
      (args[i].length < maxCmmdArgLen → text = args[i]) ∧
      (maxCmmdArgLen ≤ args[i].length → text <+: args[i])

/-- What the slots of the arguments spell: a full slot runs on into the next one. -/
def runOn : List (List Byte) → List Byte
  | [] => []
  | arg :: args => arg.take maxCmmdArgLen ++ if maxCmmdArgLen ≤ arg.length then runOn args else []

/-- The arguments fit into the block: there are not too many, the last slot keeps its zero,
    and what follows a full slot continues its argument. -/
structure ArgsFit (args : List (List Byte)) : Prop where
  few : args.length ≤ maxNumArgs
  last : ∀ full : maxNumArgs - 1 < args.length, args[maxNumArgs - 1].length < maxCmmdArgLen
  continued : ∀ i, ∀ bound : i < args.length, maxCmmdArgLen ≤ args[i].length →
    runOn (args.drop i) <+: args[i]

end ConiferOS.Process
