import ConiferOS.Kernel.Load
import ConiferOS.Process.Execve
import Mathlib.Data.Fintype.Basic

/-! # System calls on the memory of processes

The kernel as a machine: the heap, the table of processes, and every process with its
task, in the order of loading. Tasks stay: `exit` frees blocks, but neither the task nor
its page tables. A call is served by the kernel while the caller's page tables are
loaded, so it needs its own pages where they are. Which task runs is up to the caller of
the operations, so only loads change the task list.
-/

namespace ConiferOS.Kernel

open Heap Lib Paging Process

structure State where
  res : Resources
  processes : Nat → Option Nat
  procs : List Proc

/-- The arguments of `execve`, the places of its two arrays on the kernel stack, and the
    memory it finds. -/
structure ExecveCall where
  argc : Int
  argvUsrAddr : Word
  filenameUsrAddr : Word
  filename : Word
  argvKernelCopy : Word
  mem : Mem

/-- What can happen. `kernel` is a heap call of the kernel for its own purposes. -/
inductive Op where
  | load (file : LoadFile)
  | execve (p : Nat) (call : ExecveCall) (file : LoadFile)
  | malloc (p : Nat) (size : Word)
  | free (p : Nat) (ptr : Word)
  | print (p : Nat) (mem : Mem) (userMessage buf : Word)
  | exit (p : Nat)
  | kernel (op : HeapOp)

def Proc.setPages (proc : Proc) (pages : PageMap) : Proc :=
  { proc with mem := { proc.mem with pages := pages } }

/-- The pages of the kernel, and the one of the task, are mapped to themselves. -/
def Proc.Serviced (kernelPage : BitVec 20 → Bool) (proc : Proc) : Prop :=
  ∀ page, kernelPage page = true ∨ page = Page.number proc.task →
    proc.mem.pages page &&& Page.frameMask = Page.base page

instance (kernelPage : BitVec 20 → Bool) (proc : Proc) : Decidable (proc.Serviced kernelPage) :=
  inferInstanceAs (Decidable (∀ _ : BitVec 20, _ → _))

/-- The blocks of one `execve`, in the order of the source. -/
def execveBlocks (heap : HeapDesc) (call : ExecveCall) : Option (ExecveFrame × HeapDesc) := do
  let (path, heap) ← kzallocUsed heap (BitVec.ofNat 32 maxFilePathChars)
  let (argv, heap) := heapMalloc heap (BitVec.ofInt 32 (4 * call.argc))
  if 0 < call.argc ∧ argv = 0 then none
  else
    let sizes := List.replicate call.argc.toNat (BitVec.ofNat 32 maxCmmdArgLen)
    let (args, heap) ← kzallocAll heap sizes
    let (copies, heap) ← kzallocAll heap sizes
    some
      ({ filename := call.filename, argvKernelCopy := call.argvKernelCopy
         tmp := fun k => (path :: copies).getD k 0, argv := argv, arg := fun i => args.getD i 0 },
        heap)

namespace State

def setHeap (s : State) (heap : HeapDesc) : State := { s with res := { s.res with heap := heap } }

def setProc (s : State) (p : Nat) (proc : Proc) : State := { s with procs := s.procs.set p proc }

def processGetFreeSlot (s : State) : Option Nat :=
  (List.range maxProcesses).find? fun pid => (s.processes pid).isNone

/-- `process_load` and `process_load_with_args`: the new process, if there is one. -/
def processLoad (s : State) (file : LoadFile) : Option (State × Option Nat) :=
  match s.processGetFreeSlot with
  | none => some (s, none)
  | some pid => do
      match ← processLoadForSlot s.res.fresh pid file with
      | (r, none) => some ({ s with res := r }, none)
      | (r, some proc) =>
          some
            ({ res := r, processes := Function.update s.processes pid (some s.procs.length)
               procs := s.procs ++ [proc] }, some pid)

/-- A call of process `p`. -/
def serve (kernelPage : BitVec 20 → Bool) (s : State) (p : Nat) (body : Proc → Option State) :
    Option State :=
  match s.procs[p]? with
  | none => some s
  | some proc => if proc.Serviced kernelPage then body proc else none

variable (kernelPage : BitVec 20 → Bool)

def isr80hCommand1Print (s : State) (p : Nat) (mem : Mem) (userMessage buf : Word) : Option State :=
  s.serve kernelPage p fun proc => do
    let (tmp, r) ← s.res.alloc (kzalloc · 1024)
    let copy := copyStringFromUserTask mem proc.mem.pages tmp userMessage buf 1024
    some ({ s with res := r }.setProc p (proc.setPages copy.2.2))

def isr80hCommand4Malloc (s : State) (p : Nat) (size : Word) : Option State :=
  s.serve kernelPage p fun proc => do
    let (_, heap, mem) ← processMallocSyscallHandler s.res.heap proc.mem size
    some ((s.setHeap heap).setProc p { proc with mem := mem })

def isr80hCommand5Free (s : State) (p : Nat) (ptr : Word) : Option State :=
  s.serve kernelPage p fun proc =>
    let (heap, mem) := processFreeSyscallHandler s.res.heap proc.mem ptr
    some ((s.setHeap heap).setProc p { proc with mem := mem })

/-- `argv_kernel_copy` has `argc` places, and with 128 or more arguments it is not filled. -/
def isr80hCommand6Execve (s : State) (p : Nat) (call : ExecveCall) (file : LoadFile) :
    Option State :=
  s.serve kernelPage p fun proc =>
    if call.argc < 0 ∨ 128 ≤ call.argc then none
    else do
      let (frame, heap) ← execveBlocks s.res.heap call
      let copy := execveCopy frame call.argc call.argvUsrAddr call.filenameUsrAddr call.mem
        proc.mem.pages
      let (s, _) ← ((s.setHeap heap).setProc p (proc.setPages copy.2)).processLoad file
      some s

/-- The process stays in the list with its page tables. -/
def isr80hCommand7Exit (s : State) (p : Nat) : Option State :=
  s.serve kernelPage p fun proc =>
    some
      { s with
        res := processFree s.res proc
        processes := Function.update s.processes proc.pid none }

def run (s : State) : Op → Option State
  | .load file => do
      let (s, _) ← s.processLoad file
      some s
  | .execve p call file => s.isr80hCommand6Execve kernelPage p call file
  | .malloc p size => s.isr80hCommand4Malloc kernelPage p size
  | .free p ptr => s.isr80hCommand5Free kernelPage p ptr
  | .print p mem userMessage buf => s.isr80hCommand1Print kernelPage p mem userMessage buf
  | .exit p => s.isr80hCommand7Exit kernelPage p
  | .kernel op => some (s.setHeap (heapOp s.res.heap op))

/-- A step, with the state a kernel ends up in that has damaged its memory. -/
def step (s : State) (event : Op × State) : State := (s.run kernelPage event.1).getD event.2

end State

/-- The kernel after `kernel_heap_init`. -/
def booted (memory : Int → Entry) : State :=
  { res := ⟨kernelHeapInit memory, fun _ => false, Task.emptyTaskList, []⟩
    processes := fun _ => none, procs := [] }

end ConiferOS.Kernel
