import ConiferOS.Task.List

/-! # Processes and scheduling

`processes[]`, the process structures and the task list, and the kernel entries that
change them: loading, `execve`, exit and exceptions. What the file system, the heap and
the page tables decide in a load comes from outside. A load that damages kernel memory
leaves whatever state its environment says.
-/

namespace ConiferOS.Task

structure ProcessStruct where
  pid : Nat
  task : Word

structure SchedState where
  processes : Nat → Word
  structs : Word → ProcessStruct
  list : TaskList
  currentProcess : Word

/-- What a load gets from the rest of the kernel. -/
structure LoadEnv where
  /-- the block for `struct process`, 0 for none -/
  process : Word
  /-- the executable was read, and the stack and the argument block were allocated -/
  prepared : Bool
  /-- the block for `struct task`, 0 for none -/
  task : Word
  taskInit : Int
  /-- `process_map_task_memory` succeeded -/
  mapped : Bool
  /-- the state after kernel memory was damaged -/
  wild : SchedState

/-- The new process, when there is one. An error pointer of `task_new` passes the test
    `task < 0`, and the page tables are then written through it. -/
def processLoadForSlot (s : SchedState) (env : LoadEnv) (pid : Nat) : Option Word × SchedState :=
  if s.processes pid ≠ 0 then (none, s)
  else if env.process = 0 then (none, s)
  else if !env.prepared then (none, s)
  else
    let (task, list) := taskNew s.list env.task env.taskInit env.process
    if env.task = 0 ∨ env.taskInit ≠ 0 then (none, env.wild)
    else
      let s := { s with list := list, structs := Function.update s.structs env.process ⟨pid, task⟩ }
      if !env.mapped then (none, { s with list := taskFree s.list task })
      else (some env.process, { s with processes := Function.update s.processes pid env.process })

def processGetFreeSlot (s : SchedState) : Option Nat :=
  (List.range maxProcesses).find? fun pid => s.processes pid = 0

def processLoad (s : SchedState) (env : LoadEnv) : Option Word × SchedState :=
  match processGetFreeSlot s with
  | none => (none, s)
  | some pid => processLoadForSlot s env pid

def SchedState.taskExec (s : SchedState) (task : Word) : SchedState :=
  { s with list := Task.taskExec s.list task, currentProcess := (s.list.tasks task).process }

def processTerminate (s : SchedState) (process : Word) : SchedState :=
  { s with processes := Function.update s.processes (s.structs process).pid 0 }

/-- The most arguments whose slots lie in the heap block of `arg_block`. -/
def argsInBlock : Int := 127

/-- A negative `argc` moves the kernel's stack pointer back over its own frame, a large
    one runs over the block behind `arg_block`, and a path that fills `filename` is
    terminated behind it. -/
def ArgsFit (argc : Int) (pathLength : Nat) : Prop :=
  0 ≤ argc ∧ argc ≤ argsInBlock ∧ pathLength < maxFilePathChars

instance (argc : Int) (pathLength : Nat) : Decidable (ArgsFit argc pathLength) :=
  inferInstanceAs (Decidable (_ ∧ _ ∧ _))

def isr80hCommand6Execve (s : SchedState) (argc : Int) (pathLength : Nat) (env : LoadEnv) :
    SchedState :=
  if ArgsFit argc pathLength then
    match processLoad s env with
    | (none, s) => s
    | (some process, s) => s.taskExec (s.structs process).task
  else env.wild

def isr80hCommand7Exit (s : SchedState) : SchedState :=
  let s := processTerminate s s.currentProcess
  s.taskExec (taskGetNext s.list)

def idtHandleUserProcessException (s : SchedState) : SchedState :=
  let s := processTerminate s s.currentProcess
  s.taskExec (taskGetNext s.list)

end ConiferOS.Task
