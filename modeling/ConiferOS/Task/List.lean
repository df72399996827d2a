import ConiferOS.Config

/-! # The task list

The scheduling part of `task.c`: `struct task` with its process and its two links, the
three global pointers, and insertion and removal. Page tables and registers of a task
do not matter here, and neither do the frees, which change heap entries only.
-/

namespace ConiferOS.Task

/-- `struct task`. -/
structure TaskStruct where
  process : Word
  next : Word
  prev : Word

/-- Memory as far as it holds tasks, and `task_list_head`, `task_list_tail` and
    `current_task`. -/
structure TaskList where
  tasks : Word → TaskStruct
  head : Word
  tail : Word
  current : Word

namespace TaskList

def setTask (s : TaskList) (task : Word) (value : TaskStruct) : TaskList :=
  { s with tasks := Function.update s.tasks task value }

def setNext (s : TaskList) (task next : Word) : TaskList :=
  s.setTask task { s.tasks task with next := next }

def setPrev (s : TaskList) (task prev : Word) : TaskList :=
  s.setTask task { s.tasks task with prev := prev }

section Links

variable (s : TaskList) (t u link : Word) (value : TaskStruct)

@[simp] theorem setTask_tasks :
    (s.setTask t value).tasks u = if u = t then value else s.tasks u := by
  simp only [setTask, Function.update_apply]

@[simp] theorem setNext_next :
    ((s.setNext t link).tasks u).next = if u = t then link else (s.tasks u).next := by
  rw [setNext, setTask_tasks]
  split <;> rfl

@[simp] theorem setNext_prev : ((s.setNext t link).tasks u).prev = (s.tasks u).prev := by
  rw [setNext, setTask_tasks]
  split
  case isTrue same => rw [same]
  case isFalse => rfl

@[simp] theorem setPrev_next : ((s.setPrev t link).tasks u).next = (s.tasks u).next := by
  rw [setPrev, setTask_tasks]
  split
  case isTrue same => rw [same]
  case isFalse => rfl

@[simp] theorem setPrev_prev :
    ((s.setPrev t link).tasks u).prev = if u = t then link else (s.tasks u).prev := by
  rw [setPrev, setTask_tasks]
  split <;> rfl

@[simp] theorem setNext_process :
    ((s.setNext t link).tasks u).process = (s.tasks u).process := by
  rw [setNext, setTask_tasks]
  split
  case isTrue same => rw [same]
  case isFalse => rfl

@[simp] theorem setPrev_process :
    ((s.setPrev t link).tasks u).process = (s.tasks u).process := by
  rw [setPrev, setTask_tasks]
  split
  case isTrue same => rw [same]
  case isFalse => rfl

@[simp] theorem setTask_head : (s.setTask t value).head = s.head := rfl
@[simp] theorem setTask_tail : (s.setTask t value).tail = s.tail := rfl
@[simp] theorem setTask_current : (s.setTask t value).current = s.current := rfl
@[simp] theorem setNext_head : (s.setNext t link).head = s.head := rfl
@[simp] theorem setNext_tail : (s.setNext t link).tail = s.tail := rfl
@[simp] theorem setNext_current : (s.setNext t link).current = s.current := rfl
@[simp] theorem setPrev_head : (s.setPrev t link).head = s.head := rfl
@[simp] theorem setPrev_tail : (s.setPrev t link).tail = s.tail := rfl
@[simp] theorem setPrev_current : (s.setPrev t link).current = s.current := rfl

end Links

end TaskList

open TaskList

/-- Before the first task. -/
def emptyTaskList : TaskList := ⟨fun _ => ⟨0, 0, 0⟩, 0, 0, 0⟩

def taskGetNext (s : TaskList) : Word :=
  if (s.tasks s.current).next = 0 then s.head else (s.tasks s.current).next

/-- The four cases of `task_list_remove`. -/
def taskListUnlink (s : TaskList) (task : Word) : TaskList :=
  if task = s.head ∧ task = s.tail then { s with head := 0, tail := 0, current := 0 }
  else if task = s.head then
    let s := { s with head := (s.tasks task).next }
    s.setPrev s.head 0
  else if task = s.tail then
    let s := { s with tail := (s.tasks task).prev }
    s.setNext s.tail 0
  else s.setNext (s.tasks task).prev (s.tasks task).next

def taskListRemove (s : TaskList) (task : Word) : TaskList :=
  let s := taskListUnlink s task
  if task = s.current then { s with current := taskGetNext s } else s

section Remove

variable (s : TaskList) (task : Word)

@[simp] theorem taskListRemove_tasks :
    (taskListRemove s task).tasks = (taskListUnlink s task).tasks := by
  simp only [taskListRemove]
  split <;> rfl

@[simp] theorem taskListRemove_head :
    (taskListRemove s task).head = (taskListUnlink s task).head := by
  simp only [taskListRemove]
  split <;> rfl

@[simp] theorem taskListRemove_tail :
    (taskListRemove s task).tail = (taskListUnlink s task).tail := by
  simp only [taskListRemove]
  split <;> rfl

theorem taskListRemove_current :
    (taskListRemove s task).current =
      if task = (taskListUnlink s task).current then taskGetNext (taskListUnlink s task)
      else (taskListUnlink s task).current := by
  simp only [taskListRemove]
  split <;> rfl

end Remove

def taskFree (s : TaskList) (task : Word) : TaskList := taskListRemove s task

/-- `task` is the block `kzalloc` returned and `rc` is what `task_init` returned. -/
def taskNew (s : TaskList) (task : Word) (rc : Int) (process : Word) : Word × TaskList :=
  if task = 0 then (BitVec.ofInt 32 (-enomem), s)
  else
    let s := s.setTask task ⟨if rc = 0 then process else 0, 0, 0⟩
    if rc ≠ 0 then (BitVec.ofInt 32 (-1), taskFree s task)
    else if s.head = 0 then (task, { s with head := task, tail := task, current := task })
    else
      let s := s.setNext s.tail task
      let s := s.setPrev task s.tail
      let s := { s with tail := task }
      (task, s.setNext s.tail 0)

@[simp] theorem taskFree_process (s : TaskList) (task u : Word) :
    ((taskFree s task).tasks u).process = (s.tasks u).process := by
  simp only [taskFree, taskListRemove_tasks, taskListUnlink]
  split
  · rfl
  · split
    · simp
    · split <;> simp

theorem taskNew_pointer (s : TaskList) {task : Word} (nonnull : task ≠ 0) (process : Word) :
    (taskNew s task 0 process).1 = task := by
  simp only [taskNew, if_neg nonnull, ne_eq, not_true_eq_false, if_false, if_true]
  split <;> rfl

theorem taskNew_process (s : TaskList) {task : Word} (nonnull : task ≠ 0) (process u : Word) :
    ((taskNew s task 0 process).2.tasks u).process =
      if u = task then process else (s.tasks u).process := by
  simp only [taskNew, if_neg nonnull, ne_eq, not_true_eq_false, if_false, if_true]
  split
  · simp only [setTask_tasks]
    split <;> rfl
  · simp only [setNext_process, setPrev_process, setTask_tasks]
    split <;> rfl

theorem taskNew_head_current (s : TaskList) {task : Word} (nonnull : task ≠ 0)
    (nonempty : s.head ≠ 0) (process : Word) :
    (taskNew s task 0 process).2.head = s.head ∧
      (taskNew s task 0 process).2.current = s.current := by
  simp only [taskNew, if_neg nonnull, ne_eq, not_true_eq_false, if_false, if_true, setTask_head,
    if_neg nonempty]
  exact ⟨rfl, rfl⟩

theorem taskFree_current (s : TaskList) {task : Word} (notHead : task ≠ s.head)
    (notCurrent : task ≠ s.current) : (taskFree s task).current = s.current := by
  have unlink : (taskListUnlink s task).current = s.current := by
    simp only [taskListUnlink, notHead, false_and, if_false]
    split <;> rfl
  rw [taskFree, taskListRemove_current, unlink, if_neg notCurrent]

/-- The bookkeeping of `task_exec`. -/
def taskExec (s : TaskList) (task : Word) : TaskList := { s with current := task }

end ConiferOS.Task
