import ConiferOS.Task.ListInvariant
import ConiferOS.Task.Schedule

/-! # Which task runs after an exit

The history of a run is the list of loaded processes with their tasks, oldest first,
and the processes that have exited. Exiting clears the slot in `processes[]` and leaves
the task in the list, so the scheduler goes on to the task that was created next,
whether its process still exists or not.
-/

namespace ConiferOS.Task

open Lib Lib.Run

structure SchedRun where
  state : SchedState
  /-- process and task of every load that succeeded -/
  created : List (Word × Word)
  exited : List Word

inductive SchedOp where
  | load (env : LoadEnv)
  | execve (argc : Int) (pathLength : Nat) (env : LoadEnv)
  | exit
  | exception

namespace SchedRun

/-- A load adds to the history when it returns a process. -/
def afterLoad (s : SchedRun) (env : LoadEnv) (state : SchedState) : SchedRun :=
  match (processLoad s.state env).1 with
  | none => { s with state := state }
  | some process => { s with state := state, created := s.created ++ [(process, env.task)] }

def step (s : SchedRun) : SchedOp → SchedRun
  | .load env => s.afterLoad env (processLoad s.state env).2
  | .execve argc pathLength env =>
      s.afterLoad env (isr80hCommand6Execve s.state argc pathLength env)
  | .exit =>
      { s with
        state := isr80hCommand7Exit s.state
        exited := s.state.currentProcess :: s.exited }
  | .exception =>
      { s with
        state := idtHandleUserProcessException s.state
        exited := s.state.currentProcess :: s.exited }

/-- The process loaded after `process`, or the first one when it is the newest. -/
def loadedNext (s : SchedRun) (process : Word) : Word :=
  match (s.created.map Prod.fst).dropWhile (· ≠ process) with
  | _ :: next :: _ => next
  | _ => (s.created.map Prod.fst).headD 0

/-- The heap hands out blocks that no task in the list and no loaded process occupies,
    and a load that gets as far as its task finds room for it. -/
def Fresh (s : SchedRun) (env : LoadEnv) : Prop :=
  env.process ≠ 0 → env.prepared → env.process ∉ s.created.map Prod.fst ∧
    env.task ∉ s.created.map Prod.snd ∧ env.task ≠ 0 ∧ env.taskInit = 0

def Legal (s : SchedRun) : SchedOp → Prop
  | .load env => s.Fresh env
  | .execve argc pathLength env => ArgsFit argc pathLength ∧ s.Fresh env
  | .exit => True
  | .exception => True

instance (s : SchedRun) (op : SchedOp) : Decidable (s.Legal op) :=
  match op with
  | .load _ => inferInstanceAs (Decidable (_ → _ → _))
  | .execve _ _ _ => inferInstanceAs (Decidable (_ ∧ (_ → _ → _)))
  | .exit => inferInstanceAs (Decidable True)
  | .exception => inferInstanceAs (Decidable True)

/-- The slot that an exit clears holds the exiting process, and the task it switches to
    belongs to a process that is registered afterwards. -/
def SwitchesToRegistered (s : SchedState) : Prop :=
  s.processes (s.structs s.currentProcess).pid = s.currentProcess ∧
    ∃ pid < maxProcesses,
      (processTerminate s s.currentProcess).processes pid =
        (s.list.tasks (taskGetNext s.list)).process ∧
      (s.list.tasks (taskGetNext s.list)).process ≠ 0

instance (s : SchedState) : Decidable (SwitchesToRegistered s) :=
  inferInstanceAs (Decidable (_ ∧ ∃ pid < maxProcesses, _ ∧ _))

def NoDeadTask (s : SchedRun) : SchedOp → Prop
  | .load _ => True
  | .execve _ _ _ => True
  | .exit => SwitchesToRegistered s.state
  | .exception => SwitchesToRegistered s.state

instance (s : SchedRun) (op : SchedOp) : Decidable (s.NoDeadTask op) :=
  match op with
  | .load _ => inferInstanceAs (Decidable True)
  | .execve _ _ _ => inferInstanceAs (Decidable True)
  | .exit => inferInstanceAs (Decidable (SwitchesToRegistered _))
  | .exception => inferInstanceAs (Decidable (SwitchesToRegistered _))

/-- The process loaded next after the current one is another one and has not exited. -/
def NextAlive (s : SchedRun) : SchedOp → Prop
  | .load _ => True
  | .execve _ _ _ => True
  | .exit =>
      s.loadedNext s.state.currentProcess ≠ s.state.currentProcess ∧
        s.loadedNext s.state.currentProcess ∉ s.exited
  | .exception =>
      s.loadedNext s.state.currentProcess ≠ s.state.currentProcess ∧
        s.loadedNext s.state.currentProcess ∉ s.exited

instance (s : SchedRun) (op : SchedOp) : Decidable (s.NextAlive op) :=
  match op with
  | .load _ => inferInstanceAs (Decidable True)
  | .execve _ _ _ => inferInstanceAs (Decidable True)
  | .exit => inferInstanceAs (Decidable (_ ∧ _))
  | .exception => inferInstanceAs (Decidable (_ ∧ _))

structure Inv (s : SchedRun) : Prop where
  list : TaskState.Inv ⟨s.state.list, s.created.map Prod.snd⟩
  owner : ∀ loaded ∈ s.created, (s.state.list.tasks loaded.2).process = loaded.1
  distinct : (s.created.map Prod.fst).Nodup
  nonnull : 0 ∉ s.created.map Prod.fst
  history : ∀ process ∈ s.exited, process ∈ s.created.map Prod.fst
  registered : ∀ process ∈ s.created.map Prod.fst, process ∉ s.exited →
    (s.state.structs process).pid < maxProcesses ∧
      s.state.processes (s.state.structs process).pid = process
  slots : ∀ pid < maxProcesses, s.state.processes pid ≠ 0 →
    s.state.processes pid ∈ s.created.map Prod.fst ∧ s.state.processes pid ∉ s.exited ∧
      (s.state.structs (s.state.processes pid)).pid = pid
  current : (s.state.currentProcess, s.state.list.current) ∈ s.created ∧
    s.state.currentProcess ∉ s.exited

variable {s : SchedRun} {env : LoadEnv}

/-! ## Loading -/

/-- A load that finds room for its task fails without a trace, takes the new task back
    out of the list, or registers the new process in a free slot. -/
theorem processLoad_cases (state : SchedState)
    (room : env.process ≠ 0 → env.prepared → env.task ≠ 0 ∧ env.taskInit = 0) :
    processLoad state env = (none, state) ∨
      env.process ≠ 0 ∧ env.prepared ∧ ∃ pid < maxProcesses, state.processes pid = 0 ∧
        let new : SchedState :=
          { state with
            list := (taskNew state.list env.task 0 env.process).2
            structs := Function.update state.structs env.process ⟨pid, env.task⟩ }
        processLoad state env = (none, { new with list := taskFree new.list env.task }) ∨
          processLoad state env = (some env.process,
            { new with processes := Function.update state.processes pid env.process }) := by
  unfold processLoad
  cases slot : processGetFreeSlot state with
  | none => exact .inl rfl
  | some pid =>
      have bound : pid < maxProcesses := List.mem_range.mp (List.mem_of_find?_eq_some slot)
      have empty : state.processes pid = 0 := by
        simpa using List.find?_some slot
      simp only [processLoadForSlot, ne_eq, empty, not_true_eq_false, if_false]
      by_cases none : env.process = 0
      · exact .inl (if_pos none)
      · rw [if_neg none]
        cases prepared : env.prepared with
        | false => exact .inl rfl
        | true =>
            obtain ⟨nonnull, init⟩ := room none prepared
            have pointer := taskNew_pointer state.list nonnull env.process
            refine .inr ⟨none, rfl, pid, bound, empty, ?_⟩
            simp only [init, pointer, nonnull, not_true_eq_false, or_self, if_false, Bool.not_true,
              Bool.false_eq_true]
            cases env.mapped with
            | false => exact .inl rfl
            | true => exact .inr rfl

theorem Fresh.room (fresh : s.Fresh env) :
    env.process ≠ 0 → env.prepared → env.task ≠ 0 ∧ env.taskInit = 0 :=
  fun allocated prepared => (fresh allocated prepared).2.2

/-- A new process is none of the old ones. -/
theorem structs_other {process : Word} (s : SchedRun) (fresh : process ∉ s.created.map Prod.fst)
    (value : ProcessStruct) :
    ∀ p ∈ s.created.map Prod.fst, Function.update s.state.structs process value p = s.state.structs p :=
  fun p member => Function.update_of_ne (fun same : p = process => fresh (same ▸ member)) _ _

theorem Inv.live_ne_nil (inv : s.Inv) : s.created.map Prod.snd ≠ [] :=
  List.ne_nil_of_mem (List.mem_map_of_mem inv.current.1)

/-- The task of a failed mapping is taken out of the list again. -/
theorem Inv.unmapped (inv : s.Inv) (pid : Nat) (process : env.process ∉ s.created.map Prod.fst)
    (task : env.task ∉ s.created.map Prod.snd) (nonnull : env.task ≠ 0) :
    Inv { s with
      state :=
        { s.state with
          list := taskFree (taskNew s.state.list env.task 0 env.process).2 env.task
          structs := Function.update s.state.structs env.process ⟨pid, env.task⟩ } } := by
  have added := inv.list.taskNew nonnull task env.process
  have removed := added.taskFree_last inv.live_ne_nil rfl
  simp only [TaskState.step, List.erase_append_right _ task, List.erase_cons_head,
    List.append_nil] at removed
  have others := s.structs_other process ⟨pid, env.task⟩
  refine ⟨removed, fun loaded member => ?_, inv.distinct, inv.nonnull, inv.history,
    fun p member alive => ?_, fun slot bound taken => ?_, ?_, inv.current.2⟩
  · have other : loaded.2 ≠ env.task := fun same => task (same ▸ List.mem_map_of_mem member)
    simp only [taskFree_process, taskNew_process _ nonnull, if_neg other]
    exact inv.owner loaded member
  · simpa only [others p member] using inv.registered p member alive
  · obtain ⟨member, alive, here⟩ := inv.slots slot bound taken
    exact ⟨member, alive, by simpa only [others _ member] using here⟩
  · have nonempty : s.state.list.head ≠ 0 := mt inv.list.head_eq_zero_iff.mp inv.live_ne_nil
    obtain ⟨head, current⟩ := taskNew_head_current s.state.list nonnull nonempty env.process
    have notHead : env.task ≠ s.state.list.head := fun same =>
      task (same ▸ inv.list.head_mem inv.live_ne_nil)
    have notCurrent : env.task ≠ s.state.list.current := fun same =>
      task (same ▸ List.mem_map_of_mem inv.current.1)
    rw [← head] at notHead
    rw [← current] at notCurrent
    simp only [taskFree_current _ notHead notCurrent, current]
    exact inv.current.1

/-- A new process gets a slot of its own, and its task goes to the end of the list. -/
theorem Inv.loaded (inv : s.Inv) {pid : Nat} (bound : pid < maxProcesses)
    (empty : s.state.processes pid = 0) (allocated : env.process ≠ 0)
    (process : env.process ∉ s.created.map Prod.fst)
    (task : env.task ∉ s.created.map Prod.snd) (nonnull : env.task ≠ 0) :
    Inv { s with
      state :=
        { s.state with
          list := (taskNew s.state.list env.task 0 env.process).2
          structs := Function.update s.state.structs env.process ⟨pid, env.task⟩
          processes := Function.update s.state.processes pid env.process }
      created := s.created ++ [(env.process, env.task)] } := by
  have added := inv.list.taskNew nonnull task env.process
  have others := s.structs_other process ⟨pid, env.task⟩
  have unused : env.process ∉ s.exited := fun old => process (inv.history _ old)
  have nonempty : s.state.list.head ≠ 0 := mt inv.list.head_eq_zero_iff.mp inv.live_ne_nil
  have current := (taskNew_head_current s.state.list nonnull nonempty env.process).2
  refine ⟨?_, fun loaded member => ?_, ?_, ?_, fun p old => ?_, fun p member alive => ?_,
    fun slot inRange taken => ?_, ?_, inv.current.2⟩
  · simpa only [TaskState.step, List.map_append, List.map_cons, List.map_nil] using added
  · simp only [taskNew_process _ nonnull]
    rcases List.mem_append.mp member with old | new
    · have other : loaded.2 ≠ env.task := fun same => task (same ▸ List.mem_map_of_mem old)
      rw [if_neg other]
      exact inv.owner loaded old
    · rw [List.mem_singleton.mp new, if_pos rfl]
  · rw [List.map_append]
    refine List.nodup_append.mpr ⟨inv.distinct, List.nodup_singleton _, ?_⟩
    rintro p old q new rfl
    have same : p = env.process := List.mem_singleton.mp new
    exact process (same ▸ old)
  · rw [List.map_append, List.mem_append, not_or]
    exact ⟨inv.nonnull, fun new => allocated (List.mem_singleton.mp new).symm⟩
  · rw [List.map_append]
    exact List.mem_append_left _ (inv.history p old)
  · rw [List.map_append] at member
    rcases List.mem_append.mp member with old | new
    · obtain ⟨inRange, here⟩ := inv.registered p old alive
      have other : (s.state.structs p).pid ≠ pid := by
        intro same
        rw [same, empty] at here
        exact inv.nonnull (here ▸ old)
      simp only [others p old, Function.update_of_ne other]
      exact ⟨inRange, here⟩
    · obtain rfl := List.mem_singleton.mp new
      simp only [Function.update_self]
      exact ⟨bound, trivial⟩
  · by_cases same : slot = pid
    · subst same
      simp only [Function.update_self, List.map_append]
      exact ⟨List.mem_append_right _ List.mem_cons_self, unused, trivial⟩
    · simp only [Function.update_of_ne same] at taken ⊢
      obtain ⟨member, alive, here⟩ := inv.slots slot inRange taken
      rw [others _ member, List.map_append]
      exact ⟨List.mem_append_left _ member, alive, here⟩
  · simp only [current]
    exact List.mem_append_left _ inv.current.1

theorem Inv.afterLoad (inv : s.Inv) (fresh : s.Fresh env) :
    (s.afterLoad env (processLoad s.state env).2).Inv := by
  rcases processLoad_cases s.state fresh.room with same | ⟨allocated, prepared, pid, bound, empty, load⟩
  · simp only [SchedRun.afterLoad, same]
    exact inv
  · obtain ⟨process, task, nonnull, -⟩ := fresh allocated prepared
    rcases load with failed | succeeded
    · simp only [SchedRun.afterLoad, failed]
      exact inv.unmapped pid process task nonnull
    · simp only [SchedRun.afterLoad, succeeded]
      exact inv.loaded bound empty allocated process task nonnull

/-! ## Switching -/

theorem Inv.taskExec (inv : s.Inv) {process task : Word} (member : (process, task) ∈ s.created)
    (alive : process ∉ s.exited) : Inv { s with state := s.state.taskExec task } where
  list := inv.list.taskExec (List.mem_map_of_mem member)
  owner := inv.owner
  distinct := inv.distinct
  nonnull := inv.nonnull
  history := inv.history
  registered := inv.registered
  slots := inv.slots
  current := by
    have owner : (s.state.list.tasks task).process = process := inv.owner _ member
    simp only [SchedState.taskExec, Task.taskExec, owner]
    exact ⟨member, alive⟩

/-- The history from a loaded process on. -/
theorem Inv.dropWhile_created (inv : s.Inv) {before after : List (Word × Word)} {loaded : Word × Word}
    (created : s.created = before ++ loaded :: after) :
    (s.created.map Prod.fst).dropWhile (· ≠ loaded.1) = loaded.1 :: after.map Prod.fst := by
  have distinct := inv.distinct
  rw [created, List.map_append] at distinct ⊢
  have notBefore : loaded.1 ∉ before.map Prod.fst := fun member =>
    (List.nodup_append.mp distinct).2.2 _ member _ List.mem_cons_self rfl
  rw [List.dropWhile_append_of_pos]
  · simp
  · intro p member
    have other : p ≠ loaded.1 := fun same => notBefore (same ▸ member)
    simpa using other

/-- The scheduler picks the task of the process that was loaded next. -/
theorem Inv.next_loaded (inv : s.Inv) :
    (s.loadedNext s.state.currentProcess, taskGetNext s.state.list) ∈ s.created := by
  obtain ⟨before, after, created⟩ := List.append_of_mem inv.current.1
  have linked := inv.list.linked
  simp only [created, List.map_append, List.map_cons] at linked
  have forth : (s.state.list.tasks s.state.list.current).next = (after.map Prod.snd).headD 0 :=
    ((Linked.append_iff _ _ _ _).mp linked).2.2.1
  unfold loadedNext taskGetNext
  rw [inv.dropWhile_created created, forth]
  cases after with
  | nil =>
      have head : s.state.list.head = (s.created.map Prod.snd).headD 0 := inv.list.head
      simp only [List.map_nil, List.headD_nil, if_true, head]
      obtain ⟨first, rest, eq⟩ := List.exists_cons_of_ne_nil (List.ne_nil_of_mem inv.current.1)
      rw [eq]
      exact List.mem_cons_self
  | cons second others =>
      have member : second ∈ s.created := by simp [created]
      have nonnull : second.2 ≠ 0 := fun null =>
        inv.list.nonnull (null ▸ List.mem_map_of_mem member)
      simp only [List.map_cons, List.headD_cons, if_neg nonnull]
      exact member

theorem Inv.pid_ne (inv : s.Inv) {p q : Word} (hp : p ∈ s.created.map Prod.fst)
    (hq : q ∈ s.created.map Prod.fst) (aliveP : p ∉ s.exited) (aliveQ : q ∉ s.exited)
    (distinct : p ≠ q) : (s.state.structs p).pid ≠ (s.state.structs q).pid := by
  intro same
  have slotP := (inv.registered p hp aliveP).2
  have slotQ := (inv.registered q hq aliveQ).2
  rw [same, slotQ] at slotP
  exact distinct slotP.symm

theorem Inv.current_mem (inv : s.Inv) :
    s.state.currentProcess ∈ s.created.map Prod.fst := List.mem_map_of_mem inv.current.1

/-- An exit switches to a registered process exactly when the next one is alive. -/
theorem Inv.switchesToRegistered_iff (inv : s.Inv) :
    SwitchesToRegistered s.state ↔
      s.loadedNext s.state.currentProcess ≠ s.state.currentProcess ∧
        s.loadedNext s.state.currentProcess ∉ s.exited := by
  have next := inv.next_loaded
  have owner : (s.state.list.tasks (taskGetNext s.state.list)).process =
      s.loadedNext s.state.currentProcess := inv.owner _ next
  have member : s.loadedNext s.state.currentProcess ∈ s.created.map Prod.fst :=
    List.mem_map_of_mem next
  have slot := (inv.registered _ inv.current_mem inv.current.2).2
  simp only [SwitchesToRegistered, slot, true_and, owner, processTerminate]
  constructor
  · rintro ⟨pid, bound, here, nonnull⟩
    have other : pid ≠ (s.state.structs s.state.currentProcess).pid := by
      rintro rfl
      exact nonnull (here.symm.trans (Function.update_self _ _ _))
    rw [Function.update_of_ne other] at here
    obtain ⟨-, alive, index⟩ := inv.slots pid bound (here ▸ nonnull)
    rw [here] at alive index
    exact ⟨fun same => other (index.symm.trans (by rw [same])), alive⟩
  · rintro ⟨distinct, alive⟩
    obtain ⟨bound, here⟩ := inv.registered _ member alive
    refine ⟨_, bound, ?_, fun null => inv.nonnull (null ▸ member)⟩
    rw [Function.update_of_ne (inv.pid_ne member inv.current_mem alive inv.current.2 distinct)]
    exact here

/-- Exit and exceptions, when the next process is alive. -/
theorem Inv.switched (inv : s.Inv)
    (distinct : s.loadedNext s.state.currentProcess ≠ s.state.currentProcess)
    (alive : s.loadedNext s.state.currentProcess ∉ s.exited) :
    Inv { s with
      state := (processTerminate s.state s.state.currentProcess).taskExec
        (taskGetNext s.state.list)
      exited := s.state.currentProcess :: s.exited } := by
  have terminated : ∀ p ∈ s.created.map Prod.fst, p ∉ s.state.currentProcess :: s.exited →
      (s.state.structs p).pid < maxProcesses ∧
        (processTerminate s.state s.state.currentProcess).processes (s.state.structs p).pid = p := by
    intro p member remains
    rw [List.mem_cons, not_or] at remains
    obtain ⟨bound, here⟩ := inv.registered p member remains.2
    have other := inv.pid_ne member inv.current_mem remains.2 inv.current.2 remains.1
    exact ⟨bound, (Function.update_of_ne other _ _).trans here⟩
  have owner := inv.owner _ inv.next_loaded
  refine ⟨inv.list.taskExec (List.mem_map_of_mem inv.next_loaded), inv.owner, inv.distinct,
    inv.nonnull, ?_, terminated, ?_, ?_, ?_⟩
  · intro p member
    rcases List.mem_cons.mp member with rfl | old
    · exact inv.current_mem
    · exact inv.history p old
  · intro pid bound taken
    simp only [SchedState.taskExec, processTerminate] at taken ⊢
    have other : pid ≠ (s.state.structs s.state.currentProcess).pid := by
      rintro rfl
      exact taken (Function.update_self _ _ _)
    rw [Function.update_of_ne other] at taken ⊢
    obtain ⟨member, remains, index⟩ := inv.slots pid bound taken
    refine ⟨member, ?_, index⟩
    rw [List.mem_cons, not_or]
    exact ⟨fun same => other (index.symm.trans (by rw [same])), remains⟩
  · simp only [SchedState.taskExec, Task.taskExec, processTerminate, owner]
    exact inv.next_loaded
  · simp only [SchedState.taskExec, processTerminate, owner]
    rw [List.mem_cons, not_or]
    exact ⟨distinct, alive⟩

theorem Inv.noDeadTask_iff (inv : s.Inv) (op : SchedOp) : s.NoDeadTask op ↔ s.NextAlive op := by
  cases op with
  | load | execve => exact Iff.rfl
  | exit | exception => exact inv.switchesToRegistered_iff

theorem Inv.execve (inv : s.Inv) {argc : Int} {pathLength : Nat} (fit : ArgsFit argc pathLength)
    (fresh : s.Fresh env) : (s.step (.execve argc pathLength env)).Inv := by
  have loaded := inv.afterLoad fresh
  simp only [SchedRun.step, isr80hCommand6Execve, if_pos fit]
  rcases processLoad_cases s.state fresh.room with same | ⟨allocated, prepared, pid, bound, empty, load⟩
  · simpa only [SchedRun.afterLoad, same] using loaded
  · rcases load with failed | succeeded
    · simpa only [SchedRun.afterLoad, failed] using loaded
    · have unused : env.process ∉ s.exited := fun old =>
        (fresh allocated prepared).1 (inv.history _ old)
      simp only [SchedRun.afterLoad, succeeded, Function.update_self] at loaded ⊢
      exact loaded.taskExec (List.mem_append_right _ List.mem_cons_self) unused

theorem Inv.step (inv : s.Inv) {op : SchedOp} (legal : s.Legal op) (next : s.NextAlive op) :
    (s.step op).Inv := by
  cases op with
  | load env => exact inv.afterLoad legal
  | execve argc pathLength env => exact inv.execve legal.1 legal.2
  | exit | exception => exact inv.switched next.1 next.2

end SchedRun

/-- Before any process is loaded. -/
def emptySched : SchedState := ⟨fun _ => 0, fun _ => ⟨0, 0⟩, emptyTaskList, 0⟩

/-- `kernel_main` loads the first process and executes the head of the task list. -/
def booted (process task : Word) : SchedRun :=
  let state := (processLoad emptySched ⟨process, true, task, 0, true, emptySched⟩).2
  ⟨state.taskExec state.list.head, [(process, task)], []⟩

theorem booted_eq {process task : Word} (hp : process ≠ 0) (ht : task ≠ 0) :
    booted process task =
      { state := SchedState.taskExec
          { processes := Function.update (fun _ => 0) 0 process
            structs := Function.update (fun _ => ⟨0, 0⟩) process ⟨0, task⟩
            list := (taskNew emptyTaskList task 0 process).2
            currentProcess := 0 } task
        created := [(process, task)]
        exited := [] } := by
  have slot : processGetFreeSlot emptySched = some 0 := rfl
  have pointer := taskNew_pointer emptyTaskList ht process
  have head : (taskNew emptyTaskList task 0 process).2.head = task := by
    simp only [taskNew, if_neg ht, ne_eq, not_true_eq_false, if_false, if_true,
      TaskList.setTask_head]
    rfl
  simp only [booted, processLoad, slot]
  simp only [processLoadForSlot, hp, ht, emptySched, pointer, ne_eq, not_true_eq_false, if_false,
    or_self, Bool.not_true, Bool.false_eq_true, head]

theorem inv_booted {process task : Word} (hp : process ≠ 0) (ht : task ≠ 0) :
    (booted process task).Inv := by
  rw [booted_eq hp ht]
  have list := TaskState.inv_empty.taskNew ht List.not_mem_nil process
  have owner := taskNew_process emptyTaskList ht process task
  rw [if_pos rfl] at owner
  refine ⟨list.taskExec List.mem_cons_self, fun loaded member => ?_, List.nodup_singleton _, ?_,
    fun p old => absurd old List.not_mem_nil, fun p member _ => ?_, fun pid _ taken => ?_, ?_,
    List.not_mem_nil⟩
  · rw [List.mem_singleton.mp member]
    exact owner
  · exact fun null => hp (List.mem_singleton.mp null).symm
  · obtain rfl : p = process := List.mem_singleton.mp member
    simp only [SchedState.taskExec, Function.update_self]
    exact ⟨by decide, trivial⟩
  · simp only [SchedState.taskExec] at taken ⊢
    have first : pid = 0 := by
      by_contra other
      exact taken (Function.update_of_ne other _ _)
    subst first
    simp only [Function.update_self]
    exact ⟨List.mem_cons_self, List.not_mem_nil, trivial⟩
  · simp only [SchedState.taskExec, Task.taskExec, owner]
    exact List.mem_cons_self

/-- In every run from boot whose loads leave kernel memory intact, no exit or exception
    switches to a dead task exactly when the process loaded next is always alive. -/
theorem no_dead_task_iff {process task : Word} (hp : process ≠ 0) (ht : task ≠ 0)
    (ops : List SchedOp)
    (legal : Always SchedRun.step SchedRun.Legal (booted process task) ops) :
    Always SchedRun.step SchedRun.NoDeadTask (booted process task) ops ↔
      Always SchedRun.step SchedRun.NextAlive (booted process task) ops :=
  Always.iff_of_invariant SchedRun.Inv (fun _ op inv _ => inv.noDeadTask_iff op)
    (fun _ _ inv legal next => inv.step legal next) (inv_booted hp ht) legal

/-- The only process exits: the scheduler goes back to its own task. -/
theorem dead_task_runs_after_last_exit :
    Always SchedRun.step SchedRun.Legal (booted 0x1000 0x2000) [.exit] ∧
      ¬ Always SchedRun.step SchedRun.NoDeadTask (booted 0x1000 0x2000) [.exit] := by
  decide

/-- A second process is loaded, runs and exits: the first one goes on. -/
theorem no_dead_task_iff_second_exits :
    Always SchedRun.step SchedRun.NoDeadTask (booted 0x1000 0x2000)
      [.execve 0 4 ⟨0x3000, true, 0x4000, 0, true, emptySched⟩, .exit] :=
  (no_dead_task_iff (by decide) (by decide) _ (by decide)).mpr (by decide)

end ConiferOS.Task
