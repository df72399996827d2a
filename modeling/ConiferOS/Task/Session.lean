import ConiferOS.Task.ScheduleInvariant

/-! # Sessions

A first process that never exits, the shell, and processes that start other processes, exit and
fault. The task of a new process goes to the end of the list and runs at once, and behind the end
of the list comes its head. So an exit goes back to the first process, whoever has called `execve`,
and any other process that has started one does not run again.
-/

namespace ConiferOS.Task

open Lib Lib.Run

namespace SchedRun

/-- What a session is made of: calls of `execve`, and exits and faults of all processes but the
    first. -/
def InSession (first : Word) (s : SchedRun) : SchedOp → Prop
  | .load _ => False
  | .execve argc pathLength env => ArgsFit argc pathLength ∧ s.Fresh env
  | .exit => s.state.currentProcess ≠ first
  | .exception => s.state.currentProcess ≠ first

instance (first : Word) (s : SchedRun) (op : SchedOp) : Decidable (InSession first s op) :=
  match op with
  | .load _ => inferInstanceAs (Decidable False)
  | .execve _ _ _ => inferInstanceAs (Decidable (_ ∧ (_ → _ → _)))
  | .exit => inferInstanceAs (Decidable (_ ≠ _))
  | .exception => inferInstanceAs (Decidable (_ ≠ _))

/-- The process that was loaded last. -/
def newest (s : SchedRun) : Word := (s.created.map Prod.fst).getLastD 0

/-- The end of a process leads to the task of the first one, which is registered. -/
def Returns (first task : Word) (s : SchedRun) : SchedOp → Prop
  | .load _ => True
  | .execve _ _ _ => True
  | .exit => SwitchesToRegistered s.state ∧ (s.step .exit).state.currentProcess = first ∧
      (s.step .exit).state.list.current = task
  | .exception => SwitchesToRegistered s.state ∧ (s.step .exception).state.currentProcess = first ∧
      (s.step .exception).state.list.current = task

/-- The first process lives, and it runs or the newest does. -/
structure Led (first task : Word) (s : SchedRun) : Prop where
  inv : s.Inv
  head : s.created.head? = some (first, task)
  alive : first ∉ s.exited
  current : s.state.currentProcess = first ∨ s.state.currentProcess = s.newest

variable {first task : Word} {s : SchedRun} {env : LoadEnv}

/-- A process has one task. -/
theorem Inv.task_unique (inv : s.Inv) {process task task' : Word} (member : (process, task) ∈ s.created)
    (member' : (process, task') ∈ s.created) : task = task' :=
  congrArg Prod.snd (List.inj_on_of_nodup_map inv.distinct member member' rfl)

/-! ## The end of a process -/

/-- Behind the newest process comes the first. -/
theorem Led.next_eq (led : s.Led first task) (other : s.state.currentProcess ≠ first) :
    s.loadedNext s.state.currentProcess = first := by
  have last := led.current.resolve_left other
  rcases List.eq_nil_or_concat' s.created with none | ⟨before, loaded, created⟩
  · exact absurd led.inv.current.1 (none ▸ List.not_mem_nil)
  · have running : loaded.1 = s.state.currentProcess := by
      rw [last, newest, created]
      simp
    have head : (s.created.map Prod.fst).head? = some first := by
      rw [List.head?_map, led.head]
      rfl
    rw [loadedNext, ← running, led.inv.dropWhile_created created]
    exact List.headD_eq_head?_getD.trans (by rw [head]; rfl)

/-- The first process goes on, with its own task. -/
theorem Led.leave (led : s.Led first task) (other : s.state.currentProcess ≠ first) :
    SwitchesToRegistered s.state ∧ (s.step .exit).state.currentProcess = first ∧
      (s.step .exit).state.list.current = task ∧ (s.step .exit).Led first task := by
  have next := led.next_eq other
  have loaded := led.inv.next_loaded
  have distinct : s.loadedNext s.state.currentProcess ≠ s.state.currentProcess :=
    next ▸ other.symm
  have alive : s.loadedNext s.state.currentProcess ∉ s.exited := next ▸ led.alive
  have owner : (s.state.list.tasks (taskGetNext s.state.list)).process = first :=
    (led.inv.owner _ loaded).trans next
  rw [next] at loaded
  have same : taskGetNext s.state.list = task :=
    led.inv.task_unique loaded (List.mem_of_head? led.head)
  have remains : first ∉ s.state.currentProcess :: s.exited := by
    rw [List.mem_cons, not_or]
    exact ⟨other.symm, led.alive⟩
  exact ⟨led.inv.switchesToRegistered_iff.mpr ⟨distinct, alive⟩, owner, same,
    led.inv.switched distinct alive, led.head, remains, .inl owner⟩

/-! ## A new process -/

/-- A call of `execve` goes on with the caller, or with a new process. -/
theorem Inv.execve_cases (inv : s.Inv) {argc : Int} {pathLength : Nat} (fit : ArgsFit argc pathLength)
    (fresh : s.Fresh env) :
    (s.step (.execve argc pathLength env)).exited = s.exited ∧
    ((s.step (.execve argc pathLength env)).created = s.created ∧
        (s.step (.execve argc pathLength env)).state.currentProcess = s.state.currentProcess ∨
      (s.step (.execve argc pathLength env)).created = s.created ++ [(env.process, env.task)] ∧
        (s.step (.execve argc pathLength env)).state.currentProcess = env.process) := by
  have after := inv.execve fit fresh
  simp only [SchedRun.step, isr80hCommand6Execve, if_pos fit] at after ⊢
  rcases processLoad_cases s.state fresh.room with same | ⟨allocated, prepared, pid, bound, empty, load⟩
  · simp only [SchedRun.afterLoad, same]
    exact ⟨trivial, .inl ⟨trivial, trivial⟩⟩
  · rcases load with failed | succeeded
    · simp only [SchedRun.afterLoad, failed]
      exact ⟨trivial, .inl ⟨trivial, trivial⟩⟩
    · simp only [SchedRun.afterLoad, succeeded, Function.update_self] at after ⊢
      refine ⟨trivial, .inr ⟨trivial, ?_⟩⟩
      exact after.owner (env.process, env.task) (List.mem_append_right _ List.mem_cons_self)

theorem Led.execve (led : s.Led first task) {argc : Int} {pathLength : Nat}
    (fit : ArgsFit argc pathLength) (fresh : s.Fresh env) :
    (s.step (.execve argc pathLength env)).Led first task := by
  have after := led.inv.execve fit fresh
  obtain ⟨exited, failed | started⟩ := led.inv.execve_cases fit fresh
  · refine ⟨after, failed.1 ▸ led.head, exited ▸ led.alive, ?_⟩
    rw [newest, failed.1, failed.2]
    exact led.current
  · refine ⟨after, ?_, exited ▸ led.alive, .inr ?_⟩
    · rw [started.1, List.head?_append, led.head]
      rfl
    · rw [newest, started.1, started.2]
      simp

theorem Led.step (led : s.Led first task) {op : SchedOp} (session : InSession first s op) :
    (s.step op).Led first task ∧ s.Returns first task op := by
  cases op with
  | load => exact session.elim
  | execve => exact ⟨led.execve session.1 session.2, trivial⟩
  | exit | exception =>
      obtain ⟨registered, process, current, led⟩ := led.leave session
      exact ⟨led, registered, process, current⟩

/-! ## Callers -/

/-- A process that is no longer the newest one. -/
structure Behind (process : Word) (s : SchedRun) : Prop where
  loaded : process ∈ s.created.map Prod.fst
  older : process ≠ s.newest

variable {process : Word}

theorem Behind.step (behind : s.Behind process) (led : s.Led first task) {op : SchedOp}
    (session : InSession first s op) : (s.step op).Behind process := by
  cases op with
  | load => exact session.elim
  | execve argc pathLength env =>
      have after := (led.inv.execve session.1 session.2).distinct
      obtain ⟨-, failed | started⟩ := led.inv.execve_cases session.1 session.2
      · refine ⟨failed.1 ▸ behind.loaded, ?_⟩
        rw [newest, failed.1]
        exact behind.older
      · rw [started.1, List.map_append] at after
        refine ⟨?_, ?_⟩
        · rw [started.1, List.map_append]
          exact List.mem_append_left _ behind.loaded
        · rw [newest, started.1]
          simpa using (List.nodup_append.mp after).2.2 _ behind.loaded _ List.mem_cons_self
  | exit | exception => exact ⟨behind.loaded, behind.older⟩

/-- The caller of an `execve` that has switched to the new process. -/
theorem Led.behind (led : s.Led first task) {argc : Int} {pathLength : Nat}
    (fit : ArgsFit argc pathLength) (fresh : s.Fresh env)
    (switched : (s.step (.execve argc pathLength env)).state.currentProcess ≠ s.state.currentProcess) :
    (s.step (.execve argc pathLength env)).Behind s.state.currentProcess := by
  obtain ⟨-, failed | started⟩ := led.inv.execve_cases fit fresh
  · exact absurd failed.2 switched
  · refine ⟨?_, ?_⟩
    · rw [started.1, List.map_append]
      exact List.mem_append_left _ led.inv.current_mem
    · rw [newest, started.1]
      simpa [started.2] using switched.symm

end SchedRun

theorem led_booted {process task : Word} (hp : process ≠ 0) (ht : task ≠ 0) :
    (booted process task).Led process task where
  inv := inv_booted hp ht
  head := rfl
  alive := List.not_mem_nil
  current := .inl (List.mem_singleton.mp (inv_booted hp ht).current_mem)

end ConiferOS.Task
