import ConiferOS.Task.ListInvariant

/-! # Round robin

`task_exec(task_get_next())` over and over: the tasks of the list become the current one in
turn, in the order in which they were created, and after the last one it is the first one's
turn again.
-/

namespace ConiferOS.Task

open Lib Lib.Run

/-- The list after successful `task_new` calls: the block that `kzalloc` returned and the
    process, for each of them. -/
def created (calls : List (Word × Word)) : TaskList :=
  calls.foldl (fun s call => (taskNew s call.1 0 call.2).2) emptyTaskList

def switch (s : TaskList) : TaskList := taskExec s (taskGetNext s)

/-- The tasks that `n` switches make the current one, and the list behind them. -/
def switches (s : TaskList) : (n : Nat) → List Word × TaskList
  | 0 => ([], s)
  | n + 1 =>
      let (later, last) := switches (switch s) n
      ((switch s).current :: later, last)

section Turns

variable {s : TaskState} {i : Nat}

theorem TaskState.Inv.getD_ne_zero (inv : s.Inv) (inside : i < s.live.length) :
    s.live.getD i 0 ≠ 0 := by
  intro null
  rw [List.getD_eq_getElem _ _ inside] at null
  exact inv.nonnull (null ▸ List.getElem_mem inside)

/-- The tail is followed by the head. -/
theorem TaskState.Inv.taskGetNext_eq (inv : s.Inv) (inside : i < s.live.length)
    (current : s.list.current = s.live.getD i 0) :
    taskGetNext s.list = s.live.getD ((i + 1) % s.live.length) 0 := by
  have next := inv.linked.next_getD 0 inside
  rw [taskGetNext, current, next]
  by_cases last : i + 1 = s.live.length
  · rw [last, Nat.mod_self, List.getD_eq_default _ _ le_rfl, if_pos rfl, inv.head,
      List.headD_eq_head?_getD, List.head?_eq_getElem?, List.getD_eq_getElem?_getD]
  · have further : i + 1 < s.live.length := by omega
    rw [Nat.mod_eq_of_lt further, if_neg (inv.getD_ne_zero further)]

/-- The list itself stays, the turn goes round. -/
theorem switches_eq (inv : s.Inv) (inside : i < s.live.length)
    (current : s.list.current = s.live.getD i 0) (n : Nat) :
    switches s.list n =
      ((List.range n).map fun k => s.live.getD ((i + 1 + k) % s.live.length) 0,
        { s.list with current := s.live.getD ((i + n) % s.live.length) 0 }) := by
  induction n generalizing s i with
  | zero =>
      have here : s.live.getD ((i + 0) % s.live.length) 0 = s.list.current := by
        rw [Nat.add_zero, Nat.mod_eq_of_lt inside, current]
      rw [here]
      rfl
  | succ n ih =>
      have turn : (i + 1) % s.live.length < s.live.length := Nat.mod_lt _ (by omega)
      have member : s.live.getD ((i + 1) % s.live.length) 0 ∈ s.live := by
        rw [List.getD_eq_getElem _ _ turn]
        exact List.getElem_mem turn
      have later := ih (inv.taskExec member) turn rfl
      simp only [Nat.mod_add_mod, add_assoc] at later
      rw [switches, switch, inv.taskGetNext_eq inside current, later, List.range_succ_eq_map]
      simp [taskExec, Function.comp_def, add_assoc, add_comm]

/-- The tasks behind the current one, those before it, and the current one in the end. -/
theorem turns_eq_rotate (live : List Word) (i : Nat) :
    ((List.range live.length).map fun k => live.getD ((i + 1 + k) % live.length) 0) =
      live.rotate (i + 1) := by
  apply List.ext_getElem
  · simp
  · intro k inside _
    have positive : 0 < live.length := by
      simp only [List.length_map, List.length_range] at inside
      omega
    rw [List.getElem_map, List.getElem_range, List.getElem_rotate,
      List.getD_eq_getElem _ _ (Nat.mod_lt _ positive)]
    simp only [add_comm, add_left_comm]

end Turns

/-! ## Lists that were only added to -/

theorem created_inv {calls : List (Word × Word)} (nonnull : ∀ call ∈ calls, call.1 ≠ 0)
    (distinct : (calls.map (·.1)).Nodup) : TaskState.Inv ⟨created calls, calls.map (·.1)⟩ := by
  induction calls using List.reverseRecOn with
  | nil => exact TaskState.inv_empty
  | append_singleton calls call ih =>
      simp only [List.map_append, List.map_cons, List.map_nil, List.nodup_append] at distinct
      have fresh : call.1 ∉ calls.map (·.1) := fun member => distinct.2.2 _ member _ (by simp) rfl
      have before := ih (fun c member => nonnull c (by simp [member])) distinct.1
      have after := before.taskNew (nonnull call (by simp)) fresh call.2
      simpa [created, TaskState.step] using after

/-- From any task of the list, as many switches as there are tasks make each of them the
    current one, once, and come back. -/
theorem rotation_visits_each {calls : List (Word × Word)} (nonnull : ∀ call ∈ calls, call.1 ≠ 0)
    (distinct : (calls.map (·.1)).Nodup) {start : Word} (member : start ∈ calls.map (·.1)) :
    (switches (taskExec (created calls) start) calls.length).1.Perm (calls.map (·.1)) ∧
      (switches (taskExec (created calls) start) calls.length).2.current = start := by
  obtain ⟨i, inside, here⟩ := List.mem_iff_getElem.mp member
  have inv := (created_inv nonnull distinct).taskExec member
  have current : start = (calls.map (·.1)).getD i 0 := by
    rw [List.getD_eq_getElem _ _ inside, here]
  have turns := switches_eq inv inside current (calls.map (·.1)).length
  rw [turns_eq_rotate, List.length_map] at turns
  rw [turns]
  refine ⟨List.rotate_perm _ _, ?_⟩
  rw [List.length_map] at inside
  simp only [Nat.add_mod_right, Nat.mod_eq_of_lt inside, ← current]

def threeCalls : List (Word × Word) := [(0x1000, 0x8000), (0x2000, 0x9000), (0x3000, 0xA000)]

/-- From the second of three tasks. -/
theorem rotation_visits_each_three :
    (switches (taskExec (created threeCalls) 0x2000) 3).1.Perm [0x1000, 0x2000, 0x3000] ∧
      (switches (taskExec (created threeCalls) 0x2000) 3).2.current = 0x2000 := by
  have nonnull : ∀ call ∈ threeCalls, call.1 ≠ 0 := by simp [threeCalls]
  have distinct : (threeCalls.map (·.1)).Nodup := by simp [threeCalls]
  have member : 0x2000 ∈ threeCalls.map (·.1) := by simp [threeCalls]
  exact rotation_visits_each nonnull distinct member

end ConiferOS.Task
