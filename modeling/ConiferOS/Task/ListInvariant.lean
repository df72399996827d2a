import ConiferOS.Lib.LinkedList
import ConiferOS.Lib.Run
import ConiferOS.Task.List

/-! # The task list holds the live tasks in creation order

Insertion at the end and removal at either end keep both directions of the links.
Removal from the middle relinks forward only, so the task behind the removed one
points back to it from then on.
-/

namespace ConiferOS.Task

open Lib Lib.Run

/-- A list together with the tasks that were created and not freed, oldest first. -/
structure TaskState where
  list : TaskList
  live : List Word

inductive TaskOp where
  | taskNew (task process : Word)
  | taskFree (task : Word)

def TaskState.step (s : TaskState) : TaskOp → TaskState
  | .taskNew task process => ⟨(Task.taskNew s.list task 0 process).2, s.live ++ [task]⟩
  | .taskFree task => ⟨Task.taskFree s.list task, s.live.erase task⟩

/-- The heap hands out blocks no live task occupies, and tasks are freed from the list. -/
def TaskState.Legal (s : TaskState) : TaskOp → Prop
  | .taskNew task _ => task ≠ 0 ∧ task ∉ s.live
  | .taskFree task => task ∈ s.live

instance (s : TaskState) (op : TaskOp) : Decidable (s.Legal op) :=
  match op with
  | .taskNew _ _ => inferInstanceAs (Decidable (_ ∧ _))
  | .taskFree _ => inferInstanceAs (Decidable (_ ∈ _))

/-- Both directions of the list agree with the live tasks. -/
structure TaskState.WellLinked (s : TaskState) : Prop where
  visits : ∀ fuel ≥ s.live.length,
    visit (fun t => (s.list.tasks t).next) 0 fuel s.list.head = s.live
  tail : s.list.tail = s.live.getLastD 0
  first : s.live ≠ [] → (s.list.tasks s.list.head).prev = 0
  last : s.live ≠ [] → (s.list.tasks s.list.tail).next = 0
  consecutive : s.live.IsChain fun t u => (s.list.tasks t).next = u ∧ (s.list.tasks u).prev = t
  current : s.list.current ∈ s.live ∨ s.live = [] ∧ s.list.current = 0

/-- The inductive form. -/
structure TaskState.Inv (s : TaskState) : Prop where
  linked : Linked (fun t => (s.list.tasks t).next) (fun t => (s.list.tasks t).prev) 0 s.live 0
  head : s.list.head = s.live.headD 0
  tail : s.list.tail = s.live.getLastD 0
  nodup : s.live.Nodup
  nonnull : 0 ∉ s.live
  current : s.list.current ∈ s.live ∨ s.live = [] ∧ s.list.current = 0

/-- The free is of the oldest or of the newest live task. -/
def TaskState.AtEnd (s : TaskState) : TaskOp → Prop
  | .taskNew _ _ => True
  | .taskFree task => s.live.head? = some task ∨ s.live.getLast? = some task

instance (s : TaskState) (op : TaskOp) : Decidable (s.AtEnd op) :=
  match op with
  | .taskNew _ _ => inferInstanceAs (Decidable True)
  | .taskFree _ => inferInstanceAs (Decidable (_ ∨ _))

namespace TaskState

variable {s : TaskState}

theorem Inv.wellLinked (inv : s.Inv) : s.WellLinked where
  visits := fun fuel enough => by
    rw [inv.head]
    exact inv.linked.visit_eq inv.nonnull enough
  tail := inv.tail
  first := fun nonempty => by
    obtain ⟨x, xs, eq⟩ := List.exists_cons_of_ne_nil nonempty
    have linked := inv.linked
    rw [eq] at linked
    rw [inv.head, eq]
    exact linked.1
  last := fun nonempty => by
    obtain ⟨xs, x, eq⟩ := (List.eq_nil_or_concat' s.live).resolve_left nonempty
    have linked := inv.linked
    rw [eq, Linked.concat_iff] at linked
    rw [inv.tail, eq, List.getLastD_concat]
    exact linked.2.2
  consecutive := inv.linked.isChain
  current := inv.current

theorem inv_empty : Inv ⟨emptyTaskList, []⟩ where
  linked := trivial
  head := rfl
  tail := rfl
  nodup := List.nodup_nil
  nonnull := List.not_mem_nil
  current := .inr ⟨rfl, rfl⟩

theorem Inv.head_eq_zero_iff (inv : s.Inv) : s.list.head = 0 ↔ s.live = [] := by
  rw [inv.head]
  cases live : s.live with
  | nil => simp
  | cons t rest =>
      have nonnull := inv.nonnull
      rw [live, List.mem_cons, not_or] at nonnull
      simpa using Ne.symm nonnull.1

theorem Inv.head_mem (inv : s.Inv) (nonempty : s.live ≠ []) : s.list.head ∈ s.live := by
  obtain ⟨t, rest, live⟩ := List.exists_cons_of_ne_nil nonempty
  rw [inv.head, live]
  exact List.mem_cons_self

theorem Inv.taskNew (inv : s.Inv) {task : Word} (nonnull : task ≠ 0) (fresh : task ∉ s.live)
    (process : Word) : (s.step (.taskNew task process)).Inv := by
  simp only [step, Task.taskNew, if_neg nonnull, ne_eq, not_true_eq_false, if_false, if_true,
    TaskList.setTask_head]
  obtain empty | ⟨init, last, live⟩ := List.eq_nil_or_concat' s.live
  · rw [if_pos (inv.head_eq_zero_iff.mpr empty), empty]
    exact ⟨⟨by simp, by simp, trivial⟩, rfl, rfl, List.nodup_singleton task,
      by simpa using nonnull.symm, .inl (by simp)⟩
  · have nonempty : s.live ≠ [] := by simp [live]
    rw [if_neg (mt inv.head_eq_zero_iff.mp nonempty)]
    have tail : s.list.tail = last := by rw [inv.tail, live, List.getLastD_concat]
    have linked := inv.linked
    have nodup := inv.nodup
    rw [live, Linked.concat_iff] at linked
    rw [live, List.nodup_append] at nodup
    have outside : task ∉ init ∧ task ≠ last := by simpa [live] using fresh
    have apart : last ∉ init := fun member => nodup.2.2 last member last (by simp) rfl
    refine ⟨?_, ?_, ?_, ?_, ?_, ?_⟩
    · rw [live, Linked.concat_iff, Linked.concat_iff]
      refine ⟨⟨linked.1.congr fun t member => ?_, ?_, ?_⟩, ?_, ?_⟩
      · have notTask : t ≠ task := fun same => outside.1 (same ▸ member)
        have notLast : t ≠ last := fun same => apart (same ▸ member)
        simp [tail, notTask, notLast]
      · simp [outside.2.symm, linked.2.1]
      · simp [tail, outside.2.symm]
      · simp [tail]
      · simp
    · simp [inv.head, live]
    · simp
    · exact List.nodup_append.mpr ⟨inv.nodup, List.nodup_singleton task, by
        rintro t member u single rfl
        exact fresh (List.mem_singleton.mp single ▸ member)⟩
    · exact fun member => (List.mem_append.mp member).elim inv.nonnull
        fun single => nonnull (List.mem_singleton.mp single).symm
    · left
      obtain member | ⟨empty, -⟩ := inv.current
      · simpa using Or.inl member
      · exact absurd empty nonempty

/-- The task that runs stays the current one, unless it is the one that is freed. -/
theorem Inv.current_taskListRemove (inv : s.Inv) {task : Word} (member : task ∈ s.live)
    (same : (taskListUnlink s.list task).current = s.list.current)
    (next : s.list.current = task → taskGetNext (taskListUnlink s.list task) ∈ s.live.erase task) :
    (taskListRemove s.list task).current ∈ s.live.erase task := by
  rw [taskListRemove_current, same]
  split
  case isTrue was => exact next was.symm
  case isFalse isnt =>
    obtain current | ⟨empty, -⟩ := inv.current
    · exact (List.mem_erase_of_ne (Ne.symm isnt)).mpr current
    · simp [empty] at member

theorem Inv.taskFree_first (inv : s.Inv) {task : Word} {rest : List Word}
    (live : s.live = task :: rest) : (s.step (.taskFree task)).Inv := by
  have linked := inv.linked
  have nodup := inv.nodup
  have nonnull := inv.nonnull
  have head : s.list.head = task := by rw [inv.head, live, List.headD_cons]
  rw [live] at linked nodup nonnull
  rw [List.mem_cons, not_or] at nonnull
  obtain ⟨back, forth, linked⟩ := linked
  obtain ⟨outside, nodup⟩ := List.nodup_cons.mp nodup
  simp only [step, live, List.erase_cons_head, taskFree]
  cases rest with
  | nil =>
      have tail : s.list.tail = task := by rw [inv.tail, live, List.getLastD_cons]; rfl
      have unlink : taskListUnlink s.list task =
          { s.list with head := 0, tail := 0, current := 0 } := by
        rw [taskListUnlink, if_pos ⟨head.symm, tail.symm⟩]
      rw [taskListRemove, unlink, if_neg (Ne.symm nonnull.1)]
      exact ⟨trivial, rfl, rfl, List.nodup_nil, List.not_mem_nil, .inr ⟨rfl, rfl⟩⟩
  | cons second others =>
      have tail : s.list.tail = others.getLastD second := by
        rw [inv.tail, live, List.getLastD_cons, List.getLastD_cons]
      have inRest : s.list.tail ∈ second :: others := tail ▸ List.getLastD_mem_cons
      have unlink : taskListUnlink s.list task =
          TaskList.setPrev { s.list with head := second } second 0 := by
        have notOnly : ¬ (task = s.list.head ∧ task = s.list.tail) :=
          fun both => outside (both.2 ▸ inRest)
        rw [taskListUnlink, if_neg notOnly, if_pos head.symm]
        simp only [forth, List.headD_cons]
      have onto : second ≠ 0 := fun null => nonnull.2 (null ▸ List.mem_cons_self)
      have current := inv.current_taskListRemove (live ▸ List.mem_cons_self) (by rw [unlink]; rfl) (by
        intro here
        rw [unlink, live, List.erase_cons_head]
        simp only [taskGetNext, TaskList.setPrev_current, TaskList.setPrev_next, here, forth,
          List.headD_cons, if_neg onto]
        exact List.mem_cons_self)
      rw [live, List.erase_cons_head] at current
      obtain ⟨-, onward, linked⟩ := linked
      refine ⟨⟨?_, ?_, ?_⟩, ?_, ?_, nodup, nonnull.2, .inl current⟩
      · simp [unlink]
      · simpa [unlink] using onward
      · refine linked.congr fun t member => ?_
        have apart : t ≠ second := fun same => (List.nodup_cons.mp nodup).1 (same ▸ member)
        simp [unlink, apart]
      · simp [unlink]
      · rw [List.getLastD_cons, taskListRemove_tail, unlink]
        exact tail

theorem Inv.taskFree_last (inv : s.Inv) {task : Word} {init : List Word} (nonempty : init ≠ [])
    (live : s.live = init ++ [task]) : (s.step (.taskFree task)).Inv := by
  obtain ⟨front, last, rfl⟩ := (List.eq_nil_or_concat' init).resolve_left nonempty
  have linked := inv.linked
  have nodup := inv.nodup
  have nonnull := inv.nonnull
  rw [live, Linked.concat_iff, Linked.concat_iff, List.getLastD_concat] at linked
  obtain ⟨⟨linked, back, -⟩, toLast, toNull⟩ := linked
  rw [live] at nodup nonnull
  obtain ⟨nodup, -, apart⟩ := List.nodup_append.mp nodup
  have outside : task ∉ front ++ [last] := fun member => apart task member task (by simp) rfl
  have nonnull : 0 ∉ front ++ [last] := fun member => nonnull (List.mem_append_left _ member)
  have tail : s.list.tail = task := by rw [inv.tail, live, List.getLastD_concat]
  have head : s.list.head = (front ++ [last]).headD 0 := by
    rw [inv.head, live]
    cases front <;> rfl
  have headMem : s.list.head ∈ front ++ [last] := by
    rw [head]
    cases front <;> simp
  have unlink : taskListUnlink s.list task =
      TaskList.setNext { s.list with tail := last } last 0 := by
    have notHead : task ≠ s.list.head := fun same => outside (same ▸ headMem)
    rw [taskListUnlink, if_neg fun both => notHead both.1, if_neg notHead, if_pos tail.symm]
    simp only [toLast]
  have erased : s.live.erase task = front ++ [last] := by
    rw [live, List.erase_append_right _ outside, List.erase_cons_head, List.append_nil]
  have member : task ∈ s.live := by simp [live]
  have current := inv.current_taskListRemove member (by rw [unlink]; rfl) (by
    intro here
    have other : task ≠ last := fun same => outside (by simp [same])
    rw [unlink, erased]
    simp only [taskGetNext, TaskList.setNext_current, TaskList.setNext_next, here, if_neg other,
      toNull, if_true, TaskList.setNext_head]
    exact headMem)
  rw [erased] at current
  simp only [step, erased, taskFree]
  refine ⟨?_, ?_, ?_, nodup, nonnull, .inl current⟩
  · rw [Linked.concat_iff]
    refine ⟨linked.congr fun t member => ?_, ?_, ?_⟩
    · have other : t ≠ last := fun same =>
        (List.nodup_append.mp nodup).2.2 t member last (by simp) same
      simp [unlink, other]
    · simpa [unlink] using back
    · simp [unlink]
  · rw [taskListRemove_head, unlink]
    exact head
  · rw [List.getLastD_concat, taskListRemove_tail, unlink]
    rfl

/-- After a removal from the middle the next task still points back to the removed one. -/
theorem Inv.taskFree_middle (inv : s.Inv) {task : Word} {before after : List Word}
    (hasBefore : before ≠ []) (hasAfter : after ≠ []) (live : s.live = before ++ task :: after) :
    ¬ (s.step (.taskFree task)).WellLinked := by
  intro well
  obtain ⟨front, last, rfl⟩ := (List.eq_nil_or_concat' before).resolve_left hasBefore
  obtain ⟨second, others, rfl⟩ := List.exists_cons_of_ne_nil hasAfter
  have linked := inv.linked
  have nodup := inv.nodup
  rw [live, Linked.append_iff] at linked
  obtain ⟨-, -, -, back, -⟩ := linked
  rw [live] at nodup
  obtain ⟨-, nodup, apart⟩ := List.nodup_append.mp nodup
  have notBefore : task ∉ front ++ [last] :=
    fun member => apart task member task List.mem_cons_self rfl
  have notAfter : task ∉ second :: others := (List.nodup_cons.mp nodup).1
  have head : task ≠ s.list.head := by
    have first : s.list.head ∈ front ++ [last] := by
      rw [inv.head, live]
      cases front <;> simp
    exact fun same => notBefore (same ▸ first)
  have tail : task ≠ s.list.tail := by
    have final : s.list.tail = others.getLastD second := by
      rw [inv.tail, live]
      simp [List.getLast?_cons]
    exact fun same => notAfter (same ▸ final ▸ List.getLastD_mem_cons)
  have chain := well.consecutive
  simp only [step, live, List.erase_append_right _ notBefore, List.erase_cons_head, taskFree,
    taskListRemove_tasks, taskListUnlink, if_neg (fun both : task = _ ∧ _ => head both.1),
    if_neg head, if_neg tail, TaskList.setNext_prev] at chain
  have pointsBack := (List.isChain_append.mp chain).2.2 last (by simp) second (by simp)
  exact notBefore (by simp [← back, pointsBack.2])

/-- Switching to a task of the list. -/
theorem Inv.taskExec (inv : s.Inv) {task : Word} (member : task ∈ s.live) :
    Inv ⟨Task.taskExec s.list task, s.live⟩ :=
  ⟨inv.linked, inv.head, inv.tail, inv.nodup, inv.nonnull, .inl member⟩

theorem Inv.step (inv : s.Inv) {op : TaskOp} (legal : s.Legal op) (atEnd : s.AtEnd op) :
    (s.step op).Inv := by
  cases op with
  | taskNew task process => exact inv.taskNew legal.1 legal.2 process
  | taskFree task =>
      rcases atEnd with first | last
      · obtain ⟨rest, live⟩ := List.head?_eq_some_iff.mp first
        exact inv.taskFree_first live
      · obtain ⟨init, live⟩ := List.getLast?_eq_some_iff.mp last
        cases init with
        | nil => exact inv.taskFree_first live
        | cons t ts => exact inv.taskFree_last (List.cons_ne_nil t ts) live

/-- A step keeps a well-formed list well linked exactly when it works at an end. -/
theorem Inv.wellLinked_iff (inv : s.Inv) {op : TaskOp} (legal : s.Legal op) :
    (s.step op).WellLinked ↔ s.AtEnd op := by
  refine ⟨fun well => ?_, fun atEnd => (inv.step legal atEnd).wellLinked⟩
  cases op with
  | taskNew => trivial
  | taskFree task =>
      obtain ⟨before, after, live⟩ := List.append_of_mem legal
      cases before with
      | nil => exact .inl (by simp [live])
      | cons t ts =>
          cases after with
          | nil => exact .inr (List.getLast?_eq_some_iff.mpr ⟨t :: ts, live⟩)
          | cons u us =>
              have broken := inv.taskFree_middle (List.cons_ne_nil t ts) (List.cons_ne_nil u us) live
              exact absurd well broken

end TaskState

/-- Over every run of insertions and removals, the list stays well linked exactly when
    no removal takes a task from between two others. -/
theorem task_list_well_linked_iff (ops : List TaskOp)
    (legal : Always TaskState.step TaskState.Legal ⟨emptyTaskList, []⟩ ops) :
    Always TaskState.step (fun s op => (s.step op).WellLinked) ⟨emptyTaskList, []⟩ ops ↔
      Always TaskState.step TaskState.AtEnd ⟨emptyTaskList, []⟩ ops :=
  Always.iff_of_invariant TaskState.Inv (fun _ _ inv legal => inv.wellLinked_iff legal)
    (fun _ _ inv legal atEnd => inv.step legal atEnd) TaskState.inv_empty legal

theorem task_list_well_linked_iff_oldest_freed :
    Always TaskState.step (fun s op => (s.step op).WellLinked) ⟨emptyTaskList, []⟩
      [.taskNew 0x1000 0, .taskNew 0x2000 0, .taskFree 0x1000] :=
  (task_list_well_linked_iff _ (by decide)).mpr (by decide)

/-- Three tasks, the second one freed: the third still points back to it. -/
theorem task_list_broken_second_freed :
    let ops : List TaskOp :=
      [.taskNew 0x1000 0, .taskNew 0x2000 0, .taskNew 0x3000 0, .taskFree 0x2000]
    Always TaskState.step TaskState.Legal ⟨emptyTaskList, []⟩ ops ∧
      ¬ Always TaskState.step (fun s op => (s.step op).WellLinked) ⟨emptyTaskList, []⟩ ops := by
  refine ⟨by decide, ?_⟩
  rintro ⟨-, -, -, well, -⟩
  exact absurd well.consecutive (by decide)

end ConiferOS.Task
