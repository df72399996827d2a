import ConiferOS.Kernel.Calls
import ConiferOS.Kernel.LoadSteps
import ConiferOS.Memory.Ends

/-! # Loads that fail

A load that fails should leave everything as it was. It does so when it is refused for
want of a slot. Once it has its `struct process` it makes more allocations than it ever
frees, on every way out: the struct is never freed, and neither are the argument block
and, with the addresses that `free_page_tables` computes, the page tables.
-/

namespace ConiferOS.Kernel

open Heap Paging Process
open ConiferOS.Task (TaskList)

/-! ## What should be the same -/

/-- The tasks one comes to from the head of the list. -/
inductive Listed (list : TaskList) : Word → Prop where
  | head : list.head ≠ 0 → Listed list list.head
  | next {task : Word} : Listed list task → (list.tasks task).next ≠ 0 →
      Listed list (list.tasks task).next

/-- The process table, the task list with the current task, the table of open files and
    the block table of the heap. -/
structure State.Unchanged (s later : State) : Prop where
  processes : later.processes = s.processes
  head : later.res.tasks.head = s.res.tasks.head
  tail : later.res.tasks.tail = s.res.tasks.tail
  current : later.res.tasks.current = s.res.tasks.current
  listed : ∀ task, Listed s.res.tasks task → later.res.tasks.tasks task = s.res.tasks.tasks task
  openFiles : later.res.openFiles = s.res.openFiles
  blocks : SameTable s.res.heap later.res.heap

/-- Requests of the file layer are for at least one block. -/
def Sized (ops : List FileOp) : Prop := ∀ size, FileOp.alloc size ∈ ops → 0 < blocksFor size

structure FileAccess.Sized (access : FileAccess) : Prop where
  opening : Kernel.Sized access.opening
  reading : Kernel.Sized access.reading
  closing : Kernel.Sized access.closing

/-! ## The balance of allocations -/

/-- Besides what the file layer holds, there are `k` allocations more than `base`. -/
structure Surplus (base k : Nat) (r : Resources) : Prop where
  table : KernelTable r.heap
  counted : base + k + r.held.length ≤ r.heap.ends.card

namespace Surplus

variable {base k : Nat} {r later : Resources} {size ptr : Word}

theorem malloc (surplus : Surplus base k r) (pos : 0 < blocksFor size)
    (nonnull : (heapMalloc r.heap size).1 ≠ 0) :
    Surplus base (k + 1) { r with heap := (heapMalloc r.heap size).2 } := by
  have found := not_lt.mp (mt (surplus.table.heapMalloc_null_iff size).mpr nonnull)
  refine ⟨surplus.table.malloc size, ?_⟩
  have more := ends_heapMalloc pos found
  have counted := surplus.counted
  change base + (k + 1) + r.held.length ≤ (heapMalloc r.heap size).2.ends.card
  omega

theorem malloc_failed (surplus : Surplus base k r) (null : (heapMalloc r.heap size).1 = 0) :
    Surplus base k { r with heap := (heapMalloc r.heap size).2 } := by
  rw [KernelHeap.heapMalloc_failed ((surplus.table.heapMalloc_null_iff size).mp null)]
  exact surplus

theorem of_le (surplus : Surplus base k r) {j : Nat} (le : j ≤ k) : Surplus base j r :=
  ⟨surplus.table, by have := surplus.counted; omega⟩

theorem free (surplus : Surplus base (k + 1) r) (ptr : Word) : Surplus base k (r.free ptr) := by
  refine ⟨surplus.table.kfree ptr, ?_⟩
  have less := ends_kfree r.heap ptr
  have counted := surplus.counted
  change base + k + r.held.length ≤ (kfree r.heap ptr).ends.card
  omega

theorem freeAll {ptrs : List Word} (surplus : Surplus base (k + ptrs.length) r) :
    Surplus base k (r.freeAll ptrs) := by
  induction ptrs generalizing r with
  | nil => exact surplus
  | cons ptr ptrs ih => exact ih (surplus.free ptr)

theorem fileOp (surplus : Surplus base k r) {op : FileOp}
    (sized : ∀ size, op = .alloc size → 0 < blocksFor size) : Surplus base k (r.fileOp op) := by
  cases op with
  | alloc size =>
      by_cases null : (heapMalloc r.heap size).1 = 0
      · simp only [Resources.fileOp, null, if_true]
        exact surplus.malloc_failed null
      · simp only [Resources.fileOp, null, if_false]
        obtain ⟨table, counted⟩ := surplus.malloc (sized size rfl) null
        refine ⟨table, ?_⟩
        simp only [List.length_cons] at counted ⊢
        omega
  | release j =>
      simp only [Resources.fileOp]
      split
      case h_1 => exact surplus
      case h_2 ptr held =>
        obtain ⟨inside, -⟩ := List.getElem?_eq_some_iff.mp held
        refine ⟨surplus.table.kfree ptr, ?_⟩
        have less := ends_kfree r.heap ptr
        have counted := surplus.counted
        change base + k + (r.held.eraseIdx j).length ≤ (kfree r.heap ptr).ends.card
        rw [List.length_eraseIdx_of_lt inside]
        omega

theorem fileOps (surplus : Surplus base k r) {ops : List FileOp} (sized : Sized ops) :
    Surplus base k (r.fileOps ops) := by
  induction ops generalizing r with
  | nil => exact surplus
  | cons op ops ih =>
      refine ih (surplus.fileOp ?_) fun size member => sized size (List.mem_cons_of_mem op member)
      rintro size rfl
      exact sized size List.mem_cons_self

theorem fopen (surplus : Surplus base k r) {access : FileAccess} (sized : access.Sized) :
    Surplus base k (r.fopen access).2 := by
  have opened := surplus.fileOps sized.opening
  simp only [Resources.fopen]
  split
  case isTrue => exact opened
  case isFalse =>
    split
    · exact opened
    · exact ⟨opened.table, opened.counted⟩

theorem fclose (surplus : Surplus base k r) {access : FileAccess} (sized : access.Sized) (fd : Nat) :
    Surplus base k (r.fclose access fd) :=
  ⟨(surplus.fileOps sized.closing).table, (surplus.fileOps sized.closing).counted⟩

theorem alloc (surplus : Surplus base k r) (run : r.alloc (kzalloc · size) = some (ptr, later)) :
    (ptr = 0 → Surplus base k later) ∧ (ptr ≠ 0 → 0 < blocksFor size → Surplus base (k + 1) later) := by
  obtain ⟨rfl, rfl⟩ := Resources.alloc_kzalloc run
  exact ⟨surplus.malloc_failed, fun nonnull pos => surplus.malloc pos nonnull⟩

/-- A request for no blocks that is taken back at once. -/
theorem alloc_free_empty (surplus : Surplus base k r) (empty : blocksFor size = 0)
    (run : r.alloc (kzalloc · size) = some (ptr, later)) : Surplus base k (later.free ptr) := by
  obtain ⟨rfl, rfl⟩ := Resources.alloc_kzalloc run
  refine ⟨(surplus.table.malloc size).kfree _, le_trans surplus.counted ?_⟩
  exact surplus.table.ends_malloc_free_empty empty

theorem allocUsed (surplus : Surplus base k r) (nonempty : size ≠ 0)
    (run : r.alloc (kzallocUsed · size) = some (ptr, later)) : Surplus base (k + 1) later := by
  obtain ⟨heap, used, rfl⟩ := Resources.alloc_eq_some run
  obtain ⟨served, nonnull⟩ := kzallocUsed_eq_some used
  have pos := surplus.table.blocksFor_pos served nonnull nonempty
  obtain ⟨-, rfl, rfl⟩ := kzalloc_eq_some served
  exact surplus.malloc pos nonnull

theorem allocAll {sizes ptrs : List Word} (surplus : Surplus base k r) (nonempty : 0 ∉ sizes)
    (run : r.alloc (kzallocAll · sizes) = some (ptrs, later)) :
    ptrs.length = sizes.length ∧ Surplus base (k + sizes.length) later := by
  induction sizes generalizing k r ptrs with
  | nil =>
      cases run
      exact ⟨rfl, surplus⟩
  | cons size sizes ih =>
      obtain ⟨ptr, rest, next, first, others, rfl⟩ := Resources.alloc_kzallocAll_cons run
      have one : Surplus base (k + 1) next :=
        surplus.allocUsed (fun zero => nonempty (zero ▸ List.mem_cons_self)) first
      obtain ⟨length, all⟩ := ih one (fun zero => nonempty (List.mem_cons_of_mem size zero)) others
      refine ⟨congrArg (· + 1) length, ?_⟩
      rw [List.length_cons, Nat.add_comm sizes.length, ← Nat.add_assoc]
      exact all

/-- Everything counted is in the table. -/
theorem not_sameTable {heap : HeapDesc} (surplus : Surplus heap.ends.card (k + 1) r)
    (table : KernelTable heap) : ¬ SameTable heap r.heap := by
  have counted := surplus.counted
  exact not_sameTable_of_ends (surplus.table.total.trans table.total.symm) (by omega)

end Surplus

/-! ## The ways out of a load -/

/-- The allocations that the process takes over. -/
def ElfResult.kept : ElfResult → Nat
  | .loaded _ _ _ => 2
  | .badFormat => 0
  | .failed => 0

section Load

variable {base k : Nat} {r later : Resources} {file : LoadFile}

theorem ElfOpened.surplus {elfFile : Word} {fd : Option Nat} (isOpen : ElfOpened r file elfFile fd later)
    (surplus : Surplus base k r) (sized : file.asElf.Sized) : Surplus base (k + 1) later := by
  obtain ⟨struct, nonnull, opened⟩ := isOpen
  have opening := ((surplus.alloc struct).2 nonnull (by decide)).fopen sized
  rwa [opened] at opening

theorem ElfBuffered.surplus {elfFile buffer : Word} {fd : Nat}
    (asked : ElfBuffered r file elfFile fd buffer later) (surplus : Surplus base k r)
    (sized : file.asElf.Sized) : Surplus base (k + 2) later := by
  obtain ⟨isOpen, nonempty, buffered⟩ := asked
  exact ((isOpen.surplus surplus sized).allocUsed nonempty buffered).fileOps sized.reading

theorem ElfInit.surplus {result : ElfResult} (init : ElfInit r file later result) (surplus : Surplus base k r)
    (sized : file.asElf.Sized) : Surplus base (k + result.kept) later := by
  cases init with
  | unallocated refused => exact (surplus.alloc refused).1 rfl
  | unopened isOpen => exact (isOpen.surplus surplus sized).free _
  | directory isOpen => exact (isOpen.surplus surplus sized).free _
  | empty isOpen empty buffered =>
      have same := (isOpen.surplus surplus sized).alloc_free_empty (by rw [empty]; decide) buffered
      exact same.free _
  | unread asked => exact ((asked.surplus surplus sized).free _).free _
  | badFormat asked => exact (((asked.surplus surplus sized).free _).free _).fclose sized _
  | loaded asked => exact (asked.surplus surplus sized).fclose sized _

theorem ElfInit.nonempty (init : ElfInit r file later .badFormat) : file.size ≠ 0 := by
  cases init with
  | badFormat asked =>
      obtain ⟨-, nonempty, -⟩ := asked
      exact nonempty

/-- How many blocks `process_free` frees for the executable. -/
def pointerCount : Option Image → Nat
  | none => 0
  | some image => image.pointers.length

theorem BinaryLoad.surplus {image : Option Image} (load : BinaryLoad r file later image)
    (surplus : Surplus base k r) (sized : file.asBinary.Sized) (nonempty : file.size ≠ 0) :
    Surplus base (k + pointerCount image) later := by
  have opening := surplus.fopen sized
  cases load with
  | unopened opened => rwa [opened] at opening
  | directory opened =>
      rw [opened] at opening
      exact opening.fclose sized _
  | unallocated isOpen refused =>
      rw [isOpen] at opening
      exact ((opening.alloc refused).1 rfl).fclose sized _
  | asked isOpen buffered nonnull read =>
      rw [isOpen] at opening
      obtain ⟨heap, used, -⟩ := Resources.alloc_eq_some buffered
      have pos := opening.table.blocksFor_pos used nonnull nonempty
      have closed := (((opening.alloc buffered).2 nonnull pos).fileOps sized.reading).fclose sized
      rcases read with rfl | rfl
      · exact (closed _).of_le (Nat.le_succ k)
      · exact closed _

theorem DataLoad.surplus {image : Option Image} (load : DataLoad r file later image)
    (surplus : Surplus base k r) (asElf : file.asElf.Sized) (asBinary : file.asBinary.Sized) :
    Surplus base (k + pointerCount image) later := by
  cases load with
  | elf init => exact init.surplus surplus asElf
  | binary init load => exact load.surplus (init.surplus surplus asElf) asBinary init.nonempty
  | failed init => exact init.surplus surplus asElf

theorem initPageTables_surplus {tables : PageTables} (surplus : Surplus base k r)
    (run : r.initPageTables = some (tables, later)) :
    Surplus base (k + (tables.ptes.length + 2)) later := by
  obtain ⟨r₁, r₂, first, second, third⟩ := initPageTables_cases run
  have directory := surplus.allocUsed (by decide) first
  obtain ⟨length, full⟩ := directory.allocAll (by simp [pagingTableEntries]) second
  have all := full.allocUsed (by decide) third
  exact all.of_le (by omega)

/-- All that `task_free` frees are as many addresses as the task has blocks. -/
theorem taskFree_surplus {task : Word} {tables : PageTables}
    (surplus : Surplus base (k + (tables.ptes.length + 3)) r) :
    Surplus base k (r.taskFree task tables) := by
  have entries : Surplus base (k + 3) (r.freeAll (tables.ptes.map freedPageTable)) :=
    (surplus.of_le (by rw [List.length_map]; omega)).freeAll
  have blocks := (entries.free tables.pgd).free tables.paging
  have unlinked : Surplus base (k + 1)
      { r.freePageTables tables with tasks := Task.taskFree (r.freePageTables tables).tasks task } :=
    ⟨blocks.table, blocks.counted⟩
  exact unlinked.free task

theorem WithImage.surplus {process : Word} {image : Option Image}
    (loaded : WithImage r file process image later) (surplus : Surplus base k r)
    (asElf : file.asElf.Sized) (asBinary : file.asBinary.Sized) :
    Surplus base (k + 1 + pointerCount image) later := by
  obtain ⟨struct, nonnull, data⟩ := loaded
  exact (processLoadData_cases data).surplus ((surplus.alloc struct).2 nonnull (by decide)) asElf asBinary

theorem WithStack.surplus {process stackAddr : Word} {image : Image}
    (made : WithStack r file process image stackAddr later) (surplus : Surplus base k r)
    (asElf : file.asElf.Sized) (asBinary : file.asBinary.Sized) (stackAddr_ne : stackAddr ≠ 0) :
    Surplus base (k + 1 + 1 + image.pointers.length) later := by
  obtain ⟨executable, stack⟩ := made
  have both := ((executable.surplus surplus asElf asBinary).alloc stack).2 stackAddr_ne (by decide)
  exact both.of_le (by rw [pointerCount]; omega)

theorem WithTask.surplus {process stackAddr argBlock task : Word} {image : Image} {tables : PageTables}
    (made : WithTask r file process image stackAddr argBlock task tables later)
    (surplus : Surplus base k r) (asElf : file.asElf.Sized) (asBinary : file.asBinary.Sized) :
    Surplus base (k + 1 + 1 + image.pointers.length + (tables.ptes.length + 3)) later := by
  obtain ⟨stack, stackAddr_ne, args, argBlock_ne, struct, pages⟩ := made
  have withArgs := ((stack.surplus surplus asElf asBinary stackAddr_ne).alloc args).2 argBlock_ne (by decide)
  have all := initPageTables_surplus (withArgs.allocUsed (by decide) struct) pages
  exact ⟨all.table, (all.of_le (by omega)).counted⟩

/-- A load that has got its `struct process` and fails keeps at least that. -/
theorem processLoadForSlot_surplus {pid : Nat} (table : KernelTable r.heap) (none : r.held = [])
    (asElf : file.asElf.Sized) (asBinary : file.asBinary.Sized)
    (room : (heapMalloc r.heap sizeofProcess).1 ≠ 0)
    (run : processLoadForSlot r pid file = some (later, Option.none)) :
    Surplus r.heap.ends.card 1 later := by
  have start : Surplus r.heap.ends.card 0 r := ⟨table, by rw [none]; exact le_rfl⟩
  cases processLoadForSlot_cases run with
  | unallocated refused =>
      obtain ⟨null, -⟩ := Resources.alloc_kzalloc refused
      exact absurd null room
  | unloaded struct => exact struct.surplus start asElf asBinary
  | noStack refused =>
      obtain ⟨executable, stack⟩ := refused
      exact (((executable.surplus start asElf asBinary).alloc stack).1 rfl).freeAll
  | noArgs stack stackAddr_ne refused =>
      have both := stack.surplus start asElf asBinary stackAddr_ne
      exact ((both.alloc refused).1 rfl).freeAll.free _
  | unmapped made _ => exact (taskFree_surplus (made.surplus start asElf asBinary)).freeAll.free _

end Load

/-! ## Loads that change nothing -/

theorem Resources.freeAll_eq (r : Resources) (ptrs : List Word) :
    r.freeAll ptrs = { r with heap := ptrs.foldl kfree r.heap } := by
  induction ptrs generalizing r with
  | nil => rfl
  | cons ptr ptrs ih => exact ih (r.free ptr)

theorem State.processGetFreeSlot_eq_none (s : State) :
    s.processGetFreeSlot = none ↔ ∀ pid < maxProcesses, s.processes pid ≠ none := by
  simp [processGetFreeSlot, List.find?_eq_none]

theorem State.Unchanged.refl (s : State) : s.Unchanged s :=
  ⟨rfl, rfl, rfl, rfl, fun _ _ => rfl, rfl, fun _ _ _ => rfl⟩

/-- With no memory for a `struct process`, `process_free` is called with `NULL`. -/
theorem processLoadForSlot_null {r later : Resources} {file : LoadFile} {pid : Nat}
    (null : (heapMalloc r.heap sizeofProcess).1 = 0) (table : KernelTable r.heap)
    {result : Option Proc} (run : processLoadForSlot r pid file = some (later, result)) :
    later = r.freeAll file.atNull := by
  obtain ⟨⟨process, next⟩, first, rest⟩ := Option.bind_eq_some_iff.mp run
  obtain ⟨rfl, rfl⟩ := Resources.alloc_kzalloc first
  simp only at rest
  rw [if_pos null] at rest
  cases rest
  rw [KernelHeap.heapMalloc_failed ((table.heapMalloc_null_iff sizeofProcess).mp null)]

def missingFile : LoadFile :=
  { directory := false, size := 0, phdrs := none, atNull := []
    asElf := ⟨false, false, [], [], []⟩, asBinary := ⟨false, false, [], [], []⟩ }

theorem missingFile_sized : missingFile.asElf.Sized ∧ missingFile.asBinary.Sized := by
  have none : Sized [] := nofun
  exact ⟨⟨none, none, none⟩, ⟨none, none, none⟩⟩

/-- The kernel with a process in every slot. -/
def crowded : State := { booted fun _ => 0x55 with processes := fun _ => some 0 }

theorem processLoadForSlot_missingFile {r : Resources} {process elfFile : Word} {heap₁ heap₂ : HeapDesc}
    (first : kzalloc r.heap sizeofProcess = some (process, heap₁)) (struct : process ≠ 0)
    (second : kzalloc heap₁ sizeofElfFile = some (elfFile, heap₂)) (file : elfFile ≠ 0) (pid : Nat) :
    processLoadForSlot r pid missingFile = some ({ r with heap := kfree heap₂ elfFile }, none) := by
  have unopened (r : Resources) : r.fopen missingFile.asElf = (none, r) := rfl
  have data : processLoadData { r with heap := heap₁ } missingFile =
      some ({ r with heap := kfree heap₂ elfFile }, none) := by
    simp only [processLoadData, elfFileInit, Resources.alloc, second, Option.bind_eq_bind,
      Option.bind_some, if_neg file, unopened, Resources.free]
  simp only [processLoadForSlot, Resources.alloc, first, Option.bind_eq_bind, Option.bind_some,
    if_neg struct, data]

theorem State.processLoad_failed {s : State} {file : LoadFile} {pid : Nat} {r : Resources}
    (slot : s.processGetFreeSlot = some pid)
    (run : processLoadForSlot s.res.fresh pid file = some (r, none)) :
    s.processLoad file = some ({ s with res := r }, none) := by
  simp only [processLoad, slot, run, Option.bind_eq_bind, Option.bind_some]

end ConiferOS.Kernel
