import ConiferOS.Kernel.IsolatedRuns
import ConiferOS.Memory.Shielded

/-! # Terminating a process

`process_terminate` frees the executable, the stack and what the process has allocated. The
`struct process` itself is never freed, so the heap is not what it was before the load. To
see that nothing else frees it: all that is freed was given out after it.
-/

namespace ConiferOS.Kernel

open Heap Paging Process

/-! ## The calls -/

/-- What a process does with its memory. -/
inductive MemoryCall where
  | malloc (size : Word)
  | free (ptr : Word)

def MemoryCall.run (heap : HeapDesc) (mem : ProcessMem) : MemoryCall → Option (HeapDesc × ProcessMem)
  | .malloc size => do
      let (_, heap, mem) ← processMallocSyscallHandler heap mem size
      some (heap, mem)
  | .free ptr => some (processFreeSyscallHandler heap mem ptr)

namespace State

def memoryCall (s : State) (p : Nat) (call : MemoryCall) : Option State :=
  match s.procs[p]? with
  | none => some s
  | some proc => do
      let (heap, mem) ← call.run s.res.heap proc.mem
      some ((s.setHeap heap).setProc p { proc with mem := mem })

def memoryCalls (s : State) (p : Nat) : List MemoryCall → Option State
  | [] => some s
  | call :: calls => do
      let s ← s.memoryCall p call
      s.memoryCalls p calls

def processTerminate (s : State) (p : Nat) : State :=
  match s.procs[p]? with
  | none => s
  | some proc =>
      { s with
        res := processFree s.res proc
        processes := Function.update s.processes proc.pid none }

variable (kernelPage : BitVec 20 → Bool) (s : State) (p : Nat)

/-- The system calls are these calls, while the caller's pages are loaded. -/
theorem isr80hCommand4Malloc_eq (size : Word) :
    s.isr80hCommand4Malloc kernelPage p size =
      s.serve kernelPage p fun _ => s.memoryCall p (.malloc size) := by
  simp only [isr80hCommand4Malloc, serve, memoryCall, MemoryCall.run]
  cases s.procs[p]? with
  | none => rfl
  | some proc => simp only [Option.bind_eq_bind, Option.bind_assoc, Option.bind_some]

theorem isr80hCommand5Free_eq (ptr : Word) :
    s.isr80hCommand5Free kernelPage p ptr =
      s.serve kernelPage p fun _ => s.memoryCall p (.free ptr) := by
  simp only [isr80hCommand5Free, serve, memoryCall, MemoryCall.run]
  cases s.procs[p]? with
  | none => rfl
  | some proc => rfl

theorem isr80hCommand7Exit_eq :
    s.isr80hCommand7Exit kernelPage p = s.serve kernelPage p fun _ => some (s.processTerminate p) := by
  simp only [isr80hCommand7Exit, serve, processTerminate]
  cases s.procs[p]? with
  | none => rfl
  | some proc => rfl

variable {s}

/-- `malloc` has a result where the allocation stays in memory, and `free` always. -/
theorem memoryCall_malloc {size : Word} (contained : KzallocContained s.res.heap size) :
    ∃ later, s.memoryCall p (.malloc size) = some later := by
  simp only [memoryCall, MemoryCall.run]
  cases s.procs[p]? with
  | none => exact ⟨s, rfl⟩
  | some proc =>
      rcases processMallocSyscallHandler_cases proc.mem contained with back | ⟨_, -, -, -, recorded⟩
      · simp only [back]
        exact ⟨_, rfl⟩
      · simp only [recorded]
        exact ⟨_, rfl⟩

theorem memoryCall_free (s : State) (ptr : Word) : ∃ later, s.memoryCall p (.free ptr) = some later := by
  simp only [memoryCall, MemoryCall.run]
  cases s.procs[p]? with
  | none => exact ⟨s, rfl⟩
  | some proc => exact ⟨_, rfl⟩

end State

/-! ## Resources -/

/-- All that the file layer holds was given out after `base`. -/
structure Resources.Keeps (base : HeapDesc) (r : Resources) : Prop where
  shielded : Shielded base r.heap
  held : ∀ ptr ∈ r.held, Loose base ptr

namespace Resources.Keeps

variable {base : HeapDesc} {r later : Resources} {size ptr : Word}

theorem malloc (keeps : r.Keeps base) (size : Word) :
    Resources.Keeps base { r with heap := (heapMalloc r.heap size).2 } :=
  ⟨keeps.shielded.malloc size, keeps.held⟩

theorem alloc (keeps : r.Keeps base) (run : r.alloc (kzalloc · size) = some (ptr, later)) :
    later.Keeps base ∧ (ptr ≠ 0 → Loose base ptr) := by
  obtain ⟨rfl, rfl⟩ := Resources.alloc_kzalloc run
  exact ⟨keeps.malloc size, keeps.shielded.loose⟩

theorem allocUsed (keeps : r.Keeps base) (run : r.alloc (kzallocUsed · size) = some (ptr, later)) :
    later.Keeps base ∧ Loose base ptr := by
  obtain ⟨served, nonnull⟩ := Resources.alloc_kzallocUsed run
  obtain ⟨next, loose⟩ := keeps.alloc served
  exact ⟨next, loose nonnull⟩

theorem allocAll {sizes ptrs : List Word} (keeps : r.Keeps base)
    (run : r.alloc (kzallocAll · sizes) = some (ptrs, later)) : later.Keeps base := by
  induction sizes generalizing r ptrs with
  | nil =>
      cases run
      exact keeps
  | cons size sizes ih =>
      obtain ⟨ptr, rest, next, first, others, rfl⟩ := Resources.alloc_kzallocAll_cons run
      exact ih (keeps.allocUsed first).1 others

theorem free (keeps : r.Keeps base) (given : ptr ≠ 0 → Loose base ptr) : (r.free ptr).Keeps base :=
  ⟨keeps.shielded.kfree_given given, keeps.held⟩

theorem freeAll {ptrs : List Word} (keeps : r.Keeps base) (loose : ∀ ptr ∈ ptrs, Loose base ptr) :
    (r.freeAll ptrs).Keeps base := by
  induction ptrs generalizing r with
  | nil => exact keeps
  | cons ptr ptrs ih =>
      exact ih (keeps.free fun _ => loose ptr List.mem_cons_self)
        fun other member => loose other (List.mem_cons_of_mem ptr member)

theorem fileOp (keeps : r.Keeps base) (op : FileOp) : (r.fileOp op).Keeps base := by
  cases op with
  | alloc size =>
      refine ⟨keeps.shielded.malloc size, fun ptr member => ?_⟩
      simp only [Resources.fileOp] at member
      split at member
      case isTrue => exact keeps.held ptr member
      case isFalse nonnull =>
        rcases List.mem_cons.mp member with rfl | old
        · exact keeps.shielded.loose nonnull
        · exact keeps.held ptr old
  | release k =>
      simp only [Resources.fileOp]
      split
      case h_1 => exact keeps
      case h_2 ptr found =>
        refine ⟨keeps.shielded.kfree (keeps.held ptr (List.mem_of_getElem? found)), fun other member => ?_⟩
        exact keeps.held other (List.mem_of_mem_eraseIdx member)

theorem fileOps (keeps : r.Keeps base) (ops : List FileOp) : (r.fileOps ops).Keeps base := by
  induction ops generalizing r with
  | nil => exact keeps
  | cons op ops ih => exact ih (keeps.fileOp op)

theorem fopen (keeps : r.Keeps base) (access : FileAccess) : (r.fopen access).2.Keeps base := by
  have opened := keeps.fileOps access.opening
  simp only [Resources.fopen]
  split
  case isTrue => exact opened
  case isFalse =>
    split
    · exact opened
    · exact ⟨opened.shielded, opened.held⟩

theorem fclose (keeps : r.Keeps base) (access : FileAccess) (fd : Nat) : (r.fclose access fd).Keeps base :=
  ⟨(keeps.fileOps access.closing).shielded, (keeps.fileOps access.closing).held⟩

end Resources.Keeps

/-! ## Loads -/

section Load

variable {base : HeapDesc} {r later : Resources} {file : LoadFile}

theorem ElfOpened.keeps {elfFile : Word} {fd : Option Nat} (isOpen : ElfOpened r file elfFile fd later)
    (keeps : r.Keeps base) : later.Keeps base ∧ Loose base elfFile := by
  obtain ⟨struct, nonnull, opened⟩ := isOpen
  obtain ⟨next, loose⟩ := keeps.alloc struct
  have opening := next.fopen file.asElf
  rw [opened] at opening
  exact ⟨opening, loose nonnull⟩

theorem ElfBuffered.keeps {elfFile buffer : Word} {fd : Nat}
    (asked : ElfBuffered r file elfFile fd buffer later) (keeps : r.Keeps base) :
    later.Keeps base ∧ Loose base elfFile ∧ Loose base buffer := by
  obtain ⟨isOpen, -, buffered⟩ := asked
  obtain ⟨opened, struct⟩ := isOpen.keeps keeps
  obtain ⟨next, loose⟩ := opened.allocUsed buffered
  exact ⟨next.fileOps _, struct, loose⟩

/-- The blocks that a process gets from its loader. -/
def ElfResult.pointers : ElfResult → List Word
  | .loaded elfFile buffer _ => [buffer, elfFile]
  | .badFormat => []
  | .failed => []

theorem ElfInit.keeps {result : ElfResult} (init : ElfInit r file later result) (keeps : r.Keeps base) :
    later.Keeps base ∧ ∀ ptr ∈ result.pointers, Loose base ptr := by
  cases init with
  | unallocated refused => exact ⟨(keeps.alloc refused).1, nofun⟩
  | unopened isOpen =>
      obtain ⟨opened, struct⟩ := isOpen.keeps keeps
      exact ⟨opened.free fun _ => struct, nofun⟩
  | directory isOpen =>
      obtain ⟨opened, struct⟩ := isOpen.keeps keeps
      exact ⟨opened.free fun _ => struct, nofun⟩
  | empty isOpen _ buffered =>
      obtain ⟨opened, struct⟩ := isOpen.keeps keeps
      obtain ⟨next, given⟩ := opened.alloc buffered
      exact ⟨(next.free given).free fun _ => struct, nofun⟩
  | unread asked =>
      obtain ⟨read, struct, buffer⟩ := asked.keeps keeps
      exact ⟨(read.free fun _ => buffer).free fun _ => struct, nofun⟩
  | badFormat asked =>
      obtain ⟨read, struct, buffer⟩ := asked.keeps keeps
      exact ⟨((read.free fun _ => buffer).free fun _ => struct).fclose _ _, nofun⟩
  | loaded asked =>
      obtain ⟨read, struct, buffer⟩ := asked.keeps keeps
      refine ⟨read.fclose _ _, fun ptr member => ?_⟩
      simp only [ElfResult.pointers, List.mem_cons, List.not_mem_nil, or_false] at member
      rcases member with rfl | rfl
      exacts [buffer, struct]

theorem BinaryLoad.keeps {image : Option Image} (load : BinaryLoad r file later image)
    (keeps : r.Keeps base) :
    later.Keeps base ∧ ∀ loaded ∈ image, ∀ ptr ∈ loaded.pointers, Loose base ptr := by
  have opening := keeps.fopen file.asBinary
  cases load with
  | unopened opened =>
      rw [opened] at opening
      exact ⟨opening, nofun⟩
  | directory opened =>
      rw [opened] at opening
      exact ⟨opening.fclose _ _, nofun⟩
  | unallocated isOpen refused =>
      rw [isOpen] at opening
      exact ⟨(opening.alloc refused).1.fclose _ _, nofun⟩
  | asked isOpen buffered nonnull read =>
      rw [isOpen] at opening
      obtain ⟨next, loose⟩ := opening.alloc buffered
      refine ⟨(next.fileOps _).fclose _ _, fun loaded is ptr member => ?_⟩
      rcases read with rfl | rfl
      · cases is
      · cases is
        obtain rfl := List.mem_singleton.mp member
        exact loose nonnull

theorem DataLoad.keeps {image : Option Image} (load : DataLoad r file later image)
    (keeps : r.Keeps base) :
    later.Keeps base ∧ ∀ loaded ∈ image, ∀ ptr ∈ loaded.pointers, Loose base ptr := by
  cases load with
  | elf init =>
      obtain ⟨next, loose⟩ := init.keeps keeps
      refine ⟨next, fun loaded is => ?_⟩
      cases is
      exact loose
  | binary init load => exact load.keeps (init.keeps keeps).1
  | failed init => exact ⟨(init.keeps keeps).1, nofun⟩

/-- The heap with the `struct process` on it. The rest of a load is allocated after that. -/
def Resources.withProcess (r : Resources) : HeapDesc := (heapMalloc r.heap sizeofProcess).2

variable {process stackAddr argBlock task : Word} {image : Image} {tables : PageTables}

theorem WithImage.keeps (made : WithImage r file process (some image) later)
    (table : KernelTable r.heap) (nothing : r.held = []) :
    later.Keeps r.withProcess ∧ (∀ ptr ∈ image.pointers, Loose r.withProcess ptr) ∧
      (heapMalloc r.heap sizeofProcess).1 ≠ 0 := by
  obtain ⟨struct, nonnull, data⟩ := made
  obtain ⟨rfl, rfl⟩ := Resources.alloc_kzalloc struct
  have start : Resources.Keeps r.withProcess { r with heap := (heapMalloc r.heap sizeofProcess).2 } :=
    ⟨.refl (table.malloc sizeofProcess), by simp [nothing]⟩
  obtain ⟨next, loose⟩ := (processLoadData_cases data).keeps start
  exact ⟨next, loose image rfl, nonnull⟩

theorem initPageTables_keeps (keeps : r.Keeps base) (run : r.initPageTables = some (tables, later)) :
    later.Keeps base := by
  obtain ⟨r₁, r₂, first, second, third⟩ := initPageTables_cases run
  exact ((keeps.allocUsed first).1.allocAll second |>.allocUsed third).1

theorem WithTask.keeps (made : WithTask r file process image stackAddr argBlock task tables later)
    (table : KernelTable r.heap) (nothing : r.held = []) :
    later.Keeps r.withProcess ∧ (∀ ptr ∈ image.pointers, Loose r.withProcess ptr) ∧
      Loose r.withProcess stackAddr ∧ (heapMalloc r.heap sizeofProcess).1 ≠ 0 := by
  obtain ⟨⟨executable, stack⟩, stackAddr_ne, args, -, struct, pages⟩ := made
  obtain ⟨loaded, pointers, nonnull⟩ := executable.keeps table nothing
  obtain ⟨stacked, loose⟩ := loaded.alloc stack
  have tasked := ((stacked.alloc args).1.allocUsed struct).1
  have paged := initPageTables_keeps tasked pages
  exact ⟨⟨paged.shielded, paged.held⟩, pointers, loose stackAddr_ne, nonnull⟩

end Load

/-! ## The process runs -/

/-- All that the process has allocated was given out after `base`. -/
def SlotsLoose (base : HeapDesc) (mem : ProcessMem) : Prop :=
  ∀ i < processMaxAllocations, (mem.memAllocs i).ptr ≠ 0 → Loose base (mem.memAllocs i).ptr

/-- So was all else that `process_free` frees for process `p`. -/
structure State.Hosts (base : HeapDesc) (s : State) (p : Nat) (proc : Proc) : Prop where
  here : s.procs[p]? = some proc
  keeps : s.res.Keeps base
  pointers : ∀ ptr ∈ proc.image.pointers, Loose base ptr
  stack : Loose base proc.stackAddr
  slots : SlotsLoose base proc.mem

section Run

variable {base heap later : HeapDesc} {mem mem' : ProcessMem}

theorem SlotsLoose.set (slots : SlotsLoose base mem) (pages : PageMap) (index : Nat)
    {allocation : MemAllocation} (given : allocation.ptr ≠ 0 → Loose base allocation.ptr) :
    SlotsLoose base (({ mem with pages := pages } : ProcessMem).setAllocation index allocation) := by
  intro i bound used
  simp only [ProcessMem.setAllocation, Function.update_apply] at used ⊢
  split
  case isTrue same =>
    rw [if_pos same] at used
    exact given used
  case isFalse other =>
    rw [if_neg other] at used
    exact slots i bound used

theorem MemoryCall.run_shielded {call : MemoryCall} (run : call.run heap mem = some (later, mem'))
    (shielded : Shielded base heap) (slots : SlotsLoose base mem) :
    Shielded base later ∧ SlotsLoose base mem' := by
  cases call with
  | malloc size =>
      obtain ⟨⟨ptr, heap', process⟩, served, result⟩ := Option.bind_eq_some_iff.mp run
      cases result
      have contained : KzallocContained heap size := by
        by_contra outside
        simp [processMallocSyscallHandler, kzalloc, outside] at served
      have given := shielded.malloc size
      rcases processMallocSyscallHandler_cases mem contained with back | ⟨index, -, -, -, recorded⟩
      · rw [back] at served
        cases served
        exact ⟨given.kfree_given shielded.loose, slots⟩
      · rw [recorded] at served
        cases served
        exact ⟨given, slots.set _ index shielded.loose⟩
  | free ptr =>
      have result : processFreeSyscallHandler heap mem ptr = (later, mem') := Option.some.inj run
      rcases processFreeSyscallHandler_cases heap mem ptr with nothing | ⟨index, bound, rfl, -, freed⟩
      · rw [nothing] at result
        cases result
        exact ⟨shielded, slots⟩
      · rw [freed] at result
        cases result
        exact ⟨shielded.kfree_given (slots index bound), slots.set _ index (absurd rfl)⟩

namespace State

variable {s ended : State} {p : Nat} {proc : Proc}

theorem Hosts.memoryCall (hosts : s.Hosts base p proc) {call : MemoryCall}
    (run : s.memoryCall p call = some ended) :
    ended.processes = s.processes ∧ ∃ proc', ended.Hosts base p proc' ∧ proc'.pid = proc.pid := by
  simp only [State.memoryCall, hosts.here] at run
  obtain ⟨⟨heap, mem⟩, served, result⟩ := Option.bind_eq_some_iff.mp run
  cases result
  obtain ⟨shielded, slots⟩ := MemoryCall.run_shielded served hosts.keeps.shielded hosts.slots
  refine ⟨rfl, { proc with mem := mem }, ⟨?_, ⟨shielded, hosts.keeps.held⟩, hosts.pointers, hosts.stack,
    slots⟩, rfl⟩
  obtain ⟨bound, -⟩ := List.getElem?_eq_some_iff.mp hosts.here
  exact List.getElem?_set_self bound

theorem Hosts.memoryCalls (hosts : s.Hosts base p proc) {calls : List MemoryCall}
    (run : s.memoryCalls p calls = some ended) :
    ended.processes = s.processes ∧ ∃ proc', ended.Hosts base p proc' ∧ proc'.pid = proc.pid := by
  induction calls generalizing s proc with
  | nil =>
      cases run
      exact ⟨rfl, proc, hosts, rfl⟩
  | cons call calls ih =>
      obtain ⟨next, first, rest⟩ := Option.bind_eq_some_iff.mp run
      obtain ⟨same, proc', still, pid⟩ := hosts.memoryCall first
      obtain ⟨same', proc'', last, pid'⟩ := ih still rest
      exact ⟨same'.trans same, proc'', last, pid'.trans pid⟩

theorem Hosts.processFree (hosts : s.Hosts base p proc) : (processFree s.res proc).Keeps base := by
  have images := hosts.keeps.freeAll hosts.pointers
  simp only [Kernel.processFree]
  refine List.foldlRecOn (motive := fun r : Resources => r.Keeps base) _ _ ?_ ?_
  · split
    case isTrue => exact images.free fun _ => hosts.stack
    case isFalse => exact images
  · intro r keeps i member
    split
    case isTrue used => exact keeps.free fun _ => hosts.slots i (List.mem_range.mp member) used
    case isFalse => exact keeps

theorem Hosts.processTerminate (hosts : s.Hosts base p proc) :
    Shielded base (s.processTerminate p).res.heap ∧
      (s.processTerminate p).processes = Function.update s.processes proc.pid none := by
  simp only [State.processTerminate, hosts.here, and_true]
  exact hosts.processFree.shielded

/-- A load that succeeds. -/
theorem hosts_processLoad {file : LoadFile} {pid : Nat} (table : KernelTable s.res.heap)
    (load : s.processLoad file = some (ended, some pid)) :
    ∃ proc, ended.Hosts s.res.withProcess s.procs.length proc ∧ proc.pid = pid ∧
      s.processes pid = none ∧
      ended.processes = Function.update s.processes pid (some s.procs.length) ∧
      (heapMalloc s.res.heap sizeofProcess).1 ≠ 0 := by
  cases slot : s.processGetFreeSlot with
  | none => simp [State.processLoad, slot] at load
  | some free =>
      have unused : s.processes free = none := by
        simpa using (List.find?_range_eq_some.mp slot).1
      simp only [State.processLoad, slot] at load
      obtain ⟨⟨r, result⟩, run, rest⟩ := Option.bind_eq_some_iff.mp load
      cases result with
      | none => cases rest
      | some proc =>
          cases rest
          cases processLoadForSlot_cases run with
          | loaded made mapped =>
              obtain ⟨keeps, pointers, stack, nonnull⟩ := made.keeps table rfl
              exact ⟨_, ⟨List.getElem?_concat_length, keeps, pointers, stack,
                fun _ _ used => absurd rfl used⟩, rfl, unused, rfl, nonnull⟩

end State

end Run

/-! ## The whole of it -/

/-- Load, run and terminate: the process table is what it was, so are the blocks that were in
    use, but the heap is not. -/
theorem terminate_leaks {s loaded ended : State} {file : LoadFile} {pid : Nat} {calls : List MemoryCall}
    (table : KernelTable s.res.heap) (load : s.processLoad file = some (loaded, some pid))
    (run : loaded.memoryCalls s.procs.length calls = some ended) :
    (ended.processTerminate s.procs.length).processes = s.processes ∧
      (∀ i : Int, 0 ≤ i → i < s.res.heap.total → ¬ s.res.heap.table.FreeAt i →
        (ended.processTerminate s.procs.length).res.heap.entry i = s.res.heap.entry i) ∧
      ¬ SameTable s.res.heap (ended.processTerminate s.procs.length).res.heap := by
  obtain ⟨proc, hosts, rfl, unused, added, nonnull⟩ := State.hosts_processLoad table load
  obtain ⟨same, proc', last, pid⟩ := hosts.memoryCalls run
  obtain ⟨shielded, removed⟩ := last.processTerminate
  refine ⟨?_, fun i => shielded.kept_before table, shielded.not_sameTable table (by decide) nonnull⟩
  rw [removed, same, added, pid, Function.update_idem, ← unused, Function.update_eq_self]

theorem first_program_leaks :
    ∃ loaded, (booted fun _ => 0x55).processLoad (program [dataSegment 0]) = some (loaded, some 0) ∧
      ¬ SameTable (booted fun _ => 0x55).res.heap (loaded.processTerminate 0).res.heap := by
  obtain ⟨r, proc, load, -⟩ := booted_processLoad (dataSegment_confined (blockAt 3)).1
  refine ⟨_, load, ?_⟩
  have table := booted_stacked.kernelTable
  obtain ⟨proc, hosts, -, -, -, nonnull⟩ := State.hosts_processLoad table load
  exact hosts.processTerminate.1.not_sameTable table (by decide) nonnull

/-- Also when the program frees the page it asks for. -/
theorem terminate_leaks_page :
    ∃ loaded ended, (booted fun _ => 0x55).processLoad (program [dataSegment 0]) = some (loaded, some 0) ∧
      loaded.memoryCalls 0 [.malloc 4096, .free (blockAt 1037)] = some ended ∧
      (ended.processTerminate 0).processes = (booted fun _ => 0x55).processes ∧
      ¬ SameTable (booted fun _ => 0x55).res.heap (ended.processTerminate 0).res.heap := by
  obtain ⟨r, proc, load, stacked, -⟩ := booted_processLoad (dataSegment_confined (blockAt 3)).1
  obtain ⟨heap, served, -⟩ := stacked.kzalloc (n := 1038) 4096 (by decide) (by decide) (by decide)
  obtain ⟨next, first⟩ := State.memoryCall_malloc
    (s := ⟨r, Function.update (fun _ => none) 0 (some 0), [proc]⟩) 0 (kzalloc_eq_some served).1
  obtain ⟨ended, second⟩ := State.memoryCall_free 0 next (blockAt 1037)
  have run : State.memoryCalls ⟨r, Function.update (fun _ => none) 0 (some 0), [proc]⟩ 0
      [.malloc 4096, .free (blockAt 1037)] = some ended := by
    simp only [State.memoryCalls, first, second, Option.bind_eq_bind, Option.bind_some]
  obtain ⟨processes, -, leaked⟩ := terminate_leaks booted_stacked.kernelTable load run
  exact ⟨_, ended, load, run, processes, leaked⟩

end ConiferOS.Kernel
