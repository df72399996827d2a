import ConiferOS.Kernel.Load

/-! # The ways through a load

What each function of a load can do, once for all that is to be said of loads: one
constructor for every way through the function, with the calls that were made on it.
-/

namespace ConiferOS.Kernel

open Heap Paging Process

/-! ## Allocations that succeed -/

theorem Resources.alloc_eq_some {α : Type} {r later : Resources}
    {f : HeapDesc → Option (α × HeapDesc)} {a : α} (run : r.alloc f = some (a, later)) :
    ∃ heap, f r.heap = some (a, heap) ∧ later = { r with heap := heap } := by
  obtain ⟨⟨b, heap⟩, found, result⟩ := Option.bind_eq_some_iff.mp run
  cases result
  exact ⟨heap, found, rfl⟩

theorem kzallocUsed_eq_some {heap later : HeapDesc} {size ptr : Word}
    (run : kzallocUsed heap size = some (ptr, later)) :
    kzalloc heap size = some (ptr, later) ∧ ptr ≠ 0 := by
  obtain ⟨⟨p, h⟩, found, result⟩ := Option.bind_eq_some_iff.mp run
  simp only at result
  split at result
  case isTrue => cases result
  case isFalse nonnull =>
    cases result
    exact ⟨found, nonnull⟩

theorem kzallocAll_cons_eq_some {heap later : HeapDesc} {size : Word} {sizes ptrs : List Word}
    (run : kzallocAll heap (size :: sizes) = some (ptrs, later)) :
    ∃ ptr rest next, kzallocUsed heap size = some (ptr, next) ∧
      kzallocAll next sizes = some (rest, later) ∧ ptrs = ptr :: rest := by
  obtain ⟨⟨ptr, next⟩, first, run⟩ := Option.bind_eq_some_iff.mp run
  obtain ⟨⟨rest, last⟩, others, result⟩ := Option.bind_eq_some_iff.mp run
  cases result
  exact ⟨ptr, rest, next, first, others, rfl⟩

section Alloc

variable {r later : Resources} {size ptr : Word}

theorem Resources.alloc_kzalloc (run : r.alloc (kzalloc · size) = some (ptr, later)) :
    (heapMalloc r.heap size).1 = ptr ∧ { r with heap := (heapMalloc r.heap size).2 } = later := by
  obtain ⟨heap, served, rfl⟩ := Resources.alloc_eq_some run
  obtain ⟨-, rfl, rfl⟩ := kzalloc_eq_some served
  exact ⟨rfl, rfl⟩

theorem Resources.alloc_kzallocUsed (run : r.alloc (kzallocUsed · size) = some (ptr, later)) :
    r.alloc (kzalloc · size) = some (ptr, later) ∧ ptr ≠ 0 := by
  obtain ⟨heap, used, rfl⟩ := Resources.alloc_eq_some run
  obtain ⟨served, nonnull⟩ := kzallocUsed_eq_some used
  refine ⟨?_, nonnull⟩
  rw [Resources.alloc, served]
  rfl

theorem Resources.alloc_kzallocAll_cons {sizes ptrs : List Word}
    (run : r.alloc (kzallocAll · (size :: sizes)) = some (ptrs, later)) :
    ∃ ptr rest next, r.alloc (kzallocUsed · size) = some (ptr, next) ∧
      next.alloc (kzallocAll · sizes) = some (rest, later) ∧ ptrs = ptr :: rest := by
  obtain ⟨heap, served, rfl⟩ := Resources.alloc_eq_some run
  obtain ⟨ptr, rest, next, first, others, rfl⟩ := kzallocAll_cons_eq_some served
  refine ⟨ptr, rest, { r with heap := next }, ?_, ?_, rfl⟩
  · rw [Resources.alloc, first]
    rfl
  · rw [Resources.alloc, others]
    rfl

end Alloc

/-! ## The executable -/

variable {r later : Resources} {file : LoadFile}

/-- The `struct elf_file` is allocated and the file has been opened, or not. -/
inductive ElfOpened (r : Resources) (file : LoadFile) (elfFile : Word) :
    Option Nat → Resources → Prop where
  | intro {next later : Resources} {fd : Option Nat}
      (struct : r.alloc (kzalloc · sizeofElfFile) = some (elfFile, next)) (nonnull : elfFile ≠ 0)
      (opened : next.fopen file.asElf = (fd, later)) : ElfOpened r file elfFile fd later

/-- The buffer is allocated as well, and the file system has been asked to fill it. -/
inductive ElfBuffered (r : Resources) (file : LoadFile) (elfFile : Word) (fd : Nat) (buffer : Word) :
    Resources → Prop where
  | intro {opened later : Resources} (isOpen : ElfOpened r file elfFile (some fd) opened)
      (nonempty : file.size ≠ 0)
      (buffered : opened.alloc (kzallocUsed · file.size) = some (buffer, later)) :
      ElfBuffered r file elfFile fd buffer (later.fileOps file.asElf.reading)

inductive ElfInit (r : Resources) (file : LoadFile) : Resources → ElfResult → Prop where
  | unallocated {later : Resources} (refused : r.alloc (kzalloc · sizeofElfFile) = some (0, later)) :
      ElfInit r file later .failed
  | unopened {later : Resources} {elfFile : Word} (isOpen : ElfOpened r file elfFile none later) :
      ElfInit r file (later.free elfFile) .failed
  | directory {later : Resources} {elfFile : Word} {fd : Nat}
      (isOpen : ElfOpened r file elfFile (some fd) later) :
      ElfInit r file (later.free elfFile) .failed
  | empty {opened later : Resources} {elfFile buffer : Word} {fd : Nat}
      (isOpen : ElfOpened r file elfFile (some fd) opened) (empty : file.size = 0)
      (buffered : opened.alloc (kzalloc · file.size) = some (buffer, later)) :
      ElfInit r file ((later.free buffer).free elfFile) .failed
  | unread {later : Resources} {elfFile buffer : Word} {fd : Nat}
      (asked : ElfBuffered r file elfFile fd buffer later) :
      ElfInit r file ((later.free buffer).free elfFile) .failed
  | badFormat {later : Resources} {elfFile buffer : Word} {fd : Nat}
      (asked : ElfBuffered r file elfFile fd buffer later) :
      ElfInit r file (((later.free buffer).free elfFile).fclose file.asElf fd) .badFormat
  | loaded {later : Resources} {elfFile buffer : Word} {fd : Nat} {phdrs : List Loader.Phdr}
      (asked : ElfBuffered r file elfFile fd buffer later) :
      ElfInit r file (later.fclose file.asElf fd) (.loaded elfFile buffer phdrs)

theorem elfFileInit_cases {result : ElfResult} (run : elfFileInit r file = some (later, result)) :
    ElfInit r file later result := by
  obtain ⟨⟨elfFile, next⟩, struct, rest⟩ := Option.bind_eq_some_iff.mp run
  simp only at rest
  split at rest
  case isTrue null =>
    cases rest
    exact .unallocated (null ▸ struct)
  case isFalse nonnull =>
    split at rest
    case h_1 r' opened =>
      cases rest
      exact .unopened ⟨struct, nonnull, opened⟩
    case h_2 fd r' opened =>
      have isOpen : ElfOpened r file elfFile (some fd) r' := ⟨struct, nonnull, opened⟩
      split at rest
      case isTrue =>
        cases rest
        exact .directory isOpen
      case isFalse =>
        split at rest
        case isTrue empty =>
          obtain ⟨⟨buffer, r''⟩, buffered, rest⟩ := Option.bind_eq_some_iff.mp rest
          cases rest
          exact .empty isOpen empty buffered
        case isFalse nonempty =>
          obtain ⟨⟨buffer, r''⟩, buffered, rest⟩ := Option.bind_eq_some_iff.mp rest
          have asked := ElfBuffered.intro isOpen nonempty buffered
          simp only at rest
          split at rest
          case isTrue =>
            cases rest
            exact .unread asked
          case isFalse =>
            split at rest
            case h_1 =>
              cases rest
              exact .badFormat asked
            case h_2 =>
              cases rest
              exact .loaded asked

inductive BinaryLoad (r : Resources) (file : LoadFile) : Resources → Option Image → Prop where
  | unopened {later : Resources} (opened : r.fopen file.asBinary = (none, later)) :
      BinaryLoad r file later none
  | directory {later : Resources} {fd : Nat} (opened : r.fopen file.asBinary = (some fd, later)) :
      BinaryLoad r file (later.fclose file.asBinary fd) none
  | unallocated {opened later : Resources} {fd : Nat} (isOpen : r.fopen file.asBinary = (some fd, opened))
      (refused : opened.alloc (kzalloc · file.size) = some (0, later)) :
      BinaryLoad r file (later.fclose file.asBinary fd) none
  | asked {opened later : Resources} {fd : Nat} {buffer : Word} {image : Option Image}
      (isOpen : r.fopen file.asBinary = (some fd, opened))
      (buffered : opened.alloc (kzalloc · file.size) = some (buffer, later)) (nonnull : buffer ≠ 0)
      (read : image = none ∨ image = some (.binary buffer file.size)) :
      BinaryLoad r file ((later.fileOps file.asBinary.reading).fclose file.asBinary fd) image

theorem processLoadBinaryExecutable_cases {image : Option Image}
    (run : processLoadBinaryExecutable r file = some (later, image)) : BinaryLoad r file later image := by
  rw [processLoadBinaryExecutable] at run
  split at run
  case h_1 r' opened =>
    cases run
    exact .unopened opened
  case h_2 fd r' opened =>
    split at run
    case isTrue =>
      cases run
      exact .directory opened
    case isFalse =>
      obtain ⟨⟨buffer, next⟩, buffered, rest⟩ := Option.bind_eq_some_iff.mp run
      simp only at rest
      split at rest
      case isTrue null =>
        cases rest
        exact .unallocated opened (null ▸ buffered)
      case isFalse nonnull =>
        cases rest
        refine .asked opened buffered nonnull ?_
        split
        case isTrue => exact .inr rfl
        case isFalse => exact .inl rfl

inductive DataLoad (r : Resources) (file : LoadFile) : Resources → Option Image → Prop where
  | elf {later : Resources} {elfFile buffer : Word} {phdrs : List Loader.Phdr}
      (init : ElfInit r file later (.loaded elfFile buffer phdrs)) :
      DataLoad r file later (some (.elf elfFile buffer file.size phdrs))
  | binary {next later : Resources} {image : Option Image} (init : ElfInit r file next .badFormat)
      (load : BinaryLoad next file later image) : DataLoad r file later image
  | failed {later : Resources} (init : ElfInit r file later .failed) : DataLoad r file later none

theorem processLoadData_cases {image : Option Image} (run : processLoadData r file = some (later, image)) :
    DataLoad r file later image := by
  obtain ⟨⟨next, result⟩, first, rest⟩ := Option.bind_eq_some_iff.mp run
  have init := elfFileInit_cases first
  cases result with
  | loaded elfFile buffer phdrs =>
      cases rest
      exact .elf init
  | badFormat => exact .binary init (processLoadBinaryExecutable_cases rest)
  | failed =>
      cases rest
      exact .failed init

/-! ## The process -/

theorem initPageTables_cases {tables : PageTables} (run : r.initPageTables = some (tables, later)) :
    ∃ r₁ r₂, r.alloc (kzallocUsed · (BitVec.ofNat 32 (4 * pagingDirEntries))) = some (tables.pgd, r₁) ∧
      r₁.alloc (kzallocAll · (List.replicate pagingDirEntries
        (BitVec.ofNat 32 (4 * pagingTableEntries)))) = some (tables.ptes, r₂) ∧
      r₂.alloc (kzallocUsed · sizeofPagingDesc) = some (tables.paging, later) := by
  obtain ⟨⟨pgd, r₁⟩, first, rest⟩ := Option.bind_eq_some_iff.mp run
  obtain ⟨⟨ptes, r₂⟩, second, rest⟩ := Option.bind_eq_some_iff.mp rest
  obtain ⟨⟨paging, r₃⟩, third, rest⟩ := Option.bind_eq_some_iff.mp rest
  cases rest
  exact ⟨r₁, r₂, first, second, third⟩

/-- The executable of a process is loaded. -/
inductive WithImage (r : Resources) (file : LoadFile) (process : Word) :
    Option Image → Resources → Prop where
  | intro {next later : Resources} {image : Option Image}
      (struct : r.alloc (kzalloc · sizeofProcess) = some (process, next)) (nonnull : process ≠ 0)
      (data : processLoadData next file = some (later, image)) : WithImage r file process image later

/-- So is its stack. -/
inductive WithStack (r : Resources) (file : LoadFile) (process : Word) (image : Image)
    (stackAddr : Word) : Resources → Prop where
  | intro {loaded later : Resources} (executable : WithImage r file process (some image) loaded)
      (stack : loaded.alloc (kzalloc · (BitVec.ofNat 32 taskStackSize)) = some (stackAddr, later)) :
      WithStack r file process image stackAddr later

/-- All that is allocated for a process is there, and its task is in the list. -/
inductive WithTask (r : Resources) (file : LoadFile) (process : Word) (image : Image)
    (stackAddr argBlock task : Word) (tables : PageTables) : Resources → Prop where
  | intro {r₁ r₂ r₃ later : Resources} (stack : WithStack r file process image stackAddr r₁)
      (stackAddr_ne : stackAddr ≠ 0)
      (args : r₁.alloc (kzalloc · (BitVec.ofNat 32 lenArgBlock)) = some (argBlock, r₂))
      (argBlock_ne : argBlock ≠ 0) (struct : r₂.alloc (kzallocUsed · sizeofTask) = some (task, r₃))
      (pages : r₃.initPageTables = some (tables, later)) :
      WithTask r file process image stackAddr argBlock task tables
        { later with tasks := (Task.taskNew later.tasks task 0 process).2 }

inductive SlotLoad (r : Resources) (pid : Nat) (file : LoadFile) : Resources → Option Proc → Prop where
  | unallocated {later : Resources} (refused : r.alloc (kzalloc · sizeofProcess) = some (0, later)) :
      SlotLoad r pid file (later.freeAll file.atNull) none
  | unloaded {later : Resources} {process : Word} (struct : WithImage r file process none later) :
      SlotLoad r pid file later none
  | noStack {later : Resources} {process : Word} {image : Image}
      (refused : WithStack r file process image 0 later) :
      SlotLoad r pid file (later.freeAll image.pointers) none
  | noArgs {next later : Resources} {process stackAddr : Word} {image : Image}
      (stack : WithStack r file process image stackAddr next) (stackAddr_ne : stackAddr ≠ 0)
      (refused : next.alloc (kzalloc · (BitVec.ofNat 32 lenArgBlock)) = some (0, later)) :
      SlotLoad r pid file ((later.freeAll image.pointers).free stackAddr) none
  | unmapped {later : Resources} {process stackAddr argBlock task : Word} {image : Image}
      {tables : PageTables} (made : WithTask r file process image stackAddr argBlock task tables later)
      (failed : (processMapTaskMemory stackAddr argBlock image.executable taskPages).1 < 0) :
      SlotLoad r pid file (((later.taskFree task tables).freeAll image.pointers).free stackAddr) none
  | loaded {later : Resources} {process stackAddr argBlock task : Word} {image : Image}
      {tables : PageTables} (made : WithTask r file process image stackAddr argBlock task tables later)
      (mapped : 0 ≤ (processMapTaskMemory stackAddr argBlock image.executable taskPages).1) :
      SlotLoad r pid file later (some
        { pid := pid
          mem := ⟨fun _ => ⟨0, 0⟩,
            (processMapTaskMemory stackAddr argBlock image.executable taskPages).2⟩
          image := image, stackAddr := stackAddr, argBlock := argBlock, task := task
          kernelBlocks := process :: image.structs ++ task :: tables.blocks })

theorem processLoadForSlot_cases {pid : Nat} {result : Option Proc}
    (run : processLoadForSlot r pid file = some (later, result)) : SlotLoad r pid file later result := by
  obtain ⟨⟨process, r₁⟩, struct, rest⟩ := Option.bind_eq_some_iff.mp run
  simp only at rest
  split at rest
  case isTrue null =>
    cases rest
    exact .unallocated (null ▸ struct)
  case isFalse nonnull =>
    obtain ⟨⟨r₂, image⟩, data, rest⟩ := Option.bind_eq_some_iff.mp rest
    cases image with
    | none =>
        cases rest
        exact .unloaded ⟨struct, nonnull, data⟩
    | some image =>
        obtain ⟨⟨stackAddr, r₃⟩, stack, rest⟩ := Option.bind_eq_some_iff.mp rest
        have withStack : WithStack r file process image stackAddr r₃ := ⟨⟨struct, nonnull, data⟩, stack⟩
        simp only at rest
        split at rest
        case isTrue null =>
          cases rest
          exact .noStack (null ▸ withStack)
        case isFalse stackAddr_ne =>
          obtain ⟨⟨argBlock, r₄⟩, args, rest⟩ := Option.bind_eq_some_iff.mp rest
          simp only at rest
          split at rest
          case isTrue null =>
            cases rest
            exact .noArgs withStack stackAddr_ne (null ▸ args)
          case isFalse argBlock_ne =>
            obtain ⟨⟨task, r₅⟩, used, rest⟩ := Option.bind_eq_some_iff.mp rest
            obtain ⟨⟨tables, r₆⟩, pages, rest⟩ := Option.bind_eq_some_iff.mp rest
            have made := WithTask.intro withStack stackAddr_ne args argBlock_ne used pages
            simp only at rest
            split at rest
            case isTrue failed =>
              cases rest
              exact .unmapped made failed
            case isFalse mapped =>
              cases rest
              exact .loaded made (not_lt.mp mapped)

end ConiferOS.Kernel
