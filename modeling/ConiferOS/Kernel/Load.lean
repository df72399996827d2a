import ConiferOS.Memory.Ownership
import ConiferOS.Process.Allocations
import ConiferOS.Process.Mapping
import ConiferOS.Task.List

/-! # Loading a process

`process_load_for_slot` as far as the heap, the page tables, the task list and the table
of open files go. The file layer is an argument: what it answers, and the heap calls it
makes on the way. `none` stands for a kernel that writes over memory it does not own, by
an allocation that leaves memory or through a `NULL` or an error code that it takes for a
pointer.
-/

namespace ConiferOS.Kernel

open Heap Loader Paging Process
open ConiferOS.Task (TaskList taskNew)

/-! ## What a load works on -/

def heapOp (heap : HeapDesc) : HeapOp → HeapDesc
  | .malloc size => (heapMalloc heap size).2
  | .free p => kfree heap p

/-- `held` are the blocks that the file layer has allocated during the load and not freed. -/
structure Resources where
  heap : HeapDesc
  openFiles : Nat → Bool
  tasks : TaskList
  held : List Word

namespace Resources

/-- Before a load. -/
def fresh (r : Resources) : Resources := { r with held := [] }

def free (r : Resources) (ptr : Word) : Resources := { r with heap := kfree r.heap ptr }

def freeAll (r : Resources) (ptrs : List Word) : Resources := ptrs.foldl free r

/-- An allocation on the heap of `r`. -/
def alloc {α : Type} (r : Resources) (f : HeapDesc → Option (α × HeapDesc)) :
    Option (α × Resources) := do
  let (ptr, heap) ← f r.heap
  some (ptr, { r with heap := heap })

end Resources

/-! ## The file layer -/

/-- A heap call of the file layer, which frees only what it holds. -/
inductive FileOp where
  | alloc (size : Word)
  | release (k : Nat)

def Resources.fileOp (r : Resources) : FileOp → Resources
  | .alloc size =>
      let (ptr, heap) := heapMalloc r.heap size
      { r with heap := heap, held := if ptr = 0 then r.held else ptr :: r.held }
  | .release k =>
      match r.held[k]? with
      | none => r
      | some ptr => { r.free ptr with held := r.held.eraseIdx k }

def Resources.fileOps (r : Resources) (ops : List FileOp) : Resources := ops.foldl Resources.fileOp r

/-- One use of a file: whether the file system opens and reads it, and the heap calls of
    `fopen`, `fread` and `fclose`. -/
structure FileAccess where
  opens : Bool
  reads : Bool
  opening : List FileOp
  reading : List FileOp
  closing : List FileOp

/-- The file of a load: what `fstat` says of it, its program headers if it is a valid ELF
    file, and its uses by the two loaders. `atNull` is what `process_free` finds to free
    when it takes address 0 for a `struct process`. -/
structure LoadFile where
  directory : Bool
  size : Word
  phdrs : Option (List Phdr)
  asElf : FileAccess
  asBinary : FileAccess
  atNull : List Word

namespace Resources

/-- The slot of the new descriptor. -/
def fopen (r : Resources) (access : FileAccess) : Option Nat × Resources :=
  let r := r.fileOps access.opening
  if access.opens = false then (none, r)
  else match (List.range maxOpenFiles).find? fun i => r.openFiles i = false with
    | none => (none, r)
    | some i => (some i, { r with openFiles := Function.update r.openFiles i true })

def fclose (r : Resources) (access : FileAccess) (fd : Nat) : Resources :=
  { r.fileOps access.closing with openFiles := Function.update r.openFiles fd false }

end Resources

/-! ## The executable -/

/-- What `struct process` says of its executable, with the size of the file. -/
inductive Image where
  | elf (elfFile elfFileBuffer size : Word) (phdrs : List Phdr)
  | binary (binaryExecutable size : Word)

namespace Image

def executable : Image → Executable
  | .elf _ elfFileBuffer _ phdrs => .elf elfFileBuffer phdrs
  | .binary binaryExecutable size => .binary binaryExecutable size

/-- The buffer with the contents of the file. -/
def buffer : Image → Word
  | .elf _ elfFileBuffer _ _ => elfFileBuffer
  | .binary binaryExecutable _ => binaryExecutable

def size : Image → Word
  | .elf _ _ size _ => size
  | .binary _ size => size

/-- The `struct elf_file`, if there is one. -/
def structs : Image → List Word
  | .elf elfFile _ _ _ => [elfFile]
  | .binary _ _ => []

/-- What `process_free` frees for the executable, in its order. -/
def pointers (image : Image) : List Word := image.buffer :: image.structs

end Image

def sizeofElfFile : Word := 152
def sizeofProcess : Word := 9388
def sizeofTask : Word := 64
def sizeofPagingDesc : Word := 4

/-- An allocation that is used without a look at the result. -/
def kzallocUsed (heap : HeapDesc) (size : Word) : Option (Word × HeapDesc) := do
  let (ptr, heap) ← kzalloc heap size
  if ptr = 0 then none else some (ptr, heap)

inductive ElfResult where
  | loaded (elfFile elfFileBuffer : Word) (phdrs : List Phdr)
  | badFormat
  | failed

/-- Neither of the first two failures after `fopen` closes the file again. -/
def elfFileInit (r : Resources) (file : LoadFile) : Option (Resources × ElfResult) := do
  let (elfFile, r) ← r.alloc (kzalloc · sizeofElfFile)
  if elfFile = 0 then some (r, .failed)
  else
    match r.fopen file.asElf with
    | (none, r) => some (r.free elfFile, .failed)
    | (some fd, r) =>
        if file.directory then some (r.free elfFile, .failed)
        else if file.size = 0 then
          -- `fread` refuses to read elements of no size.
          let (buffer, r) ← r.alloc (kzalloc · file.size)
          some ((r.free buffer).free elfFile, .failed)
        else
          let (buffer, r) ← r.alloc (kzallocUsed · file.size)
          let r := r.fileOps file.asElf.reading
          if file.asElf.reads = false then some ((r.free buffer).free elfFile, .failed)
          else
            match file.phdrs with
            | none => some (((r.free buffer).free elfFile).fclose file.asElf fd, .badFormat)
            | some phdrs => some (r.fclose file.asElf fd, .loaded elfFile buffer phdrs)

/-- The buffer is not freed when `fread` fails. -/
def processLoadBinaryExecutable (r : Resources) (file : LoadFile) :
    Option (Resources × Option Image) :=
  match r.fopen file.asBinary with
  | (none, r) => some (r, none)
  | (some fd, r) =>
      if file.directory then some (r.fclose file.asBinary fd, none)
      else do
        let (buffer, r) ← r.alloc (kzalloc · file.size)
        if buffer = 0 then some (r.fclose file.asBinary fd, none)
        else
          let r := (r.fileOps file.asBinary.reading).fclose file.asBinary fd
          some (r, if file.asBinary.reads then some (.binary buffer file.size) else none)

def processLoadData (r : Resources) (file : LoadFile) : Option (Resources × Option Image) := do
  match ← elfFileInit r file with
  | (r, .loaded elfFile buffer phdrs) => some (r, some (.elf elfFile buffer file.size phdrs))
  | (r, .badFormat) => processLoadBinaryExecutable r file
  | (r, .failed) => some (r, none)

/-! ## The task -/

def kzallocAll (heap : HeapDesc) : List Word → Option (List Word × HeapDesc)
  | [] => some ([], heap)
  | size :: sizes => do
      let (ptr, heap) ← kzallocUsed heap size
      let (ptrs, heap) ← kzallocAll heap sizes
      some (ptr :: ptrs, heap)

/-- The blocks of the page tables: the directory, its tables, and the descriptor. -/
structure PageTables where
  pgd : Word
  ptes : List Word
  paging : Word

def PageTables.blocks (tables : PageTables) : List Word := tables.pgd :: tables.ptes ++ [tables.paging]

/-- The allocations of `init_page_tables`, none of which it looks at. -/
def Resources.initPageTables (r : Resources) : Option (PageTables × Resources) := do
  let (pgd, r) ← r.alloc (kzallocUsed · (BitVec.ofNat 32 (4 * pagingDirEntries)))
  let (ptes, r) ← r.alloc
    (kzallocAll · (List.replicate pagingDirEntries (BitVec.ofNat 32 (4 * pagingTableEntries))))
  let (paging, r) ← r.alloc (kzallocUsed · sizeofPagingDesc)
  some (⟨pgd, ptes, paging⟩, r)

def pageTableEntryFlagsMask : Word := 0x00000FFF

/-- What `free_page_tables` takes for the address of a page table: the entry is multiplied
    by the mask. -/
def freedPageTable (pte : Word) : Word :=
  (pte ||| (pagingUserSupervisor ||| pagingPresent) ||| pagingReadWrite) * ~~~pageTableEntryFlagsMask

def Resources.freePageTables (r : Resources) (tables : PageTables) : Resources :=
  ((r.freeAll (tables.ptes.map freedPageTable)).free tables.pgd).free tables.paging

def Resources.taskFree (r : Resources) (task : Word) (tables : PageTables) : Resources :=
  let r := r.freePageTables tables
  { r with tasks := Task.taskFree r.tasks task }.free task

/-- `struct process` and its task, with the blocks that the kernel keeps for them. -/
structure Proc where
  pid : Nat
  mem : ProcessMem
  image : Image
  stackAddr : Word
  argBlock : Word
  task : Word
  kernelBlocks : List Word

/-- A new task sees all memory read-only. -/
def taskPages : PageMap := PageMap.linear ((pagingUserSupervisor ||| pagingPresent).setWidth 8)

/-- On every way out of a failure `process_free` leaves the `struct process` and the
    argument block. -/
def processLoadForSlot (r : Resources) (pid : Nat) (file : LoadFile) :
    Option (Resources × Option Proc) := do
  let (process, r) ← r.alloc (kzalloc · sizeofProcess)
  if process = 0 then some (r.freeAll file.atNull, none)
  else
    match ← processLoadData r file with
    | (r, none) => some (r, none)
    | (r, some image) =>
        let (stackAddr, r) ← r.alloc (kzalloc · (BitVec.ofNat 32 taskStackSize))
        if stackAddr = 0 then some (r.freeAll image.pointers, none)
        else
          let (argBlock, r) ← r.alloc (kzalloc · (BitVec.ofNat 32 lenArgBlock))
          if argBlock = 0 then some ((r.freeAll image.pointers).free stackAddr, none)
          else
            let (task, r) ← r.alloc (kzallocUsed · sizeofTask)
            let (tables, r) ← r.initPageTables
            let r := { r with tasks := (taskNew r.tasks task 0 process).2 }
            let mapping := processMapTaskMemory stackAddr argBlock image.executable taskPages
            if mapping.1 < 0 then
              some (((r.taskFree task tables).freeAll image.pointers).free stackAddr, none)
            else
              some (r, some
                { pid := pid, mem := ⟨fun _ => ⟨0, 0⟩, mapping.2⟩, image := image
                  stackAddr := stackAddr, argBlock := argBlock, task := task
                  kernelBlocks := process :: image.structs ++ task :: tables.blocks })

/-- `process_free`. -/
def processFree (r : Resources) (proc : Proc) : Resources :=
  let r := r.freeAll proc.image.pointers
  let r := if proc.stackAddr ≠ 0 then r.free proc.stackAddr else r
  (List.range processMaxAllocations).foldl
    (fun r i => if (proc.mem.memAllocs i).ptr ≠ 0 then r.free (proc.mem.memAllocs i).ptr else r) r

end ConiferOS.Kernel
