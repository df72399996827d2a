import ConiferOS.Kernel.Isolation

/-! # The address space of a process

Where a flat binary, its stack and its arguments are mapped, and which calls of `malloc`
leave them there. The addresses of the kernel heap are used as addresses of the process,
and the page of the arguments is one of them.
-/

namespace ConiferOS.Kernel

open Heap Lib Paging Process

/-! ## Ranges of pages -/

/-- The page holds one of the `size` bytes from `virt` on. -/
def Covers (virt : Word) (size : Nat) (page : BitVec 20) : Prop :=
  ∃ k < size, page = Page.number (virt + BitVec.ofNat 32 k)

section Ranges

variable {virt phys : Word} {size : Nat} {page : BitVec 20}

theorem number_sub {k : Nat} (aligned : virt.toNat % 4096 = 0) (fits : virt.toNat + k < 2 ^ 32) :
    (Page.number (virt + BitVec.ofNat 32 k) - Page.number virt).toNat = k / 4096 := by
  have sum : (virt + BitVec.ofNat 32 k).toNat = virt.toNat + k := by bv_omega
  rw [BitVec.toNat_sub, Page.toNat_number, Page.toNat_number, sum]
  omega

theorem covers_iff (aligned : virt.toNat % 4096 = 0) (fits : virt.toNat + size ≤ 2 ^ 32) :
    Covers virt size page ↔ (page - Page.number virt).toNat < (size + 4095) / 4096 := by
  constructor
  · rintro ⟨k, inside, rfl⟩
    rw [number_sub aligned (by omega)]
    omega
  · intro near
    refine ⟨4096 * (page - Page.number virt).toNat, by omega, ?_⟩
    apply BitVec.eq_of_toNat_eq
    have number := Page.toNat_number virt
    have sum : (virt + BitVec.ofNat 32 (4096 * (page - Page.number virt).toNat)).toNat =
        virt.toNat + 4096 * (page - Page.number virt).toNat := by bv_omega
    rw [Page.toNat_number, sum]
    bv_omega

/-- The pages that are mapped for a range: the end is rounded up. -/
theorem mapped_pages (aligned : phys.toNat % 4096 = 0) (fits : phys.toNat + size ≤ 2 ^ 32 - 4096) :
    ((pagingAlignAddress (phys + BitVec.ofNat 32 size)).toNat - phys.toNat) / 4096 =
      (size + 4095) / 4096 := by
  have sum : (phys + BitVec.ofNat 32 size).toNat = phys.toNat + size := by bv_omega
  rw [pagingAlignAddress_eq _ (by omega), sum]
  omega

/-- A byte of a mapped range. -/
theorem translate_range {pages : PageMap} {prot : Word} {k : Nat} (virtAligned : virt.toNat % 4096 = 0)
    (physAligned : phys.toNat % 4096 = 0) (fits : virt.toNat + k < 2 ^ 32) (low : prot.toNat < 4096)
    (entry : pages (Page.number (virt + BitVec.ofNat 32 k)) =
      (phys + BitVec.ofNat 32 (4096 * (Page.number (virt + BitVec.ofNat 32 k) -
        Page.number virt).toNat)) ||| prot) :
    pages.translate (virt + BitVec.ofNat 32 k) = phys + BitVec.ofNat 32 k := by
  have sum : (virt + BitVec.ofNat 32 k).toNat = virt.toNat + k := by bv_omega
  rw [number_sub virtAligned fits] at entry
  rw [PageMap.translate, entry, Page.or_and_frameMask ?_ low, sum]
  · bv_omega
  · rw [BitVec.toNat_add, BitVec.toNat_ofNat]
    omega

end Ranges

/-! ## Flat binaries -/

/-- The address space of a flat binary: its image, its stack and its arguments, and all
    other memory at its own address. -/
structure FlatLayout (pages : PageMap) (stackAddr argBlock binaryExecutable size : Word) : Prop where
  image : ∀ k < size.toNat,
    pages.translate (taskLoadVirtualAddress + BitVec.ofNat 32 k) = binaryExecutable + BitVec.ofNat 32 k
  stack : ∀ k < taskStackSize,
    pages.translate (taskStackVirtAddrEnd + BitVec.ofNat 32 k) = stackAddr + BitVec.ofNat 32 k
  args : ∀ k < lenArgBlock,
    pages.translate (commandLineArgVirtualAddr + BitVec.ofNat 32 k) = argBlock + BitVec.ofNat 32 k
  writable : ∀ page, Covers taskLoadVirtualAddress size.toNat page ∨
      Covers taskStackVirtAddrEnd taskStackSize page ∨
      Covers commandLineArgVirtualAddr lenArgBlock page →
    pages page &&& userWritable = userWritable
  rest : ∀ va, ¬ Covers taskLoadVirtualAddress size.toNat (Page.number va) →
    ¬ Covers taskStackVirtAddrEnd taskStackSize (Page.number va) →
    ¬ Covers commandLineArgVirtualAddr lenArgBlock (Page.number va) →
    pages.translate va = va ∧ pages (Page.number va) &&& pagingReadWrite = 0

section Flat

variable {stackAddr argBlock binaryExecutable size : Word}

/-- The address of an allocation of the kernel heap. -/
structure HeapAddress (ptr : Word) : Prop where
  aligned : ptr.toNat % 4096 = 0
  below : ptr.toNat < 0x7400000

theorem heapAddress {heap : HeapDesc} {live : List Allocation} (kernel : KernelHeap heap live)
    {a : Allocation} (member : a ∈ live) : HeapAddress a.ptr := by
  have address := kernel.ptr_toNat member
  obtain ⟨lower, upper, -⟩ := kernel.table.bounds a member
  have total : heap.total = 25600 := kernel.total
  have inside : a.start < 25600 := by simpa [total] using upper
  constructor <;> omega

/-- Page by page, the map of a flat binary. -/
theorem flat_page (stack : HeapAddress stackAddr) (args : HeapAddress argBlock)
    (image : HeapAddress binaryExecutable) (bound : size.toNat ≤ 0x1C00000)
    (success : 0 ≤ (processMapTaskMemory stackAddr argBlock (.binary binaryExecutable size) taskPages).1)
    (page : BitVec 20) :
    (processMapTaskMemory stackAddr argBlock (.binary binaryExecutable size) taskPages).2 page =
      if (page - Page.number taskLoadVirtualAddress).toNat < (size.toNat + 4095) / 4096 then
        (binaryExecutable + BitVec.ofNat 32 (4096 * (page - Page.number taskLoadVirtualAddress).toNat))
          ||| userWritable
      else if (page - Page.number commandLineArgVirtualAddr).toNat < 1 then
        (argBlock + BitVec.ofNat 32 (4096 * (page - Page.number commandLineArgVirtualAddr).toNat))
          ||| userWritable
      else if (page - Page.number taskStackVirtAddrEnd).toNat < 4 then
        (stackAddr + BitVec.ofNat 32 (4096 * (page - Page.number taskStackVirtAddrEnd).toNat))
          ||| userWritable
      else taskPages page := by
  have imagePages : ((pagingAlignAddress (binaryExecutable + BitVec.ofNat 32 size.toNat)).toNat -
      binaryExecutable.toNat) / 4096 = (size.toNat + 4095) / 4096 :=
    mapped_pages image.aligned (by have := image.below; omega)
  rw [BitVec.ofNat_toNat, BitVec.setWidth_eq] at imagePages
  have argPages : ((pagingAlignAddress (argBlock + BitVec.ofNat 32 lenArgBlock)).toNat -
      argBlock.toNat) / 4096 = 1 :=
    mapped_pages args.aligned (by have := args.below; have : lenArgBlock = 180 := rfl; omega)
  have stackPages : ((pagingAlignAddress (stackAddr + BitVec.ofNat 32 taskStackSize)).toNat -
      stackAddr.toNat) / 4096 = 4 :=
    mapped_pages stack.aligned (by have := stack.below; have : taskStackSize = 16384 := rfl; omega)
  rw [processMapTaskMemory_page success, Executable.entry, imagePages, argPages, stackPages]
  split <;> rfl

theorem or_and_userWritable (frame : Word) : (frame ||| userWritable) &&& userWritable = userWritable := by
  rw [BitVec.and_comm, BitVec.and_or_distrib_left, BitVec.and_self, BitVec.or_comm]
  ext i inside
  simp only [BitVec.getElem_or, BitVec.getElem_and]
  cases userWritable[i] <;> simp

theorem covers_stack {page : BitVec 20} : Covers taskStackVirtAddrEnd taskStackSize page ↔
    (page - Page.number taskStackVirtAddrEnd).toNat < 4 := covers_iff (by decide) (by decide)

theorem covers_args {page : BitVec 20} : Covers commandLineArgVirtualAddr lenArgBlock page ↔
    (page - Page.number commandLineArgVirtualAddr).toNat < 1 := covers_iff (by decide) (by decide)

theorem covers_image (bound : size.toNat ≤ 0x1C00000) {page : BitVec 20} :
    Covers taskLoadVirtualAddress size.toNat page ↔
      (page - Page.number taskLoadVirtualAddress).toNat < (size.toNat + 4095) / 4096 :=
  covers_iff (by decide) (by rw [show taskLoadVirtualAddress.toNat = 0x400000 from rfl]; omega)

/-- The memory of a flat binary is where it was mapped, and nothing else has moved. -/
theorem flatLayout (stack : HeapAddress stackAddr) (args : HeapAddress argBlock)
    (image : HeapAddress binaryExecutable) (bound : size.toNat ≤ 0x1C00000)
    (success : 0 ≤ (processMapTaskMemory stackAddr argBlock (.binary binaryExecutable size) taskPages).1) :
    FlatLayout (processMapTaskMemory stackAddr argBlock (.binary binaryExecutable size) taskPages).2
      stackAddr argBlock binaryExecutable size := by
  have pageMap := flat_page stack args image bound success
  have load : (Page.number taskLoadVirtualAddress).toNat = 0x400 := by decide
  have lowStack : (Page.number taskStackVirtAddrEnd).toNat = 0x3FB := by decide
  have argPage : (Page.number commandLineArgVirtualAddr).toNat = 0x2000 := by decide
  have loadAligned : taskLoadVirtualAddress.toNat % 4096 = 0 := by decide
  have stackAligned : taskStackVirtAddrEnd.toNat % 4096 = 0 := by decide
  have argAligned : commandLineArgVirtualAddr.toNat % 4096 = 0 := by decide
  constructor
  · intro k inside
    have fits : taskLoadVirtualAddress.toNat + k < 2 ^ 32 := by
      rw [show taskLoadVirtualAddress.toNat = 0x400000 from rfl]
      omega
    refine translate_range loadAligned image.aligned fits (by decide : userWritable.toNat < 4096) ?_
    rw [pageMap, if_pos]
    rw [number_sub loadAligned fits]
    omega
  · intro k inside
    have size16 : taskStackSize = 16384 := rfl
    have fits : taskStackVirtAddrEnd.toNat + k < 2 ^ 32 := by
      rw [show taskStackVirtAddrEnd.toNat = 0x3FB000 from rfl]
      omega
    have offset := number_sub stackAligned fits
    refine translate_range stackAligned stack.aligned fits (by decide : userWritable.toNat < 4096) ?_
    rw [pageMap, if_neg (by bv_omega), if_neg (by bv_omega), if_pos (by omega)]
  · intro k inside
    have short : lenArgBlock = 180 := rfl
    have fits : commandLineArgVirtualAddr.toNat + k < 2 ^ 32 := by
      rw [show commandLineArgVirtualAddr.toNat = 0x2000000 from rfl]
      omega
    have offset := number_sub argAligned fits
    refine translate_range argAligned args.aligned fits (by decide : userWritable.toNat < 4096) ?_
    rw [pageMap, if_neg (by bv_omega), if_pos (by omega)]
  · intro page covered
    rw [covers_image bound, covers_stack, covers_args] at covered
    rw [pageMap]
    split_ifs with inImage inArgs inStack
    · exact or_and_userWritable _
    · exact or_and_userWritable _
    · exact or_and_userWritable _
    · rcases covered with image | stack | args
      exacts [absurd image inImage, absurd stack inStack, absurd args inArgs]
  · intro va noImage noStack noArgs
    rw [covers_image bound] at noImage
    rw [covers_stack] at noStack
    rw [covers_args] at noArgs
    have entry := pageMap (Page.number va)
    rw [if_neg noImage, if_neg noArgs, if_neg noStack] at entry
    refine ⟨?_, ?_⟩
    · rw [PageMap.translate, entry]
      exact PageMap.translate_linear _ va
    · rw [entry, taskPages_eq]
      exact and_readWrite (by rw [Page.toNat_base]; omega)

theorem flat_mapped (stack : HeapAddress stackAddr) (args : HeapAddress argBlock)
    (image : HeapAddress binaryExecutable) (bound : size.toNat ≤ 0x1C00000) :
    0 ≤ (processMapTaskMemory stackAddr argBlock (.binary binaryExecutable size) taskPages).1 := by
  obtain ⟨stackAligned, stackBelow⟩ := stack
  obtain ⟨argsAligned, argsBelow⟩ := args
  obtain ⟨imageAligned, imageBelow⟩ := image
  have sizes : taskStackSize = 16384 ∧ lenArgBlock = 180 := ⟨rfl, rfl⟩
  have sum : (binaryExecutable + size).toNat = binaryExecutable.toNat + size.toNat := by bv_omega
  refine processMapTaskMemory_rc taskPages stackAligned argsAligned (by omega) (by omega)
    ⟨imageAligned, ?_⟩
  rw [pagingAlignAddress_eq _ (by omega), sum]
  omega

/-- The address space of a flat binary of up to 28 MB, when its stack, its arguments and its
    image are allocations of the kernel heap. -/
theorem flat_binary_layout {heap : HeapDesc} {live : List Allocation} (kernel : KernelHeap heap live)
    {stack args image : Allocation} (stackLive : stack ∈ live) (argsLive : args ∈ live)
    (imageLive : image ∈ live)
    (bound : size.toNat ≤ commandLineArgVirtualAddr.toNat - taskLoadVirtualAddress.toNat) :
    0 ≤ (processMapTaskMemory stack.ptr args.ptr (.binary image.ptr size) taskPages).1 ∧
      FlatLayout (processMapTaskMemory stack.ptr args.ptr (.binary image.ptr size) taskPages).2
        stack.ptr args.ptr image.ptr size := by
  have stackAddress := heapAddress kernel stackLive
  have argsAddress := heapAddress kernel argsLive
  have imageAddress := heapAddress kernel imageLive
  have mapped := flat_mapped stackAddress argsAddress imageAddress bound
  exact ⟨mapped, flatLayout stackAddress argsAddress imageAddress bound mapped⟩

end Flat

/-! ### A small binary

The stack, the arguments and an image of one page are the first allocations of the kernel.
-/

def smallBinaryHeap : HeapDesc :=
  (heapMalloc (heapMalloc (heapMalloc freshHeap (BitVec.ofNat 32 taskStackSize)).2
    (BitVec.ofNat 32 lenArgBlock)).2 4096).2

def smallBinaryLive : List Allocation := [⟨0x1005000, 5, 1⟩, ⟨0x1004000, 4, 1⟩, ⟨0x1000000, 0, 4⟩]

theorem smallBinaryHeap_live : KernelHeap smallBinaryHeap smallBinaryLive ∧
      smallBinaryHeap.Compact 6 := by
  have fresh : KernelHeap freshHeap [] := KernelHeap.init rfl
  obtain ⟨first, compact₁⟩ := fresh.malloc_of_compact (KernelHeap.compact_init _) (by decide)
    (by decide : 0 < blocksFor (BitVec.ofNat 32 taskStackSize))
  obtain ⟨second, compact₂⟩ := first.malloc_of_compact compact₁ (by decide)
    (by decide : 0 < blocksFor (BitVec.ofNat 32 lenArgBlock))
  obtain ⟨third, compact₃⟩ := second.malloc_of_compact compact₂ (by decide)
    (by decide : 0 < blocksFor 4096)
  have stack : (heapMalloc freshHeap (BitVec.ofNat 32 taskStackSize)).1 = 0x1000000 :=
    BitVec.eq_of_toNat_eq (first.ptr_toNat List.mem_cons_self)
  have args : (heapMalloc (heapMalloc freshHeap (BitVec.ofNat 32 taskStackSize)).2
      (BitVec.ofNat 32 lenArgBlock)).1 = 0x1004000 :=
    BitVec.eq_of_toNat_eq (second.ptr_toNat List.mem_cons_self)
  have image : (heapMalloc (heapMalloc (heapMalloc freshHeap (BitVec.ofNat 32 taskStackSize)).2
      (BitVec.ofNat 32 lenArgBlock)).2 4096).1 = 0x1005000 :=
    BitVec.eq_of_toNat_eq (third.ptr_toNat List.mem_cons_self)
  rw [stack, args, image] at third
  exact ⟨third, compact₃⟩

/-- The layout of a binary of one page. -/
theorem flat_binary_layout_small :
    0 ≤ (processMapTaskMemory 0x1000000 0x1004000 (.binary 0x1005000 4096) taskPages).1 ∧
      FlatLayout (processMapTaskMemory 0x1000000 0x1004000 (.binary 0x1005000 4096) taskPages).2
        0x1000000 0x1004000 0x1005000 4096 := by
  have stack : ⟨0x1000000, 0, 4⟩ ∈ smallBinaryLive := by decide
  have args : ⟨0x1004000, 4, 1⟩ ∈ smallBinaryLive := by decide
  have image : ⟨0x1005000, 5, 1⟩ ∈ smallBinaryLive := by decide
  have small : (4096 : Word).toNat ≤ commandLineArgVirtualAddr.toNat - taskLoadVirtualAddress.toNat := by
    decide
  have layout := flat_binary_layout smallBinaryHeap_live.1 stack args image small
  exact layout

/-! ## Allocations of a process -/

/-- The pages that are in use before a process has allocated anything. -/
def Reserved (executable : Executable) (page : BitVec 20) : Prop :=
  Covers taskStackVirtAddrEnd taskStackSize page ∨ page = Page.number commandLineArgVirtualAddr ∨
    executable.Maps page

/-- What a call of `malloc` may do to an address space when it returns `ptr`. -/
structure MallocEffect (executable : Executable) (before after : PageMap) (ptr size : Word) : Prop where
  reserved : ∀ va, Reserved executable (Page.number va) → after.translate va = before.translate va
  changed : ∀ page, after page ≠ before page → ptr ≠ 0 ∧ Covers ptr size.toNat page
  usable : ptr ≠ 0 → ∀ k < size.toNat,
    after.translate (ptr + BitVec.ofNat 32 k) = ptr + BitVec.ofNat 32 k ∧
      after (Page.number (ptr + BitVec.ofNat 32 k)) &&& userWritable = userWritable

/-- The call returns, and has no other effect on the address space. -/
def MallocKeeps (heap : HeapDesc) (process : ProcessMem) (executable : Executable) (size : Word) : Prop :=
  ∃ ptr later process', processMallocSyscallHandler heap process size = some (ptr, later, process') ∧
    MallocEffect executable process.pages process'.pages ptr size

section Malloc

variable {heap : HeapDesc} {process : ProcessMem} {executable : Executable} {size : Word} {i : Int}

theorem MallocEffect.refl (executable : Executable) (pages : PageMap) (size : Word) :
    MallocEffect executable pages pages 0 size where
  reserved := fun _ _ => rfl
  changed := fun _ changed => absurd rfl changed
  usable := fun nonnull => absurd rfl nonnull

/-- The memory of an allocation that does no damage. -/
theorem served_range (table : KernelTable heap) (contained : KzallocContained heap size)
    (served : heap.ServedAt (blocksFor size) i) :
    0x1000000 ≤ (heapBlockToAddress heap i).toNat ∧ (heapBlockToAddress heap i).toNat % 4096 = 0 ∧
      (heapBlockToAddress heap i).toNat + size.toNat ≤ 2 ^ 32 - 4096 := by
  have start := served.start
  have lower : 0 ≤ i := by
    rcases served with ⟨-, fits, -⟩ | ⟨-, tail⟩
    exacts [fits.1, tail.lower]
  have upper := (heapGetStartBlockIndex_spec heap (blocksFor size) (by omega)).1
  rw [start, table.total] at upper
  obtain ⟨marks, cleared⟩ := contained (by omega)
  rw [start] at marks cleared
  have address := heapBlockToAddress_kernel table.start lower upper
  have blocks := blocksFor_eq size (by omega)
  have tableAddr : kernelHeapTableAddr.toNat = 0x7E00 := rfl
  rw [tableAddr, kernelImageAddr] at marks
  omega

/-- One page of a range that is mapped to itself. -/
theorem identity_page {ptr : Word} (pages : PageMap) (aligned : ptr.toNat % 4096 = 0)
    (fits : ptr.toNat + size.toNat ≤ 2 ^ 32 - 4096) :
    let mapping := pages.createMapping ptr ptr (pagingAlignAddress (ptr + size)) userWritable
    mapping.1 = 0 ∧ ∀ page,
      (Covers ptr size.toNat page → mapping.2 page = Page.base page ||| userWritable) ∧
      (¬ Covers ptr size.toNat page → mapping.2 page = pages page) := by
  have accepted := accepted_range userWritable aligned aligned fits
  have count := mapped_pages aligned fits
  rw [BitVec.ofNat_toNat, BitVec.setWidth_eq] at accepted count
  have success := PageMap.createMapping_rc pages accepted
  refine ⟨success, fun page => ?_⟩
  have entry := PageMap.createMapping_apply success.ge page
  rw [count] at entry
  rw [covers_iff aligned (by omega), entry]
  refine ⟨fun near => ?_, fun far => if_neg far⟩
  have frame : ptr + BitVec.ofNat 32 (4096 * (page - Page.number ptr).toNat) = Page.base page := by
    apply BitVec.eq_of_toNat_eq
    have number := Page.toNat_number ptr
    rw [Page.toNat_base]
    bv_omega
  rw [if_pos near, frame]

/-- A served allocation is mapped to itself. -/
theorem malloc_served (table : KernelTable heap) (contained : KzallocContained heap size)
    (served : heap.ServedAt (blocksFor size) i) {index : Nat}
    (slot : processGetFreeMemoryAllocationSlot process = some index) :
    ∃ later process', processMallocSyscallHandler heap process size =
        some (heapBlockToAddress heap i, later, process') ∧
      process'.pages = (process.pages.createMapping (heapBlockToAddress heap i) (heapBlockToAddress heap i)
        (pagingAlignAddress (heapBlockToAddress heap i + size)) userWritable).2 := by
  obtain ⟨above, aligned, fits⟩ := served_range table contained served
  have nonnull : heapBlockToAddress heap i ≠ 0 := by
    intro null
    rw [null] at above
    exact absurd above (by decide)
  have start := served.start
  have found : ¬ heapGetStartBlockIndex heap (blocksFor size) < 0 := by
    rcases served with ⟨-, fits, -⟩ | ⟨-, tail⟩
    exacts [start ▸ not_lt.mpr fits.1, start ▸ not_lt.mpr tail.lower]
  have mapped := (identity_page process.pages aligned fits).1
  have made : heapMalloc heap size =
      (heapBlockToAddress heap i, heapMarkBlocksTaken heap i (blocksFor size)) := by
    rw [heapMalloc, heapMallocBlocks, if_neg found, start]
  rw [userWritable] at mapped
  simp only [processMallocSyscallHandler, kzalloc, if_pos contained, made, if_neg nonnull, slot, mapped,
    lt_irrefl, if_false]
  exact ⟨_, _, rfl, rfl⟩

/-- Where nothing is served, or nothing can be recorded, no page changes. -/
theorem malloc_refused (contained : KzallocContained heap size)
    (refused : heap.Refuses (blocksFor size) ∨ processGetFreeMemoryAllocationSlot process = none) :
    ∃ later, processMallocSyscallHandler heap process size = some (0, later, process) := by
  simp only [processMallocSyscallHandler, kzalloc, if_pos contained]
  split
  case isTrue => exact ⟨_, rfl⟩
  case isFalse nonnull =>
    rcases refused with refused | full
    · have failed := KernelHeap.heapMalloc_failed ((heapGetStartBlockIndex_neg_iff_refuses _ _).mpr refused)
      exact absurd (congrArg Prod.fst failed) nonnull
    · rw [full]
      exact ⟨_, rfl⟩

/-- The frame of a page decides the translation of all its addresses. -/
theorem translate_congr {before after : PageMap} {page : BitVec 20} :
    (∀ va, Page.number va = page → after.translate va = before.translate va) ↔
      after page &&& Page.frameMask = before page &&& Page.frameMask := by
  constructor
  · intro same
    have number : Page.number (Page.base page) = page := by
      apply BitVec.eq_of_toNat_eq
      rw [Page.toNat_number, Page.toNat_base]
      omega
    have first := same (Page.base page) number
    rw [PageMap.translate, PageMap.translate, number] at first
    exact add_right_cancel first
  · rintro frame va rfl
    rw [PageMap.translate, PageMap.translate, frame]

/-- Which pages of a served allocation must have been mapped to themselves before. -/
theorem mallocEffect_iff {before after : PageMap} {ptr : Word} (nonnull : ptr ≠ 0)
    (aligned : ptr.toNat % 4096 = 0) (fits : ptr.toNat + size.toNat ≤ 2 ^ 32 - 4096)
    (mapping : after =
      (before.createMapping ptr ptr (pagingAlignAddress (ptr + size)) userWritable).2) :
    MallocEffect executable before after ptr size ↔
      ∀ page, Reserved executable page → Covers ptr size.toNat page →
        before page &&& Page.frameMask = Page.base page := by
  have pages := (identity_page before aligned fits).2
  rw [← mapping] at pages
  have framed : ∀ page, (Page.base page ||| userWritable) &&& Page.frameMask = Page.base page :=
    fun page => Page.or_and_frameMask (by rw [Page.toNat_base]; omega) (by decide)
  constructor
  · intro effect page reserved covered
    have same := translate_congr.mp fun va here => effect.reserved va (here ▸ reserved)
    rw [← same, (pages page).1 covered, framed]
  · intro already
    refine ⟨fun va reserved => ?_, fun page changed => ⟨nonnull, ?_⟩, fun _ k inside => ⟨?_, ?_⟩⟩
    · refine translate_congr.mpr ?_ va rfl
      by_cases covered : Covers ptr size.toNat (Page.number va)
      · rw [(pages _).1 covered, framed, already _ reserved covered]
      · rw [(pages _).2 covered]
    · by_contra outside
      exact changed ((pages page).2 outside)
    · have covered : Covers ptr size.toNat (Page.number (ptr + BitVec.ofNat 32 k)) := ⟨k, inside, rfl⟩
      rw [PageMap.translate, (pages _).1 covered, framed]
      apply BitVec.eq_of_toNat_eq
      rw [BitVec.toNat_add, Page.toNat_base, Page.toNat_number, BitVec.toNat_ofNat]
      omega
    · rw [(pages _).1 ⟨k, inside, rfl⟩]
      exact or_and_userWritable _

/-- A call that is served and recorded. -/
theorem mallocKeeps_served (table : KernelTable heap) (contained : KzallocContained heap size)
    (served : heap.ServedAt (blocksFor size) i) {index : Nat}
    (slot : processGetFreeMemoryAllocationSlot process = some index) :
    MallocKeeps heap process executable size ↔
      ∀ page, Reserved executable page → Covers (heapBlockToAddress heap i) size.toNat page →
        process.pages page &&& Page.frameMask = Page.base page := by
  obtain ⟨above, aligned, fits⟩ := served_range table contained served
  obtain ⟨later, process', run, mapping⟩ := malloc_served table contained served slot
  have nonnull : heapBlockToAddress heap i ≠ 0 := by
    intro null
    rw [null] at above
    exact absurd above (by decide)
  rw [← mallocEffect_iff nonnull aligned fits mapping]
  constructor
  · rintro ⟨ptr, _, _, other, keeps⟩
    obtain ⟨rfl, rfl, rfl⟩ : heapBlockToAddress heap i = ptr ∧ _ ∧ _ := by simpa [run] using other
    exact keeps
  · exact fun effect => ⟨_, _, _, run, effect⟩

/-- A call of `malloc` leaves the rest of the address space alone exactly when it does no
    damage to the kernel, and every slot is used or the block that is next to be given out
    has the address of no other memory of the process. -/
theorem malloc_keeps_iff (table : KernelTable heap) (process : ProcessMem) (executable : Executable)
    (size : Word) :
    MallocKeeps heap process executable size ↔
      KzallocContained heap size ∧
        ((∀ slot < processMaxAllocations, (process.memAllocs slot).ptr ≠ 0) ∨
          ∀ i, heap.ServedAt (blocksFor size) i → ∀ page, Reserved executable page →
            Covers (heapBlockToAddress heap i) size.toNat page →
            process.pages page &&& Page.frameMask = Page.base page) := by
  rw [← processGetFreeMemoryAllocationSlot_eq_none]
  by_cases contained : KzallocContained heap size
  case neg =>
    refine iff_of_false ?_ fun holds => contained holds.1
    rintro ⟨ptr, later, process', run, -⟩
    simp [processMallocSyscallHandler, kzalloc, if_neg contained] at run
  case pos =>
    have unchanged : heap.Refuses (blocksFor size) ∨ processGetFreeMemoryAllocationSlot process = none →
        MallocKeeps heap process executable size := by
      intro refused
      obtain ⟨later, run⟩ := malloc_refused contained refused
      exact ⟨0, later, process, run, .refl _ _ _⟩
    rw [and_iff_right contained]
    cases slot : processGetFreeMemoryAllocationSlot process with
    | none => exact iff_of_true (unchanged (.inr slot)) (.inl rfl)
    | some index =>
        rw [or_iff_right (by simp)]
        by_cases refused : heap.Refuses (blocksFor size)
        · exact iff_of_true (unchanged (.inl refused))
            fun i served => absurd served (refused.not_servedAt i)
        · have found := mt (heapGetStartBlockIndex_neg_iff_refuses heap _).mp refused
          have served := servedAt_heapGetStartBlockIndex (not_lt.mp found)
          rw [mallocKeeps_served table contained served slot]
          exact ⟨fun already i here => here.unique served ▸ already, fun already => already _ served⟩

end Malloc

/-! ### The page of the arguments

The first block that is free when 16 MB are taken has the address at which the arguments
of every process are mapped.
-/

/-- A process that has just been loaded from the small binary. -/
def smallBinary : ProcessMem :=
  ⟨fun _ => ⟨0, 0⟩, (processMapTaskMemory 0x1000000 0x1004000 (.binary 0x1005000 4096) taskPages).2⟩

theorem smallBinary_slot : processGetFreeMemoryAllocationSlot smallBinary = some 0 :=
  processGetFreeMemoryAllocationSlot_eq_zero rfl

theorem smallBinary_layout : FlatLayout smallBinary.pages 0x1000000 0x1004000 0x1005000 4096 := by
  have stack : HeapAddress 0x1000000 := ⟨by decide, by decide⟩
  have args : HeapAddress 0x1004000 := ⟨by decide, by decide⟩
  have image : HeapAddress 0x1005000 := ⟨by decide, by decide⟩
  have small : (4096 : Word).toNat ≤ 0x1C00000 := by decide
  exact flatLayout stack args image small (flat_mapped stack args image small)

/-- Another allocation fills the first 16 MB. -/
def fill (heap : HeapDesc) : HeapDesc := (heapMalloc heap 0xFFA000).2

theorem fill_live {heap : HeapDesc} {live : List Allocation} (kernel : KernelHeap heap live)
    (compact : heap.Compact 6) : (∃ live, KernelHeap (fill heap) live) ∧ (fill heap).Compact 4096 := by
  have blocks : blocksFor 0xFFA000 = 4090 := by decide
  have some : 0 < blocksFor 0xFFA000 := by rw [blocks]; decide
  obtain ⟨later, full⟩ := kernel.malloc_of_compact compact (by decide) some
  rw [blocks] at full
  exact ⟨⟨_, later⟩, full⟩

/-- The process loses its arguments. -/
theorem malloc_remaps_arguments :
    (∃ later process', processMallocSyscallHandler (fill smallBinaryHeap) smallBinary 4096 =
      some (commandLineArgVirtualAddr, later, process')) ∧
      smallBinary.pages.translate commandLineArgVirtualAddr = 0x1004000 ∧
      ¬ MallocKeeps (fill smallBinaryHeap) smallBinary (.binary 0x1005000 4096) 4096 := by
  obtain ⟨⟨live, kernel⟩, compact⟩ := fill_live smallBinaryHeap_live.1 smallBinaryHeap_live.2
  have table := kernel.kernelTable
  have contained := kernel.contained_of_compact compact (by decide : (4096 : Word).toNat ≤ _) (by decide)
    (by decide)
  have served := compact.servedAt (by rw [kernel.total]; decide) (blocksFor 4096)
  have address : heapBlockToAddress (fill smallBinaryHeap) (4096 : Nat) = commandLineArgVirtualAddr := by
    rw [heapBlockToAddress, table.start]
    decide
  obtain ⟨later, process', run, -⟩ := malloc_served table contained served smallBinary_slot
  have arguments : smallBinary.pages.translate commandLineArgVirtualAddr = 0x1004000 :=
    smallBinary_layout.args 0 (by decide)
  refine ⟨⟨later, process', address ▸ run⟩, arguments, ?_⟩
  rw [mallocKeeps_served table contained served smallBinary_slot, address]
  intro already
  have frame := already (Page.number commandLineArgVirtualAddr) (.inr (.inl rfl)) ⟨0, by decide, rfl⟩
  rw [PageMap.translate, frame] at arguments
  exact absurd arguments (by decide)

/-- The first `malloc` of the small binary. -/
theorem malloc_keeps_iff_small :
    MallocKeeps smallBinaryHeap smallBinary (.binary 0x1005000 4096) 4096 := by
  obtain ⟨kernel, compact⟩ := smallBinaryHeap_live
  have served := compact.servedAt (by rw [kernel.total]; decide) (blocksFor 4096)
  have address : heapBlockToAddress smallBinaryHeap (6 : Nat) = 0x1006000 := by
    rw [heapBlockToAddress, kernel.start]
    decide
  refine (malloc_keeps_iff kernel.kernelTable smallBinary _ 4096).mpr
    ⟨kernel.contained_of_compact compact (by decide) (by decide) (by decide), .inr ?_⟩
  intro i here page reserved covered
  rw [here.unique served, address, covers_iff (by decide) (by decide)] at covered
  have small : ((4096 : Word).toNat + 4095) / 4096 = 1 := by decide
  rw [small, show Page.number 0x1006000 = 0x1006 from rfl] at covered
  obtain rfl : page = 0x1006 := by bv_omega
  rcases reserved with stack | args | image
  · exact absurd (covers_stack.mp stack) (by decide)
  · exact absurd args (by decide)
  · have outside : ¬ (0x1006 - Page.number taskLoadVirtualAddress).toNat <
        ((pagingAlignAddress (0x1005000 + 4096)).toNat - (0x1005000 : Word).toNat) / 4096 := by
      decide
    exact absurd image outside

end ConiferOS.Kernel
