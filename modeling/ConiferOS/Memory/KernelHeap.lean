import ConiferOS.Memory.HeapInvariant

/-! # The kernel heap

The one heap of the kernel, with its table at `KERNEL_HEAP_TABLE_ADDR`, and the rules by
which its users reason: an allocation adds a live allocation, freeing it takes it away,
and freeing `NULL` walks through the memory below the table, where it is stopped by the
signature of the boot sector.
-/

namespace ConiferOS.Heap

/-- `kernel_heap_init`: the entries are the bytes of memory from `KERNEL_HEAP_TABLE_ADDR` on. -/
def kernelHeapInit (memory : Int → Entry) : HeapDesc :=
  (heapCreate ⟨⟨memory, 0⟩, 0⟩ kernelHeapAddress (kernelHeapAddress + BitVec.ofNat 32 kernelHeapSize)
    ⟨memory, kernelHeapSize / heapBlockSize⟩).2

/-- The bytes marked for the blocks of an allocation stay below the kernel image, and
    `memset` on it stays below 4 GB. -/
def KzallocContained (heap : HeapDesc) (size : Word) : Prop :=
  let start := heapGetStartBlockIndex heap (blocksFor size)
  0 ≤ start →
    kernelHeapTableAddr.toNat + start + blocksFor size ≤ kernelImageAddr ∧
      (heapBlockToAddress heap start).toNat + size.toNat ≤ 2 ^ 32

instance (heap : HeapDesc) (size : Word) : Decidable (KzallocContained heap size) :=
  inferInstanceAs (Decidable (_ → _ ∧ _))

/-- `none` when kernel memory is damaged. The cleared memory holds no heap entry. -/
def kzalloc (heap : HeapDesc) (size : Word) : Option (Word × HeapDesc) :=
  if KzallocContained heap size then some (heapMalloc heap size) else none

theorem kzalloc_eq_some {heap later : HeapDesc} {size ptr : Word}
    (run : kzalloc heap size = some (ptr, later)) :
    KzallocContained heap size ∧ (heapMalloc heap size).1 = ptr ∧ (heapMalloc heap size).2 = later := by
  rw [kzalloc] at run
  split at run
  case isTrue contained =>
    have result : heapMalloc heap size = (ptr, later) := Option.some.inj run
    rw [result]
    exact ⟨contained, rfl, rfl⟩
  case isFalse => cases run

def kfree (heap : HeapDesc) (ptr : Word) : HeapDesc := heapFree heap ptr

theorem heapBlockToAddress_kernel {heap : HeapDesc} (start : heap.startAddr = kernelHeapAddress)
    {b : Int} (lower : 0 ≤ b) (upper : b < 25600) :
    (heapBlockToAddress heap b).toNat = 0x1000000 + 4096 * b.toNat := by
  obtain ⟨n, rfl⟩ := Int.eq_ofNat_of_zero_le lower
  have product : (n : Int) * (heapBlockSize : Int) = ((n * 4096 : Nat) : Int) := by
    simp [heapBlockSize]
  rw [heapBlockToAddress, start, product, BitVec.ofInt_natCast, kernelHeapAddress]
  bv_omega

/-- The kernel heap between two calls, with its live allocations. -/
structure KernelHeap (heap : HeapDesc) (live : List Allocation) : Prop where
  table : HeapState.Inv ⟨heap, live⟩
  start : heap.startAddr = kernelHeapAddress
  total : heap.total = 25600
  -- `boot.asm` ends in the signature 0xAA55; its low byte is two below the table.
  signature : heap.entry (-2) &&& blockHasNext = 0

namespace KernelHeap

variable {heap : HeapDesc} {live : List Allocation}

theorem kernelHeapInit_eq (memory : Int → Entry) :
    kernelHeapInit memory = ⟨HeapEntryTable.clear ⟨memory, 25600⟩, kernelHeapAddress⟩ := by
  have created : heapCreate ⟨⟨memory, 0⟩, 0⟩ kernelHeapAddress
      (kernelHeapAddress + BitVec.ofNat 32 kernelHeapSize)
      ⟨memory, kernelHeapSize / heapBlockSize⟩ = (0, kernelHeapInit memory) := by
    rw [kernelHeapInit, heapCreate, if_neg (by decide), if_neg]
    simp only [heapValidTable]
    decide
  exact heapCreate_success created

theorem init {memory : Int → Entry} (signature : memory (-2) = 0x55) :
    KernelHeap (kernelHeapInit memory) [] where
  table := by
    rw [kernelHeapInit_eq]
    exact HeapState.inv_created ⟨memory, 25600⟩ kernelHeapAddress (by norm_num)
  start := by rw [kernelHeapInit_eq]
  total := by rw [kernelHeapInit_eq]; rfl
  signature := by
    rw [kernelHeapInit_eq, HeapDesc.entry, HeapEntryTable.clear]
    simp only [signature]
    decide

theorem compact_init (memory : Int → Entry) : (kernelHeapInit memory).Compact 0 := by
  rw [kernelHeapInit_eq]
  refine ⟨fun i lower upper => by omega, fun i lower upper => ?_⟩
  rw [HeapEntryTable.FreeAt, HeapEntryTable.clear]
  simp only
  rw [if_pos ⟨lower, upper⟩]
  decide

theorem heapBlockToAddress_toNat (kernel : KernelHeap heap live) {b : Int} (lower : 0 ≤ b)
    (upper : b < 25600) : (heapBlockToAddress heap b).toNat = 0x1000000 + 4096 * b.toNat :=
  heapBlockToAddress_kernel kernel.start lower upper

theorem ptr_toNat (kernel : KernelHeap heap live) {a : Allocation} (member : a ∈ live) :
    a.ptr.toNat = 0x1000000 + 4096 * a.start.toNat := by
  obtain ⟨lower, upper, -, address⟩ := kernel.table.bounds a member
  rw [address]
  exact kernel.heapBlockToAddress_toNat lower (by have := kernel.total; simp_all)

theorem ptr_ne_zero (kernel : KernelHeap heap live) {a : Allocation} (member : a ∈ live) :
    a.ptr ≠ 0 := by
  have address := kernel.ptr_toNat member
  intro null
  rw [null] at address
  change 0 = _ at address
  omega

/-- A new allocation is at an address of its own. -/
theorem ptr_fresh {a : Allocation} (kernel : KernelHeap heap (a :: live)) {b : Allocation}
    (member : b ∈ live) : b.ptr ≠ a.ptr := by
  intro same
  have later : b ∈ a :: live := List.mem_cons_of_mem a member
  have start := kernel.table.ptr_injective later List.mem_cons_self same
  have mine := kernel.table.owns_start List.mem_cons_self
  have yours := kernel.table.owns_start later
  rw [start] at yours
  exact (List.pairwise_cons.mp kernel.table.disjoint).1 b member a.start ⟨mine, yours⟩

/-- What fits into the free end of a compact table is contained in memory. -/
theorem contained_of_compact (kernel : KernelHeap heap live) {k : Nat} (compact : heap.Compact k)
    {size : Word} (fits : size.toNat ≤ 2 ^ 32 - 4096) (begins : k < 25600)
    (ends : k + blocksFor size ≤ 25600) : KzallocContained heap size := by
  have address := kernel.heapBlockToAddress_toNat (Int.natCast_nonneg k) (by exact_mod_cast begins)
  have blocks := blocksFor_eq size fits
  have table : kernelHeapTableAddr.toNat = 0x7E00 := rfl
  rw [KzallocContained, compact.start (by rw [kernel.total]; exact begins)]
  intro _
  rw [address, table, kernelImageAddr]
  omega

/-! ## Allocating and freeing -/

theorem malloc (kernel : KernelHeap heap live) {size : Word} (pos : 0 < blocksFor size)
    (found : 0 ≤ heapGetStartBlockIndex heap (blocksFor size)) :
    KernelHeap (heapMalloc heap size).2
      (⟨(heapMalloc heap size).1, heapGetStartBlockIndex heap (blocksFor size), blocksFor size⟩
        :: live) := by
  obtain ⟨total, start, below⟩ := HeapState.heapMalloc_frame heap size
  refine ⟨?_, start.trans kernel.start, total.trans kernel.total, ?_⟩
  · have inv := kernel.table.malloc pos
    rwa [HeapState.step, if_neg (by simpa using found)] at inv
  · rw [below (-2) (by decide)]
    exact kernel.signature

/-- An allocation on a compact heap takes the first free block. -/
theorem malloc_of_compact (kernel : KernelHeap heap live) {k : Nat} (compact : heap.Compact k)
    (begins : k < 25600) {size : Word} (pos : 0 < blocksFor size) :
    KernelHeap (heapMalloc heap size).2 (⟨(heapMalloc heap size).1, k, blocksFor size⟩ :: live) ∧
      (heapMalloc heap size).2.Compact (k + blocksFor size) := by
  have room : k < heap.total := by rw [kernel.total]; exact begins
  have here := compact.start room (blocksFor size)
  have served := kernel.malloc pos (by rw [here]; omega)
  obtain ⟨marks, still⟩ := compact.malloc room size
  refine ⟨here ▸ served, ?_⟩
  rw [marks]
  exact still

/-- Allocations on a compact heap. -/
theorem kzalloc_of_compact (kernel : KernelHeap heap live) {k : Nat} (compact : heap.Compact k)
    (size : Word) (pos : 1 ≤ size.toNat) (fits : size.toNat ≤ 2 ^ 32 - 4096) (begins : k < 25600)
    (ends : k + blocksFor size ≤ 25600) :
    ∃ ptr later live', kzalloc heap size = some (ptr, later) ∧ ptr ≠ 0 ∧ KernelHeap later live' ∧
      later.Compact (k + blocksFor size) := by
  obtain ⟨served, still⟩ :=
    kernel.malloc_of_compact compact begins (HeapState.blocksFor_pos pos fits)
  exact ⟨(heapMalloc heap size).1, (heapMalloc heap size).2, _,
    if_pos (kernel.contained_of_compact compact fits begins ends),
    served.ptr_ne_zero List.mem_cons_self, served, still⟩

theorem heapMalloc_failed {heap : HeapDesc} {size : Word}
    (failed : heapGetStartBlockIndex heap (blocksFor size) < 0) : heapMalloc heap size = (0, heap) :=
  if_pos failed

theorem free (kernel : KernelHeap heap live) {p : Word} (member : ∃ a ∈ live, a.ptr = p) :
    KernelHeap (kfree heap p) (live.eraseP (·.ptr = p)) := by
  refine ⟨kernel.table.free member, ?_, ?_, ?_⟩
  · rw [kfree, HeapState.heapFree_startAddr]
    exact kernel.start
  · rw [kfree, HeapState.heapFree_total]
    exact kernel.total
  · obtain ⟨a, member, rfl⟩ := member
    have lower := (kernel.table.bounds a member).1
    have entry := kernel.table.heapFree_entry member (-2)
    rw [if_neg (by omega)] at entry
    rw [kfree, entry]
    exact kernel.signature

/-- Taking an allocation back that has just been made. -/
theorem malloc_free (kernel : KernelHeap heap live) {size : Word} (pos : 0 < blocksFor size)
    (found : 0 ≤ heapGetStartBlockIndex heap (blocksFor size)) :
    KernelHeap (kfree (heapMalloc heap size).2 (heapMalloc heap size).1) live := by
  have freed := (kernel.malloc pos found).free ⟨_, List.mem_cons_self, rfl⟩
  rwa [List.eraseP_cons_of_pos (by simp)] at freed

/-- Entries of the table are all that counts, and the byte the walk from `NULL` stops at. -/
theorem congr (kernel : KernelHeap heap live) {later : HeapDesc} (total : later.total = heap.total)
    (start : later.startAddr = heap.startAddr)
    (same : ∀ i : Int, 0 ≤ i → later.entry i = heap.entry i)
    (signature : later.entry (-2) &&& blockHasNext = 0) : KernelHeap later live where
  table := kernel.table.congr total start fun i lower _ => same i lower
  start := start.trans kernel.start
  total := total.trans kernel.total
  signature := signature

theorem heapAddressToBlock_null (start : heap.startAddr = kernelHeapAddress) :
    heapAddressToBlock heap 0 = -4096 := by
  rw [heapAddressToBlock, start]
  decide

/-- The walk from `NULL` stops below the table. -/
theorem kfree_null_entry (start : heap.startAddr = kernelHeapAddress)
    (signature : heap.entry (-2) &&& blockHasNext = 0) {i : Int} (lower : 0 ≤ i) :
    (kfree heap 0).entry i = heap.entry i := by
  rw [kfree, heapFree, heapMarkBlocksFree, heapAddressToBlock_null start]
  exact (markFreeLoop_stops (-2) _ (-4096) heap (by decide) signature i).1 (by omega)

theorem free_null (kernel : KernelHeap heap live) : KernelHeap (kfree heap 0) live := by
  refine kernel.congr (HeapState.heapFree_total heap 0) (HeapState.heapFree_startAddr heap 0)
    (fun _ => kfree_null_entry kernel.start kernel.signature) ?_
  rw [kfree, heapFree, heapMarkBlocksFree, heapAddressToBlock_null kernel.start]
  rcases (markFreeLoop_stops (-2) _ (-4096) heap (by decide) kernel.signature (-2)).2 with
    same | cleared
  · rw [same]
    exact kernel.signature
  · rw [cleared]
    decide

/-- A request for no blocks is answered with a free block and marks nothing. -/
theorem heapMalloc_empty {heap : HeapDesc} {size : Word} (empty : blocksFor size = 0)
    (found : 0 ≤ heapGetStartBlockIndex heap (blocksFor size)) :
    heapMalloc heap size =
        (heapBlockToAddress heap (heapGetStartBlockIndex heap (blocksFor size)), heap) ∧
      heap.table.FreeAt (heapGetStartBlockIndex heap (blocksFor size)) := by
  refine ⟨?_, heapGetStartBlockIndex_free found⟩
  rw [heapMalloc, heapMallocBlocks, if_neg (not_lt.mpr found)]
  simp only [empty, heapMarkBlocksTaken, markTakenLoop]

theorem malloc_free_empty (kernel : KernelHeap heap live) {size : Word} (empty : blocksFor size = 0)
    (found : 0 ≤ heapGetStartBlockIndex heap (blocksFor size)) :
    KernelHeap (kfree (heapMalloc heap size).2 (heapMalloc heap size).1) live := by
  obtain ⟨marks, free⟩ := heapMalloc_empty empty found
  have upper := (heapGetStartBlockIndex_spec heap (blocksFor size) found).1
  have same := kernel.table.heapFree_of_free found upper free
  rw [marks]
  refine kernel.congr (HeapState.heapFree_total heap _) (HeapState.heapFree_startAddr heap _)
    (fun i _ => same i) ?_
  rw [kfree, same]
  exact kernel.signature

end KernelHeap

end ConiferOS.Heap
