import ConiferOS.Process.Allocations

/-! # Allocation bookkeeping

Every address in a `mem_allocs` slot is the start of a live allocation and stands in no
other slot. A slot that is not in use has address and size 0; `free(0)` therefore maps
no page and frees the block at address 0, which is below the table: the walk from there
stops in the boot sector before it reaches the first entry.
-/

namespace ConiferOS.Process

open Heap Paging Lib Lib.Run

structure AllocState where
  heap : HeapDesc
  procs : Word → ProcessMem

/-- System calls of any process, and what the kernel itself does with its heap. `wild` is
    the state after the kernel has written over itself. -/
inductive AllocOp where
  | malloc (process size : Word) (wild : AllocState)
  | free (process ptr : Word)
  | kernel (op : HeapOp)

namespace AllocState

def setProcess (s : AllocState) (process : Word) (mem : ProcessMem) : AllocState :=
  { s with procs := Function.update s.procs process mem }

def step (s : AllocState) : AllocOp → AllocState
  | .malloc process size wild =>
      match processMallocSyscallHandler s.heap (s.procs process) size with
      | none => wild
      | some (_, heap, mem) => { s with heap := heap }.setProcess process mem
  | .free process ptr =>
      let result := processFreeSyscallHandler s.heap (s.procs process) ptr
      { s with heap := result.1 }.setProcess process result.2
  | .kernel (.malloc size) => { s with heap := (heapMalloc s.heap size).2 }
  | .kernel (.free p) => { s with heap := heapFree s.heap p }

/-- The address of the first block of an allocation that is marked taken. -/
def StartsAllocation (heap : HeapDesc) (ptr : Word) : Prop :=
  ∃ b : Int, 0 ≤ b ∧ b < heap.total ∧ ptr = heapBlockToAddress heap b ∧
    heapGetEntryType (heap.entry b) = entryTaken ∧ heap.entry b &&& blockIsFirst ≠ 0

def alloc (s : AllocState) (process : Word) (i : Nat) : MemAllocation :=
  (s.procs process).memAllocs i

structure Bookkept (s : AllocState) : Prop where
  taken : ∀ p, ∀ i < processMaxAllocations, (s.alloc p i).ptr ≠ 0 →
    StartsAllocation s.heap (s.alloc p i).ptr
  unique : ∀ p, ∀ i < processMaxAllocations, ∀ q, ∀ j < processMaxAllocations,
    (s.alloc p i).ptr ≠ 0 → (s.alloc p i).ptr = (s.alloc q j).ptr → p = q ∧ i = j

/-- Freeing an address that the process has not recorded changes nothing. -/
def FreeHarmless (s : AllocState) : AllocOp → Prop
  | .malloc _ _ _ => True
  | .kernel _ => True
  | .free process ptr =>
      (ptr = 0 ∨ ∀ i < processMaxAllocations, (s.alloc process i).ptr ≠ ptr) →
        (∀ i : Int, 0 ≤ i → i < s.heap.total →
          (s.step (.free process ptr)).heap.entry i = s.heap.entry i) ∧
        ∀ q, ((s.step (.free process ptr)).procs q).pages = (s.procs q).pages ∧
          ∀ i < processMaxAllocations, (s.step (.free process ptr)).alloc q i = s.alloc q i

/-- `malloc` stays inside memory, and `malloc(0)` finds no block or no slot. The kernel
    asks for sizes that do not wrap and frees its own allocations. -/
def Fits (s : AllocState) : AllocOp → Prop
  | .malloc process size _ =>
      KzallocContained s.heap size ∧
        (size = 0 → 0 ≤ heapGetStartBlockIndex s.heap (blocksFor size) →
          processGetFreeMemoryAllocationSlot (s.procs process) = none)
  | .free _ _ => True
  | .kernel (.malloc size) => 1 ≤ size.toNat ∧ size.toNat ≤ 2 ^ 32 - 4096
  | .kernel (.free p) =>
      StartsAllocation s.heap p ∧ ∀ q, ∀ i < processMaxAllocations, (s.alloc q i).ptr ≠ p

end AllocState

/-! ## The slots of all processes -/

/-- What the slots say about the live allocations of the heap. -/
structure Slots (alloc : Word → Nat → MemAllocation) (live : List Allocation) : Prop where
  recorded : ∀ p, ∀ i < processMaxAllocations, (alloc p i).ptr ≠ 0 →
    ∃ a ∈ live, a.ptr = (alloc p i).ptr
  unique : ∀ p, ∀ i < processMaxAllocations, ∀ q, ∀ j < processMaxAllocations,
    (alloc p i).ptr ≠ 0 → (alloc p i).ptr = (alloc q j).ptr → p = q ∧ i = j
  unused : ∀ p, ∀ i < processMaxAllocations, (alloc p i).ptr = 0 → (alloc p i).size = 0

namespace Slots

variable {alloc later : Word → Nat → MemAllocation} {live : List Allocation}

theorem push (slots : Slots alloc live) (a : Allocation) : Slots alloc (a :: live) where
  recorded := fun p i bound used => by
    obtain ⟨b, member, same⟩ := slots.recorded p i bound used
    exact ⟨b, List.mem_cons_of_mem a member, same⟩
  unique := slots.unique
  unused := slots.unused

/-- An allocation that no slot records can go. -/
theorem erase (slots : Slots alloc live) {ptr : Word}
    (foreign : ∀ p, ∀ i < processMaxAllocations, (alloc p i).ptr ≠ 0 → (alloc p i).ptr ≠ ptr) :
    Slots alloc (live.eraseP (·.ptr = ptr)) where
  recorded := fun p i bound used => by
    obtain ⟨a, member, same⟩ := slots.recorded p i bound used
    have kept : a.ptr ≠ ptr := fun gone => foreign p i bound used (same.symm.trans gone)
    exact ⟨a, (List.mem_eraseP_of_neg (by simpa using kept)).mpr member, same⟩
  unique := slots.unique
  unused := slots.unused

/-- Another allocation in a slot, at an address that no slot has. -/
theorem set (slots : Slots alloc live) {process : Word} {index : Nat} {allocation : MemAllocation}
    (member : allocation.ptr ≠ 0 → ∃ a ∈ live, a.ptr = allocation.ptr)
    (fresh : allocation.ptr ≠ 0 → ∀ p, ∀ i < processMaxAllocations, (alloc p i).ptr ≠ allocation.ptr)
    (blank : allocation.ptr = 0 → allocation.size = 0)
    (change : ∀ p i, later p i = if p = process ∧ i = index then allocation else alloc p i) :
    Slots later live where
  recorded := by
    intro p i bound used
    rw [change] at used ⊢
    split at used
    case isTrue here =>
      rw [if_pos here]
      exact member used
    case isFalse other =>
      rw [if_neg other]
      exact slots.recorded p i bound used
  unique := by
    intro p i bi q j bj used same
    rw [change p i] at used same
    rw [change q j] at same
    split at same
    case isTrue here =>
      rw [if_pos here] at used
      split at same
      case isTrue there => exact ⟨here.1.trans there.1.symm, here.2.trans there.2.symm⟩
      case isFalse => exact absurd same.symm (fresh used q j bj)
    case isFalse other =>
      rw [if_neg other] at used
      split at same
      case isTrue => exact absurd same (fresh (same ▸ used) p i bi)
      case isFalse => exact slots.unique p i bi q j bj used same
  unused := by
    intro p i bound null
    rw [change] at null ⊢
    split at null
    case isTrue here =>
      rw [if_pos here]
      exact blank null
    case isFalse other =>
      rw [if_neg other]
      exact slots.unused p i bound null

end Slots

/-! ## What each call preserves -/

namespace AllocState

/-- The inductive form, with the live allocations of the heap. -/
structure Inv (s : AllocState) (live : List Allocation) : Prop where
  heap : KernelHeap s.heap live
  slots : Slots s.alloc live

variable {s : AllocState} {live : List Allocation}

theorem startsAllocation_iff {heap : HeapDesc} (kernel : KernelHeap heap live) (p : Word) :
    StartsAllocation heap p ↔ ∃ a ∈ live, a.ptr = p := by
  constructor
  · rintro ⟨b, lower, upper, address, -, first⟩
    obtain ⟨a, member, rfl⟩ := (kernel.table.described.first b lower upper).mp first
    exact ⟨a, member, (kernel.table.bounds a member).2.2.2.trans address.symm⟩
  · rintro ⟨a, member, rfl⟩
    obtain ⟨lower, upper, -, address⟩ := kernel.table.bounds a member
    have entry := kernel.table.owned a member _ (kernel.table.owns_start member)
    refine ⟨a.start, lower, upper, address, ?_, ?_⟩
    · rw [entry, blockEntry_type]
    · rw [entry, blockEntry_isFirst]

theorem Inv.bookkept (inv : s.Inv live) : s.Bookkept where
  taken := fun p i bound used =>
    (startsAllocation_iff inv.heap _).mpr (inv.slots.recorded p i bound used)
  unique := inv.slots.unique

@[simp] theorem setProcess_self (s : AllocState) (heap : HeapDesc) (process : Word) :
    ({ s with heap := heap } : AllocState).setProcess process (s.procs process) =
      { s with heap := heap } := by
  simp [setProcess]

theorem alloc_setAllocation (s : AllocState) (process : Word) (pages : PageMap) (index : Nat)
    (allocation : MemAllocation) (p : Word) (i : Nat) :
    (s.setProcess process
      (({ s.procs process with pages := pages } : ProcessMem).setAllocation index allocation)).alloc
        p i =
      if p = process ∧ i = index then allocation else s.alloc p i := by
  simp only [alloc, setProcess, ProcessMem.setAllocation, Function.update_apply]
  by_cases mine : p = process
  · subst mine
    simp [Function.update_apply]
  · simp [mine]

/-- A request that is contained in memory and needs no block is for 0 bytes. -/
theorem size_eq_zero {heap : HeapDesc} (kernel : KernelHeap heap live) {size : Word}
    (contained : KzallocContained heap size) (empty : blocksFor size = 0)
    (found : 0 ≤ heapGetStartBlockIndex heap (blocksFor size)) : size = 0 := by
  obtain ⟨upper, -⟩ := heapGetStartBlockIndex_spec heap (blocksFor size) found
  have address := kernel.heapBlockToAddress_toNat found (by rw [kernel.total] at upper; exact upper)
  have room := (contained found).2
  have blocks := blocksFor_eq size (by omega)
  have bytes : size.toNat = 0 := by omega
  exact BitVec.eq_of_toNat_eq bytes

theorem Inv.malloc (inv : s.Inv live) {process size : Word} (wild : AllocState)
    (fits : s.Fits (.malloc process size wild)) :
    ∃ live, (s.step (.malloc process size wild)).Inv live := by
  obtain ⟨contained, zero⟩ := fits
  rcases lt_or_ge (heapGetStartBlockIndex s.heap (blocksFor size)) 0 with failed | found
  · -- No block: `kfree(NULL)`.
    refine ⟨live, ?_⟩
    have result := KernelHeap.heapMalloc_failed failed
    rcases processMallocSyscallHandler_cases (s.procs process) contained with
      back | ⟨index, -, nonnull, -⟩
    · simp only [step, back, result, setProcess_self]
      exact ⟨inv.heap.free_null, inv.slots⟩
    · exact absurd (by rw [result]) nonnull
  rcases Nat.eq_zero_or_pos (blocksFor size) with empty | pos
  · -- No block was asked for, and there is no slot to record the result.
    refine ⟨live, ?_⟩
    have full := zero (size_eq_zero inv.heap contained empty found) found
    rcases processMallocSyscallHandler_cases (s.procs process) contained with
      back | ⟨index, slot, -⟩
    · simp only [step, back, setProcess_self]
      exact ⟨inv.heap.malloc_free_empty empty found, inv.slots⟩
    · exact absurd (full.symm.trans slot) (by simp)
  · have made := inv.heap.malloc pos found
    rcases processMallocSyscallHandler_cases (s.procs process) contained with
      back | ⟨index, slot, nonnull, -, recorded⟩
    · refine ⟨live, ?_⟩
      simp only [step, back, setProcess_self]
      exact ⟨inv.heap.malloc_free pos found, inv.slots⟩
    · simp only [step, recorded]
      refine ⟨_, made, (inv.slots.push _).set (fun _ => ⟨_, List.mem_cons_self, rfl⟩) ?_
        (fun null => absurd null nonnull) (alloc_setAllocation { s with heap := _ } process _ index _)⟩
      intro _ p i bound same
      obtain ⟨a, member, here⟩ := inv.slots.recorded p i bound (by rw [same]; exact nonnull)
      exact made.ptr_fresh member (here.trans same)

theorem Inv.free (inv : s.Inv live) (process ptr : Word) :
    ∃ live, (s.step (.free process ptr)).Inv live := by
  rcases processFreeSyscallHandler_cases s.heap (s.procs process) ptr with
    nothing | ⟨index, bound, here, -, freed⟩
  · refine ⟨live, ?_⟩
    simp only [step, nothing, setProcess_self]
    exact inv
  · simp only [step, freed]
    have cleared := inv.slots.set (absurd rfl) (absurd rfl) (fun _ => rfl)
      (alloc_setAllocation { s with heap := kfree s.heap ptr } process
        ((s.procs process).pages.createMapping ptr ptr
          (pagingAlignAddress (ptr + ((s.procs process).memAllocs index).size))
          (pagingUserSupervisor ||| pagingPresent)).2 index ⟨0, 0⟩)
    by_cases null : ptr = 0
    · subst null
      exact ⟨live, inv.heap.free_null, cleared⟩
    · have used : (s.alloc process index).ptr = ptr := here
      refine ⟨_, inv.heap.free ?_, cleared.erase ?_⟩
      · rw [← used] at null ⊢
        exact inv.slots.recorded process index bound null
      · -- No other slot records the address.
        intro p i bi
        rw [alloc_setAllocation]
        split
        case isTrue => exact fun zero => absurd rfl zero
        case isFalse other =>
          intro used' same
          exact other (inv.slots.unique p i bi process index bound used' (same.trans used.symm))

theorem Inv.kernel (inv : s.Inv live) {op : HeapOp} (fits : s.Fits (.kernel op)) :
    ∃ live, (s.step (.kernel op)).Inv live := by
  cases op with
  | malloc size =>
      have pos := HeapState.blocksFor_pos fits.1 fits.2
      simp only [step]
      rcases lt_or_ge (heapGetStartBlockIndex s.heap (blocksFor size)) 0 with failed | found
      · rw [KernelHeap.heapMalloc_failed failed]
        exact ⟨live, inv⟩
      · exact ⟨_, inv.heap.malloc pos found, inv.slots.push _⟩
  | free p =>
      obtain ⟨starts, foreign⟩ := fits
      have member := (startsAllocation_iff inv.heap p).mp starts
      exact ⟨_, inv.heap.free member, inv.slots.erase fun q i bound _ => foreign q i bound⟩

/-- An address that is not recorded is found in no slot, and 0 in an unused one. -/
theorem Inv.free_unrecorded (inv : s.Inv live) {process ptr : Word}
    (unrecorded : ptr = 0 ∨ ∀ i < processMaxAllocations, (s.alloc process i).ptr ≠ ptr) :
    s.step (.free process ptr) = s ∨ s.step (.free process ptr) = { s with heap := kfree s.heap 0 } := by
  rcases processFreeSyscallHandler_cases s.heap (s.procs process) ptr with
    nothing | ⟨index, bound, here, -, freed⟩
  · refine .inl ?_
    simp only [step, nothing, setProcess_self]
  · refine .inr ?_
    obtain rfl : ptr = 0 := unrecorded.resolve_right fun none => none index bound here
    have size : ((s.procs process).memAllocs index).size = 0 :=
      inv.slots.unused process index bound here
    have slot : (⟨0, 0⟩ : MemAllocation) = (s.procs process).memAllocs index :=
      calc (⟨0, 0⟩ : MemAllocation)
          = ⟨((s.procs process).memAllocs index).ptr, ((s.procs process).memAllocs index).size⟩ := by
            rw [here, size]
        _ = (s.procs process).memAllocs index := rfl
    have aligned : pagingAlignAddress (0 + 0) = 0 := by decide
    simp only [step, freed, size, aligned, PageMap.createMapping_empty, ProcessMem.setAllocation]
    rw [slot, Function.update_eq_self, setProcess_self]

theorem Inv.freeHarmless (inv : s.Inv live) (op : AllocOp) : s.FreeHarmless op := by
  cases op with
  | malloc | kernel => exact trivial
  | free process ptr =>
      intro unrecorded
      rcases inv.free_unrecorded unrecorded with same | same
      · rw [same]
        exact ⟨fun _ _ _ => rfl, fun _ => ⟨rfl, fun _ _ => rfl⟩⟩
      · rw [same]
        exact ⟨fun i lower _ => KernelHeap.kfree_null_entry inv.heap.start inv.heap.signature lower,
          fun _ => ⟨rfl, fun _ _ => rfl⟩⟩

theorem Inv.step (inv : s.Inv live) (op : AllocOp) (fits : s.Fits op) :
    ∃ live, (s.step op).Inv live := by
  cases op with
  | malloc process size wild => exact inv.malloc wild fits
  | free process ptr => exact inv.free process ptr
  | kernel op => exact inv.kernel fits

theorem not_startsAllocation_of_free {heap : HeapDesc} (kernel : KernelHeap heap live) {b : Int}
    (lower : 0 ≤ b) (upper : b < 25600) (free : heap.table.FreeAt b) :
    ¬ StartsAllocation heap (heapBlockToAddress heap b) := by
  rintro ⟨c, nonneg, inTable, here, taken, -⟩
  rw [kernel.total] at inTable
  have same : b = c := by
    have address := kernel.heapBlockToAddress_toNat lower upper
    have other := kernel.heapBlockToAddress_toNat nonneg inTable
    rw [here] at address
    omega
  have type : heapGetEntryType (heap.entry c) = entryFree := same ▸ free
  exact absurd (type.symm.trans taken) (by decide)

/-- `malloc(0)` that finds a block and a slot records a block that stays free. -/
theorem Inv.malloc_zero (inv : s.Inv live) {process : Word} {index : Nat} (wild : AllocState)
    (found : 0 ≤ heapGetStartBlockIndex s.heap (blocksFor 0))
    (slot : processGetFreeMemoryAllocationSlot (s.procs process) = some index) :
    ¬ (s.step (.malloc process 0 wild)).Bookkept := by
  obtain ⟨served, free⟩ := KernelHeap.heapMalloc_empty (by decide : blocksFor 0 = 0) found
  have upper := (heapGetStartBlockIndex_spec s.heap (blocksFor 0) found).1
  rw [inv.heap.total] at upper
  have address := inv.heap.heapBlockToAddress_toNat found upper
  have contained : KzallocContained s.heap 0 := by
    refine fun _ => ⟨?_, ?_⟩
    · have table : kernelHeapTableAddr.toNat = 0x7E00 := rfl
      have empty : blocksFor 0 = 0 := by decide
      rw [table, kernelImageAddr]
      omega
    · rw [address]
      change _ + 0 ≤ _
      omega
  generalize heapGetStartBlockIndex s.heap (blocksFor 0) = b at *
  have nonnull : heapBlockToAddress s.heap b ≠ 0 := by
    intro null
    rw [null] at address
    change 0 = _ at address
    omega
  have ends : pagingAlignAddress (heapBlockToAddress s.heap b + 0) = heapBlockToAddress s.heap b := by
    rw [add_zero]
    apply BitVec.eq_of_toNat_eq
    rw [pagingAlignAddress_eq _ (by omega)]
    omega
  have mapped : (s.procs process).pages.createMapping (heapBlockToAddress s.heap b)
      (heapBlockToAddress s.heap b) (pagingAlignAddress (heapBlockToAddress s.heap b + 0))
      (pagingPresent ||| pagingUserSupervisor ||| pagingReadWrite) = (0, (s.procs process).pages) := by
    rw [ends]
    exact Prod.ext (PageMap.createMapping_rc _ ⟨by omega, by omega, by omega, le_rfl⟩)
      (PageMap.createMapping_empty _ _ _ _)
  have handled : processMallocSyscallHandler s.heap (s.procs process) 0 =
      some (heapBlockToAddress s.heap b, s.heap,
        ({ s.procs process with pages := (s.procs process).pages } : ProcessMem).setAllocation index
          ⟨heapBlockToAddress s.heap b, 0⟩) := by
    simp only [processMallocSyscallHandler, kzalloc, if_pos contained, served, if_neg nonnull, slot,
      mapped, lt_irrefl, if_false]
  intro bookkept
  have starts := bookkept.taken process index (processGetFreeMemoryAllocationSlot_eq_some slot).1
  simp only [AllocState.step, handled] at starts
  rw [alloc_setAllocation, if_pos ⟨rfl, rfl⟩] at starts
  exact not_startsAllocation_of_free inv.heap found upper free (starts nonnull)

end AllocState

/-! ## Whole runs -/

/-- The kernel before the first process: all slots are empty. -/
def booted (memory : Int → Entry) (pages : Word → PageMap) : AllocState :=
  ⟨kernelHeapInit memory, fun p => ⟨fun _ => ⟨0, 0⟩, pages p⟩⟩

theorem booted_inv {memory : Int → Entry} (signature : memory (-2) = 0x55)
    (pages : Word → PageMap) : (booted memory pages).Inv [] where
  heap := KernelHeap.init signature
  slots := ⟨fun _ _ _ used => absurd rfl used, fun _ _ _ _ _ _ used => absurd rfl used,
    fun _ _ _ _ => rfl⟩

/-- On every run whose `malloc` calls fit, the slots stay in step with the heap. -/
theorem allocations_bookkept {memory : Int → Entry} (signature : memory (-2) = 0x55)
    (pages : Word → PageMap) (ops : List AllocOp)
    (fits : Always AllocState.step AllocState.Fits (booted memory pages) ops) :
    Always AllocState.step (fun s op => (s.step op).Bookkept ∧ s.FreeHarmless op)
      (booted memory pages) ops := by
  refine Always.imp_of_invariant (fun s => ∃ live, s.Inv live) ?_
    ⟨[], booted_inv signature pages⟩ fits
  rintro s op ⟨live, inv⟩ fits
  obtain ⟨later, kept⟩ := inv.step op fits
  exact ⟨⟨later, kept⟩, kept.bookkept, inv.freeHarmless op⟩

/-- A kernel without processes. -/
def idle : AllocState := booted (fun _ => 0x55) (fun _ => PageMap.linear 0)

theorem idle_contained (size : Word) (fits : size.toNat ≤ 4096 * 25600) :
    KzallocContained idle.heap size := by
  have kernel : KernelHeap idle.heap [] := KernelHeap.init rfl
  have blocks := blocksFor_eq size (by omega)
  exact kernel.contained_of_compact (KernelHeap.compact_init _) (by omega) (by omega) (by omega)

theorem allocations_bookkept_one_process :
    Always AllocState.step (fun s op => (s.step op).Bookkept ∧ s.FreeHarmless op) idle
      [.malloc 1 5000 idle, .free 1 0x1000000, .free 1 0] :=
  allocations_bookkept rfl _ _
    ⟨⟨idle_contained 5000 (by decide), fun zero => absurd zero (by decide)⟩, trivial, trivial, trivial⟩

/-- `malloc(0)` records the first block of the heap, which is still free. -/
theorem malloc_zero_records_free_block : ¬ (idle.step (.malloc 1 0 idle)).Bookkept := by
  have inv : idle.Inv [] := booted_inv rfl _
  have compact : idle.heap.Compact 0 := KernelHeap.compact_init _
  have start := compact.start (by rw [inv.heap.total]; decide) (blocksFor 0)
  exact inv.malloc_zero idle (by rw [start]; decide) (processGetFreeMemoryAllocationSlot_eq_zero rfl)

end ConiferOS.Process
