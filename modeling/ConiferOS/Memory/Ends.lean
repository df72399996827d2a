import ConiferOS.Memory.FirstFit
import ConiferOS.Memory.KernelHeap
import ConiferOS.Memory.StrayFree
import Mathlib.Data.Finset.Card
import Mathlib.Data.Int.Interval

/-! # Counting allocations

A count that needs to know nothing of who owns what: the blocks where a walk of
`heap_free` would end. An allocation adds one of them, and a call of `heap_free` takes
away at most one, whatever address it is called with. So a function that allocates more
often than it frees cannot leave the table as it was.
-/

namespace ConiferOS.Heap

/-- Block `i` is in use, and a walk over it goes no further. -/
def HeapDesc.EndsAt (heap : HeapDesc) (i : Int) : Prop :=
  ¬ heap.table.FreeAt i ∧ (heap.entry i &&& blockHasNext = 0 ∨ i + 1 = heap.total)

instance (heap : HeapDesc) : DecidablePred heap.EndsAt :=
  fun _ => inferInstanceAs (Decidable (_ ∧ _))

noncomputable def HeapDesc.ends (heap : HeapDesc) : Finset Int :=
  (Finset.Ico 0 (heap.total : Int)).filter heap.EndsAt

/-- The table of the kernel heap, whatever calls it has seen. -/
structure KernelTable (heap : HeapDesc) : Prop where
  start : heap.startAddr = kernelHeapAddress
  total : heap.total = 25600
  signature : heap.entry (-2) &&& blockHasNext = 0
  clean : ∀ i : Int, 0 ≤ i → i < heap.total → heap.table.FreeAt i → heap.entry i &&& blockHasNext = 0

/-- The entries of the table are the same. -/
def SameTable (heap later : HeapDesc) : Prop :=
  ∀ i : Int, 0 ≤ i → i < heap.total → later.entry i = heap.entry i

variable {heap later : HeapDesc}

theorem HeapDesc.EndsAt.congr {i : Int} (ends : heap.EndsAt i) (total : later.total = heap.total)
    (same : later.entry i = heap.entry i) : later.EndsAt i := by
  obtain ⟨taken, last⟩ := ends
  refine ⟨?_, ?_⟩
  · rw [HeapEntryTable.FreeAt] at taken ⊢
    change ¬ heapGetEntryType (later.entry i) = entryFree
    rwa [same]
  · rwa [same, total]

theorem ends_subset (total : later.total = heap.total)
    (same : ∀ i : Int, 0 ≤ i → i < heap.total → ¬ heap.table.FreeAt i →
      later.entry i = heap.entry i) : heap.ends ⊆ later.ends := by
  intro i member
  simp only [HeapDesc.ends, Finset.mem_filter, Finset.mem_Ico] at member ⊢
  obtain ⟨⟨lower, upper⟩, ends⟩ := member
  exact ⟨⟨lower, by rwa [total]⟩, ends.congr total (same i lower upper ends.1)⟩

/-- A table with more ends is another table. -/
theorem not_sameTable_of_ends (total : later.total = heap.total)
    (more : heap.ends.card < later.ends.card) : ¬ SameTable heap later := by
  intro same
  have fewer : later.ends ⊆ heap.ends :=
    ends_subset total.symm fun i lower upper _ => (same i lower (by rwa [← total])).symm
  exact absurd (Finset.card_le_card fewer) (not_le.mpr more)

/-! ## Allocating -/

/-- The blocks that an allocation marks were free, and the last of them in the table ends
    a walk from now on. -/
theorem ends_heapMalloc {size : Word} (pos : 0 < blocksFor size)
    (found : 0 ≤ heapGetStartBlockIndex heap (blocksFor size)) :
    heap.ends.card + 1 ≤ (heapMalloc heap size).2.ends.card := by
  obtain ⟨upper, run⟩ := heapGetStartBlockIndex_spec heap (blocksFor size) found
  rw [heapMalloc, heapMallocBlocks_found found]
  generalize heapGetStartBlockIndex heap (blocksFor size) = s at found upper run
  generalize blocksFor size = n at pos run
  let last : Int := min (s + n) heap.total - 1
  have free : ∀ j, s ≤ j → j ≤ last → heap.table.FreeAt j := by
    intro j above below
    rcases run with ⟨_, _, free⟩ | ⟨_, free⟩
    · exact free j above (by omega)
    · exact free j above (by omega)
  have fresh : last ∉ heap.ends := by
    intro member
    exact (Finset.mem_filter.mp member).2.1 (free last (by omega) le_rfl)
  rw [← Finset.card_insert_of_notMem fresh]
  apply Finset.card_le_card
  intro i member
  have entry := heapMarkBlocksTaken_entry heap s n i
  simp only [Finset.mem_insert, HeapDesc.ends, Finset.mem_filter, Finset.mem_Ico,
    heapMarkBlocksTaken_total] at member ⊢
  rcases member with rfl | ⟨inside, ends⟩
  · rw [if_pos (by omega)] at entry
    refine ⟨by omega, ?_, ?_⟩
    · change ¬ heapGetEntryType (HeapDesc.entry _ last) = entryFree
      rw [entry, blockEntry_type]
      decide
    · rw [entry, heapMarkBlocksTaken_total]
      by_cases cut : last + 1 = heap.total
      · exact .inr cut
      · exact .inl (not_not.mp (mt (blockEntry_hasNext s n last).mp (not_not.mpr (by omega))))
  · refine ⟨inside, ends.congr (heapMarkBlocksTaken_total heap s n) ?_⟩
    rw [entry, if_neg]
    exact fun marked => ends.1 (free i marked.1 (by omega))

theorem KernelTable.malloc (table : KernelTable heap) (size : Word) :
    KernelTable (heapMalloc heap size).2 := by
  obtain ⟨total, start, below⟩ := HeapState.heapMalloc_frame heap size
  refine ⟨start.trans table.start, total.trans table.total, ?_, ?_⟩
  · rw [below (-2) (by decide)]
    exact table.signature
  · rw [total, heapMalloc, heapMallocBlocks]
    split
    case isTrue => exact table.clean
    case isFalse =>
      intro i lower upper
      change heapGetEntryType (HeapDesc.entry _ i) = entryFree → _
      rw [heapMarkBlocksTaken_entry]
      split
      case isTrue =>
        rw [blockEntry_type]
        exact fun absurd => by cases absurd
      case isFalse => exact table.clean i lower upper

/-! ## Freeing -/

/-- The walk passes no end of another walk: only the block it stops at can be one. -/
theorem markFreeLoop_ends :
    ∀ (remaining : Nat) (i : Int) (heap : HeapDesc), (remaining ≠ 0 → i + remaining = heap.total) →
      ∃ stop, ∀ j, j ≠ stop → heap.EndsAt j →
        (markFreeLoop remaining i heap).entry j = heap.entry j := by
  intro remaining
  induction remaining with
  | zero => exact fun i _ _ => ⟨i, fun _ _ _ => rfl⟩
  | succ remaining ih =>
      intro i heap count
      have cleared : ∀ j, j ≠ i → (heap.setEntry i entryFree).entry j = heap.entry j := by
        intro j other
        rw [entry_setEntry, if_neg other]
      simp only [markFreeLoop]
      split
      case isTrue => exact ⟨i, fun j other _ => cleared j other⟩
      case isFalse next =>
        have edge := count (Nat.succ_ne_zero remaining)
        obtain ⟨stop, rest⟩ := ih (i + 1) (heap.setEntry i entryFree)
          (fun _ => by rw [total_setEntry]; push_cast at edge; omega)
        cases remaining with
        | zero => exact ⟨i, fun j other _ => cleared j other⟩
        | succ remaining =>
            refine ⟨stop, fun j other ends => ?_⟩
            -- A walk that goes on from `i` has not come to an end there.
            have passed : j ≠ i := by
              rintro rfl
              rcases ends.2 with final | final
              · exact next final
              · push_cast at edge
                omega
            rw [rest j other (ends.congr rfl (cleared j passed)), cleared j passed]

theorem ends_kfree (heap : HeapDesc) (ptr : Word) :
    heap.ends.card ≤ (kfree heap ptr).ends.card + 1 := by
  obtain ⟨stop, kept⟩ := markFreeLoop_ends (heap.total - heapAddressToBlock heap ptr).toNat
    (heapAddressToBlock heap ptr) heap (by omega)
  refine le_trans (Finset.card_le_card ?_) (Finset.card_insert_le stop (kfree heap ptr).ends)
  intro i member
  have total : (kfree heap ptr).total = heap.total := HeapState.heapFree_total heap ptr
  simp only [Finset.mem_insert, HeapDesc.ends, Finset.mem_filter, Finset.mem_Ico, total] at member ⊢
  by_cases here : i = stop
  · exact .inl here
  · exact .inr ⟨member.1, member.2.congr total (kept i here member.2)⟩

/-- The walk clears what it visits and nothing else. -/
theorem markFreeLoop_accesses (j : Int) :
    ∀ (remaining : Nat) (i : Int) (heap : HeapDesc),
      (markFreeLoop remaining i heap).entry j =
        if j ∈ markFreeAccesses remaining i heap then entryFree else heap.entry j := by
  intro remaining
  induction remaining with
  | zero => exact fun _ _ => rfl
  | succ remaining ih =>
      intro i heap
      simp only [markFreeLoop, markFreeAccesses, List.mem_cons]
      split
      case isTrue => simp
      case isFalse =>
        rw [ih (i + 1), entry_setEntry]
        grind

theorem kfree_entry (heap : HeapDesc) (ptr : Word) (j : Int) :
    (kfree heap ptr).entry j =
      if j ∈ heapFreeAccesses heap ptr then entryFree else heap.entry j :=
  markFreeLoop_accesses j _ _ heap

theorem KernelTable.kfree (table : KernelTable heap) (ptr : Word) : KernelTable (kfree heap ptr) := by
  have total : (Heap.kfree heap ptr).total = heap.total := HeapState.heapFree_total heap ptr
  refine ⟨(HeapState.heapFree_startAddr heap ptr).trans table.start, total.trans table.total, ?_, ?_⟩
  · rw [kfree_entry]
    split
    case isTrue => decide
    case isFalse => exact table.signature
  · intro i lower upper
    change heapGetEntryType (HeapDesc.entry _ i) = entryFree → _
    rw [kfree_entry]
    split
    case isTrue => exact fun _ => by decide
    case isFalse => exact table.clean i lower (by rwa [total] at upper)

theorem KernelTable.kfree_all (table : KernelTable heap) (ptrs : List Word) :
    KernelTable (ptrs.foldl Heap.kfree heap) := by
  induction ptrs generalizing heap with
  | nil => exact table
  | cons ptr ptrs ih => exact ih (table.kfree ptr)

/-! ## The kernel heap -/

namespace KernelTable

theorem block_ne_zero (table : KernelTable heap) {b : Int} (lower : 0 ≤ b) (upper : b < heap.total) :
    4096 ≤ (heapBlockToAddress heap b).toNat := by
  have total := table.total
  rw [heapBlockToAddress_kernel table.start lower (by omega)]
  omega

/-- `NULL` is returned when nothing is found. -/
theorem heapMalloc_null_iff (table : KernelTable heap) (size : Word) :
    (heapMalloc heap size).1 = 0 ↔ heapGetStartBlockIndex heap (blocksFor size) < 0 := by
  by_cases found : 0 ≤ heapGetStartBlockIndex heap (blocksFor size)
  · have upper := (heapGetStartBlockIndex_spec heap (blocksFor size) found).1
    have address := table.block_ne_zero found upper
    rw [heapMalloc, heapMallocBlocks_found found]
    refine iff_of_false (fun null => ?_) (not_lt.mpr found)
    simp only at null
    rw [null] at address
    exact absurd address (by decide)
  · have failed := not_le.mp found
    rw [KernelHeap.heapMalloc_failed failed]
    exact iff_of_true rfl failed

/-- Memory that `kzalloc` returns is in a block that it has marked. -/
theorem blocksFor_pos (table : KernelTable heap) {size ptr : Word}
    (run : kzalloc heap size = some (ptr, later)) (nonnull : ptr ≠ 0) (nonempty : size ≠ 0) :
    0 < blocksFor size := by
  obtain ⟨contained, rfl, -⟩ := kzalloc_eq_some run
  have found := not_lt.mp (mt (table.heapMalloc_null_iff size).mpr nonnull)
  have address := table.block_ne_zero found (heapGetStartBlockIndex_spec heap _ found).1
  obtain ⟨-, below⟩ := contained found
  have positive : size.toNat ≠ 0 := fun zero => nonempty (BitVec.eq_of_toNat_eq zero)
  exact HeapState.blocksFor_pos (by omega) (by omega)

/-- The walk from `NULL` stops at the signature of the boot sector. -/
theorem kfree_null_entry (table : KernelTable heap) {i : Int} (lower : 0 ≤ i) :
    (Heap.kfree heap 0).entry i = heap.entry i :=
  KernelHeap.kfree_null_entry table.start table.signature lower

/-- Giving back what was answered to a request for no blocks. -/
theorem ends_malloc_free_empty (table : KernelTable heap) {size : Word} (empty : blocksFor size = 0) :
    heap.ends.card ≤ (Heap.kfree (heapMalloc heap size).2 (heapMalloc heap size).1).ends.card := by
  apply Finset.card_le_card
  by_cases found : 0 ≤ heapGetStartBlockIndex heap (blocksFor size)
  · obtain ⟨marks, free⟩ := KernelHeap.heapMalloc_empty empty found
    have upper := (heapGetStartBlockIndex_spec heap (blocksFor size) found).1
    have total := table.total
    rw [marks]
    generalize heapGetStartBlockIndex heap (blocksFor size) = s at found free upper
    have block : heapAddressToBlock heap (heapBlockToAddress heap s) = s :=
      heapAddressToBlock_heapBlockToAddress heap s found (by omega)
    refine ends_subset (HeapState.heapFree_total heap _) fun i _ _ taken => ?_
    rw [Heap.kfree, heapFree, block, heapMarkBlocksFree_entry heap s s i le_rfl upper (by omega)
      (.inl (table.clean s found upper free)), if_neg]
    rintro ⟨above, below⟩
    exact taken (le_antisymm above below ▸ free)
  · rw [KernelHeap.heapMalloc_failed (not_le.mp found)]
    exact ends_subset (HeapState.heapFree_total heap 0) fun i lower _ _ => table.kfree_null_entry lower

end KernelTable

theorem KernelHeap.kernelTable {live : List Allocation} (kernel : KernelHeap heap live) :
    KernelTable heap where
  start := kernel.start
  total := kernel.total
  signature := kernel.signature
  clean := by
    intro i lower upper free
    have clear : heap.entry i = 0 := kernel.table.unowned i lower upper
      fun a member => kernel.table.not_owned_of_free free member
    rw [clear]
    decide

/-! ## Freeing addresses found by accident -/

/-- No address is that of a block in use, at the time when its turn comes. -/
def FreesNothing (heap : HeapDesc) : List Word → Prop
  | [] => True
  | ptr :: ptrs =>
      (∀ i ∈ heapFreeAccesses heap ptr, 0 ≤ i → i < heap.total → heap.entry i = entryFree) ∧
        FreesNothing (kfree heap ptr) ptrs

theorem kfree_all_cleared {i : Int} :
    ∀ (ptrs : List Word) (heap : HeapDesc), heap.entry i = entryFree →
      (ptrs.foldl kfree heap).entry i = entryFree := by
  intro ptrs
  induction ptrs with
  | nil => exact fun _ clear => clear
  | cons ptr ptrs ih =>
      intro heap clear
      refine ih (kfree heap ptr) ?_
      rw [kfree_entry, clear, ite_self]

theorem sameTable_iff_freesNothing :
    ∀ (ptrs : List Word) (heap : HeapDesc),
      SameTable heap (ptrs.foldl kfree heap) ↔ FreesNothing heap ptrs := by
  intro ptrs
  induction ptrs with
  | nil => exact fun heap => iff_of_true (fun _ _ _ => rfl) trivial
  | cons ptr ptrs ih =>
      intro heap
      have total : (kfree heap ptr).total = heap.total := HeapState.heapFree_total heap ptr
      have step := kfree_entry heap ptr
      rw [FreesNothing, ← ih (kfree heap ptr), List.foldl_cons]
      constructor
      · intro same
        have clear : ∀ i ∈ heapFreeAccesses heap ptr, 0 ≤ i → i < heap.total →
            heap.entry i = entryFree := by
          intro i visited lower upper
          rw [← same i lower upper]
          exact kfree_all_cleared ptrs _ (by rw [step, if_pos visited])
        refine ⟨clear, fun i lower upper => ?_⟩
        rw [total] at upper
        rw [same i lower upper, step]
        split
        case isTrue visited => exact clear i visited lower upper
        case isFalse => rfl
      · rintro ⟨clear, rest⟩ i lower upper
        rw [rest i lower (by rwa [total]), step]
        split
        case isTrue visited => exact (clear i visited lower upper).symm
        case isFalse => rfl

/-! ## Freeing the same address again -/

/-- There is nothing at the address that could be freed. -/
def Spent (heap : HeapDesc) (ptr : Word) : Prop :=
  heapAddressToBlock heap ptr < heap.total → heap.entry (heapAddressToBlock heap ptr) = entryFree

theorem heapAddressToBlock_kfree (heap : HeapDesc) (other ptr : Word) :
    heapAddressToBlock (kfree heap other) ptr = heapAddressToBlock heap ptr := by
  rw [heapAddressToBlock, heapAddressToBlock, kfree, HeapState.heapFree_startAddr]

theorem spent_kfree (heap : HeapDesc) (ptr : Word) : Spent (kfree heap ptr) ptr := by
  intro inside
  rw [heapAddressToBlock_kfree, kfree, HeapState.heapFree_total] at inside
  rw [heapAddressToBlock_kfree, kfree_entry, if_pos (mem_heapFreeAccesses inside)]

namespace Spent

variable {ptr : Word}

theorem kfree (spent : Spent heap ptr) (other : Word) : Spent (kfree heap other) ptr := by
  intro inside
  rw [heapAddressToBlock_kfree, Heap.kfree, HeapState.heapFree_total] at inside
  rw [heapAddressToBlock_kfree, kfree_entry, spent inside, ite_self]

theorem entry_kfree (spent : Spent heap ptr) (j : Int) : (Heap.kfree heap ptr).entry j = heap.entry j := by
  rw [kfree_entry]
  split
  case isTrue visited =>
    rw [heapFreeAccesses] at visited
    cases count : (heap.total - heapAddressToBlock heap ptr).toNat with
    | zero =>
        rw [count] at visited
        cases visited
    | succ remaining =>
        have free := spent (by omega)
        have ended : entryFree &&& blockHasNext = 0 := by decide
        rw [count, markFreeAccesses, free, if_pos ended, List.mem_singleton] at visited
        rw [visited, free]
  case isFalse => rfl

theorem ends_kfree (spent : Spent heap ptr) : heap.ends.card ≤ (Heap.kfree heap ptr).ends.card :=
  Finset.card_le_card (ends_subset (HeapState.heapFree_total heap ptr) fun i _ _ _ => spent.entry_kfree i)

end Spent

/-- However often they are freed, each address takes away at most one end. -/
theorem ends_kfree_all :
    ∀ (ptrs : List Word) (heap : HeapDesc) (spent : Finset Word), (∀ ptr ∈ spent, Spent heap ptr) →
      heap.ends.card + spent.card ≤
        (ptrs.foldl kfree heap).ends.card + (spent ∪ ptrs.toFinset).card := by
  intro ptrs
  induction ptrs with
  | nil => exact fun heap spent _ => by simp
  | cons ptr ptrs ih =>
      intro heap spent freed
      rw [List.foldl_cons, List.toFinset_cons]
      by_cases again : ptr ∈ spent
      · have rest := ih (kfree heap ptr) spent fun p member => (freed p member).kfree ptr
        rw [Finset.union_insert, Finset.insert_eq_of_mem (Finset.mem_union_left _ again)]
        exact le_trans (Nat.add_le_add_right (freed ptr again).ends_kfree _) rest
      · have rest := ih (kfree heap ptr) (insert ptr spent) fun p member => by
          rcases Finset.mem_insert.mp member with rfl | old
          · exact spent_kfree heap p
          · exact (freed p old).kfree ptr
        rw [Finset.card_insert_of_notMem again, Finset.insert_union, ← Finset.union_insert] at rest
        have step := ends_kfree heap ptr
        omega

/-! ## Free blocks -/

noncomputable def HeapDesc.freeBlocks (heap : HeapDesc) : Finset Int :=
  (Finset.Ico 0 (heap.total : Int)).filter heap.table.FreeAt

theorem mem_freeBlocks {b : Int} :
    b ∈ heap.freeBlocks ↔ (0 ≤ b ∧ b < heap.total) ∧ heap.table.FreeAt b := by
  simp [HeapDesc.freeBlocks]

/-- A request for one block takes a free one if there is any. -/
theorem heapMalloc_block {size : Word} (one : blocksFor size = 1) (room : heap.freeBlocks.Nonempty) :
    ∃ b ∈ heap.freeBlocks, (heapMalloc heap size).1 = heapBlockToAddress heap b ∧
      (heapMalloc heap size).2.freeBlocks = heap.freeBlocks.erase b := by
  obtain ⟨free, member⟩ := room
  obtain ⟨⟨lower, upper⟩, isFree⟩ := mem_freeBlocks.mp member
  have fits : heap.FitsAt 1 free := by
    refine ⟨lower, by push_cast; omega, fun j above below => ?_⟩
    obtain rfl : j = free := by push_cast at below; omega
    exact isFree
  have found : 0 ≤ heapGetStartBlockIndex heap 1 := by
    rw [← not_lt, heapGetStartBlockIndex_neg_iff heap le_rfl]
    exact fun full => full.1 free fits
  have here := (heapGetStartBlockIndex_spec heap 1 found).1
  have start := heapGetStartBlockIndex_free found
  have made := heapMallocBlocks_found found
  rw [heapMalloc, one, made]
  generalize heapGetStartBlockIndex heap 1 = b at *
  refine ⟨b, mem_freeBlocks.mpr ⟨⟨found, here⟩, start⟩, rfl, ?_⟩
  ext i
  have entry := heapMarkBlocksTaken_entry heap b 1 i
  simp only [Finset.mem_erase, mem_freeBlocks, heapMarkBlocksTaken_total, HeapEntryTable.FreeAt]
  change (_ ∧ heapGetEntryType (HeapDesc.entry _ i) = entryFree) ↔ _
  rw [entry]
  split
  case isTrue marked =>
    obtain rfl : i = b := by omega
    rw [blockEntry_type]
    exact iff_of_false (fun taken => absurd taken.2 (by decide)) fun other => other.1 rfl
  case isFalse unmarked =>
    have other : i ≠ b := by
      rintro rfl
      exact unmarked ⟨le_rfl, by push_cast; omega⟩
    exact (and_iff_right other).symm

/-! ## The heap at boot -/

def freshHeap : HeapDesc := kernelHeapInit fun _ => 0x55

theorem freshHeap_table : KernelTable freshHeap := (KernelHeap.init rfl).kernelTable

theorem freshHeap_start (n : Nat) : heapGetStartBlockIndex freshHeap n = 0 :=
  (KernelHeap.compact_init fun _ => 0x55).start (by rw [← freshHeap, freshHeap_table.total]; decide) n

theorem freshHeap_freeBlocks : freshHeap.freeBlocks.card = 25600 := by
  have free : ∀ i ∈ Finset.Ico (0 : Int) (freshHeap.total : Int), freshHeap.table.FreeAt i := by
    intro i member
    obtain ⟨lower, upper⟩ := Finset.mem_Ico.mp member
    exact (KernelHeap.compact_init fun _ => 0x55).free i (by exact_mod_cast lower) upper
  rw [HeapDesc.freeBlocks, Finset.filter_true_of_mem free, freshHeap_table.total]
  simp

theorem freshHeap_found (n : Nat) : ¬ freshHeap.Refuses n := by
  rw [← heapGetStartBlockIndex_neg_iff_refuses, freshHeap_start]
  decide

end ConiferOS.Heap
