import ConiferOS.Memory.Ends

/-! # Blocks out of reach

A user of the heap that frees only addresses it was given, be it more than once, cannot
get at blocks that were in use before: what it is given was free, and no walk of
`heap_free` leads from such a block to another one.
-/

namespace ConiferOS.Heap

/-- What is in use in `base` is as it was, and no walk from a block that was free comes to it. -/
structure Shielded (base heap : HeapDesc) : Prop where
  table : KernelTable heap
  kept : ∀ i : Int, 0 ≤ i → i < heap.total → ¬ base.table.FreeAt i → heap.entry i = base.entry i
  closed : ∀ i : Int, 0 ≤ i → i + 1 < heap.total → base.table.FreeAt i →
    heap.entry i &&& blockHasNext ≠ 0 → base.table.FreeAt (i + 1)

/-- The address of a block that is free in `base`. -/
def Loose (base : HeapDesc) (ptr : Word) : Prop :=
  ∃ b : Int, 0 ≤ b ∧ b < 25600 ∧ base.table.FreeAt b ∧
    ptr = kernelHeapAddress + BitVec.ofInt 32 (b * heapBlockSize)

namespace Shielded

variable {base heap : HeapDesc}

theorem refl (table : KernelTable base) : Shielded base base where
  table := table
  kept := fun _ _ _ _ => rfl
  closed := fun i lower upper free next => absurd (table.clean i lower (by omega) free) next

theorem free_of_free (shielded : Shielded base heap) {i : Int} (lower : 0 ≤ i) (upper : i < heap.total)
    (free : heap.table.FreeAt i) : base.table.FreeAt i := by
  by_contra taken
  apply taken
  have same := shielded.kept i lower upper taken
  change heapGetEntryType (base.entry i) = entryFree
  rw [← same]
  exact free

/-- The blocks that the search answers with. -/
theorem found_free (shielded : Shielded base heap) {n : Nat} (found : 0 ≤ heapGetStartBlockIndex heap n)
    {i : Int} (above : heapGetStartBlockIndex heap n ≤ i) (below : i < heapGetStartBlockIndex heap n + n)
    (upper : i < heap.total) : base.table.FreeAt i := by
  refine shielded.free_of_free (by omega) upper ?_
  rcases (heapGetStartBlockIndex_spec heap n found).2 with ⟨-, -, free⟩ | ⟨-, free⟩
  · exact free i above below
  · exact free i above upper

theorem malloc (shielded : Shielded base heap) (size : Word) : Shielded base (heapMalloc heap size).2 := by
  have table := shielded.table.malloc size
  have total := (HeapState.heapMalloc_frame heap size).1
  rcases lt_or_ge (heapGetStartBlockIndex heap (blocksFor size)) 0 with failed | found
  · rw [KernelHeap.heapMalloc_failed failed]
    exact shielded
  · have free := fun i => shielded.found_free (n := blocksFor size) found (i := i)
    have entry := fun i => heapMarkBlocksTaken_entry heap (heapGetStartBlockIndex heap (blocksFor size))
      (blocksFor size) i
    refine ⟨table, ?_, ?_⟩ <;> rw [total, heapMalloc, heapMallocBlocks_found found]
    · intro i lower upper taken
      rw [entry, if_neg fun marked => taken (free i marked.1 marked.2 upper)]
      exact shielded.kept i lower upper taken
    · intro i lower upper wasFree next
      rw [entry] at next
      split at next
      case isTrue marked =>
        have inner := (blockEntry_hasNext _ _ i).mp next
        exact free (i + 1) (by omega) (by omega) upper
      case isFalse => exact shielded.closed i lower upper wasFree next

theorem loose (shielded : Shielded base heap) {size : Word} (nonnull : (heapMalloc heap size).1 ≠ 0) :
    Loose base (heapMalloc heap size).1 := by
  have found := not_lt.mp (mt (shielded.table.heapMalloc_null_iff size).mpr nonnull)
  have upper := (heapGetStartBlockIndex_spec heap (blocksFor size) found).1
  refine ⟨_, found, by rwa [shielded.table.total] at upper,
    shielded.free_of_free found upper (heapGetStartBlockIndex_free found), ?_⟩
  rw [heapMalloc, heapMallocBlocks_found found, heapBlockToAddress, shielded.table.start]

/-- Where a walk from a block that was free comes by. Induction on the blocks left; `walk` is
    the table with the entries before `i` cleared. -/
theorem visited (shielded : Shielded base heap) :
    ∀ (remaining : Nat) (i : Int) (walk : HeapDesc), 0 ≤ i → i + remaining = heap.total →
      (∀ j, i ≤ j → walk.entry j = heap.entry j) → base.table.FreeAt i →
      ∀ k ∈ markFreeAccesses remaining i walk, base.table.FreeAt k := by
  intro remaining
  induction remaining with
  | zero => exact fun _ _ _ _ _ _ _ member => by cases member
  | succ remaining ih =>
      intro i walk lower count same free k member
      simp only [markFreeAccesses, List.mem_cons] at member
      rcases member with rfl | later
      · exact free
      · split at later
        case isTrue => cases later
        case isFalse next =>
          rw [same i le_rfl] at next
          cases remaining with
          | zero => cases later
          | succ remaining =>
              push_cast at count
              refine ih (i + 1) _ (by omega) (by push_cast; omega) (fun j above => ?_)
                (shielded.closed i lower (by omega) free next) k later
              rw [entry_setEntry, if_neg (by omega), same j (by omega)]

/-- Calls of `heap_free` that visit only blocks that were free. -/
theorem of_visited (shielded : Shielded base heap) {ptr : Word}
    (visited : ∀ k ∈ heapFreeAccesses heap ptr, 0 ≤ k → k < heap.total → base.table.FreeAt k) :
    Shielded base (kfree heap ptr) := by
  have total : (kfree heap ptr).total = heap.total := HeapState.heapFree_total heap ptr
  refine ⟨shielded.table.kfree ptr, ?_, ?_⟩ <;> rw [total]
  · intro i lower upper taken
    rw [kfree_entry, if_neg fun member => taken (visited i member lower upper)]
    exact shielded.kept i lower upper taken
  · intro i lower upper free next
    rw [kfree_entry] at next
    split at next
    case isTrue => exact absurd (by decide) next
    case isFalse => exact shielded.closed i lower upper free next

theorem kfree (shielded : Shielded base heap) {ptr : Word} (loose : Loose base ptr) :
    Shielded base (Heap.kfree heap ptr) := by
  obtain ⟨b, lower, upper, free, rfl⟩ := loose
  have total := shielded.table.total
  have block : heapAddressToBlock heap (kernelHeapAddress + BitVec.ofInt 32 (b * heapBlockSize)) = b := by
    rw [← shielded.table.start]
    exact heapAddressToBlock_heapBlockToAddress heap b lower (by omega)
  refine shielded.of_visited fun k member _ _ => ?_
  rw [heapFreeAccesses, block] at member
  exact shielded.visited _ b heap lower (by omega) (fun _ _ => rfl) free k member

theorem kfree_null (shielded : Shielded base heap) : Shielded base (Heap.kfree heap 0) := by
  have total : (Heap.kfree heap 0).total = heap.total := HeapState.heapFree_total heap 0
  refine ⟨shielded.table.kfree 0, ?_, ?_⟩ <;> rw [total]
  · intro i lower upper taken
    rw [shielded.table.kfree_null_entry lower]
    exact shielded.kept i lower upper taken
  · intro i lower upper free next
    rw [shielded.table.kfree_null_entry lower] at next
    exact shielded.closed i lower upper free next

/-- `kfree` of the result of a `kzalloc`. -/
theorem kfree_given (shielded : Shielded base heap) {ptr : Word} (given : ptr ≠ 0 → Loose base ptr) :
    Shielded base (Heap.kfree heap ptr) := by
  by_cases null : ptr = 0
  · rw [null]
    exact shielded.kfree_null
  · exact shielded.kfree (given null)

/-- What was in use before an allocation is as it was. -/
theorem kept_before {before : HeapDesc} {size : Word} (shielded : Shielded (heapMalloc before size).2 heap)
    (table : KernelTable before) {i : Int} (lower : 0 ≤ i) (upper : i < before.total)
    (taken : ¬ before.table.FreeAt i) : heap.entry i = before.entry i := by
  have served := (Shielded.refl table).malloc size
  have total : heap.total = before.total := shielded.table.total.trans table.total.symm
  have still := served.kept i lower (by rwa [(HeapState.heapMalloc_frame before size).1]) taken
  rw [shielded.kept i lower (by rwa [total]) fun free => taken ?_, still]
  change heapGetEntryType (before.entry i) = entryFree
  rw [← still]
  exact free

/-- What the user of the heap starts from is an allocation that stays. -/
theorem not_sameTable {before : HeapDesc} {size : Word} (table : KernelTable before)
    (pos : 0 < blocksFor size) (nonnull : (heapMalloc before size).1 ≠ 0)
    (shielded : Shielded (heapMalloc before size).2 heap) : ¬ SameTable before heap := by
  intro same
  have found := not_lt.mp (mt (table.heapMalloc_null_iff size).mpr nonnull)
  have upper := (heapGetStartBlockIndex_spec before (blocksFor size) found).1
  have free : heapGetEntryType (before.entry (heapGetStartBlockIndex before (blocksFor size))) = entryFree :=
    heapGetStartBlockIndex_free found
  have taken : heapGetEntryType ((heapMalloc before size).2.entry
      (heapGetStartBlockIndex before (blocksFor size))) = entryTaken := by
    rw [heapMalloc, heapMallocBlocks_found found, heapMarkBlocksTaken_entry,
      if_pos ⟨le_rfl, by omega⟩, blockEntry_type]
  have total : heap.total = before.total := shielded.table.total.trans table.total.symm
  have kept := shielded.kept _ found (by rwa [total]) fun unused => by
    have type : heapGetEntryType _ = entryFree := unused
    exact absurd (taken.symm.trans type) (by decide)
  rw [← kept, same _ found upper, free] at taken
  exact absurd taken (by decide)

end Shielded

end ConiferOS.Heap
