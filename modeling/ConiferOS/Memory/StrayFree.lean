import ConiferOS.Memory.HeapInvariant

/-! # Freeing an address that is no allocation

`heap_free` computes a block from any address and starts its walk there. It does not ask
whether the block is one of the heap, or the first one of an allocation.
-/

namespace ConiferOS.Heap

/-- The entries that the loop of `heap_mark_blocks_free` reads and writes. -/
def markFreeAccesses : (remaining : Nat) → (i : Int) → HeapDesc → List Int
  | 0, _, _ => []
  | remaining + 1, i, heap =>
      let entry := heap.entry i
      let heap := heap.setEntry i entryFree
      i :: if entry &&& blockHasNext = 0 then [] else markFreeAccesses remaining (i + 1) heap

def heapFreeAccesses (heap : HeapDesc) (ptr : Word) : List Int :=
  markFreeAccesses (heap.total - heapAddressToBlock heap ptr).toNat (heapAddressToBlock heap ptr) heap

/-- A table that is the image of its live allocations. -/
structure HeapState.WellFormed (s : HeapState) : Prop where
  bounds : ∀ a ∈ s.live, 0 ≤ a.start ∧ a.start < s.heap.total ∧ 0 < a.blocks ∧
    a.ptr = heapBlockToAddress s.heap a.start
  disjoint : s.live.Pairwise fun a b => ∀ i, ¬ (a.Owns s.heap i ∧ b.Owns s.heap i)
  owned : ∀ a ∈ s.live, ∀ i, a.Owns s.heap i → s.heap.entry i = blockEntry a.start a.blocks i
  unowned : ∀ i : Int, 0 ≤ i → i < s.heap.total → (∀ a ∈ s.live, ¬ a.Owns s.heap i) → s.heap.entry i = 0

/-- Only table entries are touched, and if the address is not that of an allocation, no
    allocation is. -/
structure HeapState.FreeHarmless (s : HeapState) (ptr : Word) : Prop where
  inTable : ∀ i ∈ heapFreeAccesses s.heap ptr, 0 ≤ i ∧ i < s.heap.total
  untouched : (∀ a ∈ s.live, a.ptr ≠ ptr) → ∀ a ∈ s.live, ∀ i, a.Owns s.heap i →
    (heapFree s.heap ptr).entry i = s.heap.entry i

/-- The address falls into block `b`. Distances are signed; the last 4095 bytes before the
    heap count as part of its first block. -/
def HeapDesc.BlockOf (heap : HeapDesc) (ptr : Word) (b : Int) : Prop :=
  let distance := (ptr - heap.startAddr).toInt
  (heapBlockSize * b ≤ distance ∧ distance < heapBlockSize * (b + 1)) ∨
    (b = 0 ∧ -(heapBlockSize : Int) < distance ∧ distance < 0)

theorem heapAddressToBlock_eq_iff (heap : HeapDesc) (ptr : Word) {b : Int} (nonneg : 0 ≤ b) :
    heapAddressToBlock heap ptr = b ↔ heap.BlockOf ptr b := by
  simp only [heapAddressToBlock, HeapDesc.BlockOf, heapBlockSize]
  generalize (ptr - heap.startAddr).toInt = distance
  push_cast
  rcases lt_or_ge distance 0 with negative | positive
  · have quotient : distance.tdiv 4096 = -((-distance) / 4096) := by
      rw [← Int.tdiv_eq_ediv_of_nonneg (by omega), Int.neg_tdiv, neg_neg]
    omega
  · rw [Int.tdiv_eq_ediv_of_nonneg positive]
    omega

theorem markFreeAccesses_range :
    ∀ (remaining : Nat) (i : Int) (heap : HeapDesc), ∀ k ∈ markFreeAccesses remaining i heap,
      i ≤ k ∧ k < i + remaining := by
  intro remaining
  induction remaining with
  | zero => intro i heap k member; cases member
  | succ remaining ih =>
      intro i heap k member
      simp only [markFreeAccesses, List.mem_cons] at member
      rcases member with rfl | later
      · exact ⟨le_rfl, by push_cast; omega⟩
      · split at later
        case isTrue => cases later
        case isFalse =>
          obtain ⟨lower, upper⟩ := ih (i + 1) _ k later
          exact ⟨by omega, by push_cast; omega⟩

/-- The walk starts with its first block, if that is before the end of the table. -/
theorem mem_heapFreeAccesses {heap : HeapDesc} {ptr : Word}
    (before : heapAddressToBlock heap ptr < heap.total) :
    heapAddressToBlock heap ptr ∈ heapFreeAccesses heap ptr := by
  obtain ⟨remaining, count⟩ : ∃ remaining : Nat,
      (heap.total - heapAddressToBlock heap ptr).toNat = remaining + 1 :=
    ⟨(heap.total - heapAddressToBlock heap ptr).toNat - 1, by omega⟩
  rw [heapFreeAccesses, count, markFreeAccesses]
  exact List.mem_cons_self

theorem markFreeLoop_below {j : Int} :
    ∀ (remaining : Nat) (i : Int) (heap : HeapDesc), j < i →
      (markFreeLoop remaining i heap).entry j = heap.entry j := by
  intro remaining
  induction remaining with
  | zero => exact fun _ _ _ => rfl
  | succ remaining ih =>
      intro i heap below
      have here : (heap.setEntry i entryFree).entry j = heap.entry j := by
        rw [entry_setEntry, if_neg (by omega)]
      simp only [markFreeLoop]
      split
      case isTrue => exact here
      case isFalse => rw [ih (i + 1) _ (by omega), here]

/-- The first block of the walk is free afterwards. -/
theorem heapFree_entry_first {heap : HeapDesc} {ptr : Word}
    (before : heapAddressToBlock heap ptr < heap.total) :
    (heapFree heap ptr).entry (heapAddressToBlock heap ptr) = entryFree := by
  obtain ⟨remaining, count⟩ : ∃ remaining : Nat,
      (heap.total - heapAddressToBlock heap ptr).toNat = remaining + 1 :=
    ⟨(heap.total - heapAddressToBlock heap ptr).toNat - 1, by omega⟩
  have here : (heap.setEntry (heapAddressToBlock heap ptr) entryFree).entry
      (heapAddressToBlock heap ptr) = entryFree := by
    rw [entry_setEntry, if_pos rfl]
  rw [heapFree, heapMarkBlocksFree, count]
  simp only [markFreeLoop]
  split
  case isTrue => exact here
  case isFalse => rw [markFreeLoop_below _ _ _ (by omega), here]

namespace HeapState

variable {s : HeapState}

theorem Inv.wellFormed (inv : s.Inv) : s.WellFormed :=
  ⟨inv.bounds, inv.disjoint, inv.owned, inv.unowned⟩

/-- A block of the table is free or belongs to an allocation. -/
theorem WellFormed.free_or_owned (wf : s.WellFormed) {b : Int} (lower : 0 ≤ b)
    (upper : b < s.heap.total) : s.heap.entry b = 0 ∨ ∃ a ∈ s.live, a.Owns s.heap b := by
  by_cases owner : ∃ a ∈ s.live, a.Owns s.heap b
  · exact .inr owner
  · push Not at owner
    exact .inl (wf.unowned b lower upper owner)

theorem WellFormed.taken (wf : s.WellFormed) {a : Allocation} (member : a ∈ s.live) {i : Int}
    (owns : a.Owns s.heap i) : heapGetEntryType (s.heap.entry i) = entryTaken := by
  rw [wf.owned a member i owns, blockEntry_type]

/-- Freeing from a clear entry changes nothing. -/
theorem heapFree_of_clear {heap : HeapDesc} {ptr : Word}
    (before : heapAddressToBlock heap ptr < heap.total)
    (clear : heap.entry (heapAddressToBlock heap ptr) = 0) (j : Int) :
    (heapFree heap ptr).entry j = heap.entry j := by
  rw [heapFree, heapMarkBlocksFree_entry heap _ _ j le_rfl before (by omega)
    (.inl (by rw [clear]; decide))]
  split
  case isTrue here =>
    obtain rfl : j = heapAddressToBlock heap ptr := by omega
    rw [clear]
    rfl
  case isFalse => rfl

/-- `heap_free` is harmless exactly for the addresses of allocations, for addresses in free
    blocks and for addresses behind the heap, all of them less than 2 GB above its start. -/
theorem stray_free_harmless_iff (wf : s.WellFormed) (ptr : Word) :
    s.FreeHarmless ptr ↔ ∃ b : Int, 0 ≤ b ∧ s.heap.BlockOf ptr b ∧
      (s.heap.total ≤ b ∨ s.heap.table.FreeAt b ∨ ∃ a ∈ s.live, a.ptr = ptr) := by
  constructor
  · intro harmless
    have nonneg : 0 ≤ heapAddressToBlock s.heap ptr := by
      by_contra negative
      have inTable := harmless.inTable _ (mem_heapFreeAccesses (by omega))
      omega
    refine ⟨_, nonneg, (heapAddressToBlock_eq_iff s.heap ptr nonneg).mp rfl, ?_⟩
    by_contra bad
    push Not at bad
    obtain ⟨before, taken, stray⟩ := bad
    rcases wf.free_or_owned nonneg before with clear | ⟨a, member, owns⟩
    · refine taken ?_
      change heapGetEntryType (s.heap.entry _) = entryFree
      rw [clear]
      decide
    · -- The block loses the mark of its owner.
      have same := harmless.untouched stray a member _ owns
      have type := wf.taken member owns
      rw [← same, heapFree_entry_first before] at type
      exact absurd type (by decide)
  · rintro ⟨b, nonneg, block, good⟩
    have start := (heapAddressToBlock_eq_iff s.heap ptr nonneg).mpr block
    constructor
    · intro i member
      obtain ⟨lower, upper⟩ := markFreeAccesses_range _ _ _ i member
      omega
    · intro stray a member i owns
      by_cases before : b < s.heap.total
      · have free : s.heap.table.FreeAt b := by
          rcases good with behind | free | ⟨a, member, same⟩
          · omega
          · exact free
          · exact absurd same (stray a member)
        rcases wf.free_or_owned nonneg before with clear | ⟨a, member, owner⟩
        · exact heapFree_of_clear (by omega) (by rw [start, clear]) i
        · exact absurd (free.symm.trans (wf.taken member owner)) (by decide)
      · have none : (s.heap.total - heapAddressToBlock s.heap ptr).toNat = 0 := by omega
        rw [heapFree, heapMarkBlocksFree, none, markFreeLoop]

end HeapState

/-- A heap of two blocks, the first of which has been allocated. -/
def firstTaken : HeapState := HeapState.step ⟨twoBlocks, []⟩ (.malloc 1)

theorem firstTaken_wellFormed : firstTaken.WellFormed :=
  have created : HeapState.Inv ⟨twoBlocks, []⟩ :=
    HeapState.inv_created ⟨fun _ => 0, 2⟩ 0x1000 (by decide)
  (created.step (.malloc 1) ⟨by decide, by decide⟩).wellFormed

/-- Freeing the second block, or an address behind the heap. -/
theorem stray_free_harmless_two_blocks :
    firstTaken.FreeHarmless 0x2000 ∧ firstTaken.FreeHarmless 0x5000 := by
  constructor
  · exact (HeapState.stray_free_harmless_iff firstTaken_wellFormed 0x2000).mpr
      ⟨1, by decide, .inl (by decide), .inr (.inl (by decide))⟩
  · exact (HeapState.stray_free_harmless_iff firstTaken_wellFormed 0x5000).mpr
      ⟨4, by decide, .inl (by decide), .inl (by decide)⟩

/-- `heap_free(NULL)` starts before the table, and an address inside an allocation frees it. -/
theorem stray_free_harms :
    heapFreeAccesses firstTaken.heap 0 = [-1] ∧ ¬ firstTaken.FreeHarmless 0 ∧
      ¬ firstTaken.FreeHarmless 0x1004 := by
  refine ⟨by decide, fun harmless => ?_, fun harmless => ?_⟩
  · exact absurd (harmless.inTable (-1) (by decide)).1 (by decide)
  · have same := harmless.untouched (by decide) ⟨0x1000, 0, 1⟩ (by decide) 0
      ⟨le_rfl, by decide, by decide⟩
    exact absurd same (by decide)

end ConiferOS.Heap
