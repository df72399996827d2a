import ConiferOS.Memory.Heap

/-! # What the heap functions compute

One lemma per function of the heap: the search returns a run of free entries
(possibly cut off by the end of the table), marking writes exactly one run of
flags, and freeing clears exactly the chain of `HAS_NEXT` entries it starts on.
-/

namespace ConiferOS.Heap

section Entries

variable (heap : HeapDesc) (i j : Int) (entry : Entry)

@[simp] theorem entry_setEntry :
    (heap.setEntry i entry).entry j = if j = i then entry else heap.entry j := by
  simp only [HeapDesc.setEntry, HeapDesc.entry, Function.update_apply]

@[simp] theorem total_setEntry : (heap.setEntry i entry).total = heap.total := rfl

end Entries

/-- The byte the marking loop leaves in entry `i` of an allocation of `n` blocks
    from block `s`. -/
def blockEntry (s : Int) (n : Nat) (i : Int) : Entry :=
  entryTaken ||| (if i = s then blockIsFirst else 0) |||
    (if i = s + n - 1 then 0 else blockHasNext)

theorem blockEntry_type (s : Int) (n : Nat) (i : Int) :
    heapGetEntryType (blockEntry s n i) = entryTaken := by
  unfold blockEntry
  split <;> split <;> decide

theorem blockEntry_isFirst (s : Int) (n : Nat) (i : Int) :
    blockEntry s n i &&& blockIsFirst ≠ 0 ↔ i = s := by
  unfold blockEntry
  by_cases first : i = s <;>
    simp only [first, if_true, if_false, iff_true, iff_false] <;> split <;> decide

theorem blockEntry_hasNext (s : Int) (n : Nat) (i : Int) :
    blockEntry s n i &&& blockHasNext ≠ 0 ↔ i ≠ s + n - 1 := by
  unfold blockEntry
  by_cases final : i = s + n - 1 <;>
    simp only [final, if_true, if_false, ne_eq, not_true, not_false_iff, iff_true, iff_false] <;>
    split <;> decide

/-! ## Searching -/

/-- Entry `i` counts as free for the search. -/
def HeapEntryTable.FreeAt (table : HeapEntryTable) (i : Int) : Prop :=
  heapGetEntryType (table.entries i) = entryFree

instance (table : HeapEntryTable) (i : Int) : Decidable (table.FreeAt i) :=
  inferInstanceAs (Decidable (_ = _))

/-- What the search may answer on entries below `last`: the start of a full run,
    or the start of a run that reaches `last` before it is long enough. -/
def HeapEntryTable.RunAt (table : HeapEntryTable) (totalBlocks : Nat) (last bs : Int) : Prop :=
  (bs + totalBlocks ≤ last ∧ 0 < totalBlocks ∧ ∀ j, bs ≤ j → j < bs + totalBlocks → table.FreeAt j) ∨
  ((last < bs + totalBlocks ∨ totalBlocks = 0) ∧ ∀ j, bs ≤ j → j < last → table.FreeAt j)

/-- The loop invariant: no run is open, or `[bs, i)` is free and has `bc` entries. -/
def HeapEntryTable.Open (table : HeapEntryTable) (totalBlocks : Nat) (i bs bc : Int) : Prop :=
  (bs = -1 ∧ bc = 0) ∨
  (0 ≤ bs ∧ 0 < bc ∧ bs + bc = i ∧ (bc < totalBlocks ∨ totalBlocks = 0) ∧
    ∀ j, bs ≤ j → j < i → table.FreeAt j)

theorem HeapEntryTable.Open.advance {table : HeapEntryTable} {totalBlocks : Nat} {i bs bc : Int}
    (inv : table.Open totalBlocks i bs bc) (nonneg : 0 ≤ i) (free : table.FreeAt i) :
    ∃ s, s = (if bs = -1 then i else bs) ∧ 0 ≤ s ∧ s + (bc + 1) = i + 1 ∧ 0 ≤ bc ∧
      (bc < totalBlocks ∨ totalBlocks = 0) ∧ ∀ j, s ≤ j → j < i + 1 → table.FreeAt j := by
  refine ⟨_, rfl, ?_⟩
  obtain ⟨rfl, rfl⟩ | ⟨hs, hb, sum, short, run⟩ := inv
  · refine ⟨by simpa using nonneg, by simp, le_refl _, by omega, ?_⟩
    intro j lower upper
    obtain rfl : j = i := by simp only [if_true] at lower; omega
    exact free
  · rw [if_neg (by omega)]
    refine ⟨hs, by omega, by omega, short, ?_⟩
    intro j lower upper
    obtain below | rfl : j < i ∨ j = i := by omega
    · exact run j lower below
    · exact free

theorem searchLoop_taken {table : HeapEntryTable} {i : Int} (taken : ¬ table.FreeAt i)
    (totalBlocks remaining : Nat) (bs bc : Int) :
    searchLoop table totalBlocks (remaining + 1) i bs bc =
      searchLoop table totalBlocks remaining (i + 1) (-1) 0 := by
  rw [searchLoop, if_pos (show heapGetEntryType (table.entries i) ≠ entryFree from taken)]

theorem searchLoop_free {table : HeapEntryTable} {i : Int} (free : table.FreeAt i)
    (totalBlocks remaining : Nat) (bs bc : Int) :
    searchLoop table totalBlocks (remaining + 1) i bs bc =
      if bc + 1 = totalBlocks then (if bs = -1 then i else bs)
      else searchLoop table totalBlocks remaining (i + 1) (if bs = -1 then i else bs) (bc + 1) := by
  rw [searchLoop, if_neg (not_not.mpr (show heapGetEntryType (table.entries i) = entryFree from free))]

/-- Induction on the iterations left, carrying the open run `[bs, i)`. -/
theorem searchLoop_spec (table : HeapEntryTable) (totalBlocks : Nat) {r : Int} :
    ∀ (remaining : Nat) (i bs bc : Int), 0 ≤ i → table.Open totalBlocks i bs bc →
      searchLoop table totalBlocks remaining i bs bc = r →
      r = -1 ∨ (0 ≤ r ∧ r < i + remaining ∧ table.RunAt totalBlocks (i + remaining) r) := by
  intro remaining
  induction remaining with
  | zero =>
      intro i bs bc _ inv result
      simp only [searchLoop] at result
      subst result
      simp only [Nat.cast_zero, add_zero]
      obtain ⟨rfl, _⟩ | ⟨hs, hb, sum, short, run⟩ := inv
      · exact .inl rfl
      · exact .inr ⟨hs, by omega, .inr ⟨by omega, run⟩⟩
  | succ remaining ih =>
      intro i bs bc nonneg inv result
      have shift : i + ((remaining + 1 : Nat) : Int) = i + 1 + remaining := by push_cast; omega
      rw [shift]
      by_cases free : table.FreeAt i
      · obtain ⟨s, hs, snonneg, sum, bcnonneg, short, run⟩ := inv.advance nonneg free
        rw [searchLoop_free free, ← hs] at result
        by_cases full : bc + 1 = totalBlocks
        · rw [if_pos full] at result
          subst result
          refine .inr ⟨snonneg, by omega, .inl ⟨by omega, by omega, ?_⟩⟩
          intro j lower upper
          exact run j lower (by omega)
        · rw [if_neg full] at result
          exact ih (i + 1) s (bc + 1) (by omega)
            (.inr ⟨snonneg, by omega, sum, by omega, run⟩) result
      · rw [searchLoop_taken free] at result
        exact ih (i + 1) (-1) 0 (by omega) (.inl ⟨rfl, rfl⟩) result

/-- A start block is inside the table and the run from it is free as far as the
    table goes. -/
theorem heapGetStartBlockIndex_spec (heap : HeapDesc) (totalBlocks : Nat)
    (found : 0 ≤ heapGetStartBlockIndex heap totalBlocks) :
    heapGetStartBlockIndex heap totalBlocks < heap.total ∧
      heap.table.RunAt totalBlocks heap.total (heapGetStartBlockIndex heap totalBlocks) := by
  have spec := searchLoop_spec heap.table totalBlocks heap.total 0 (-1) 0 le_rfl (.inl ⟨rfl, rfl⟩) rfl
  unfold heapGetStartBlockIndex at found ⊢
  obtain none | ⟨lower, upper, run⟩ := spec
  · simp [none, enomem] at found
  · rw [if_neg (by omega)]
    simp only [zero_add] at upper run
    exact ⟨upper, run⟩

theorem heapGetStartBlockIndex_free {heap : HeapDesc} {totalBlocks : Nat}
    (found : 0 ≤ heapGetStartBlockIndex heap totalBlocks) :
    heap.table.FreeAt (heapGetStartBlockIndex heap totalBlocks) := by
  obtain ⟨upper, run⟩ := heapGetStartBlockIndex_spec heap totalBlocks found
  rcases run with ⟨_, some, free⟩ | ⟨_, free⟩
  · exact free _ le_rfl (by omega)
  · exact free _ le_rfl upper

/-- Everything below `k` is taken and the rest of the table is free. -/
structure HeapDesc.Compact (heap : HeapDesc) (k : Nat) : Prop where
  taken : ∀ i : Int, 0 ≤ i → i < k → ¬ heap.table.FreeAt i
  free : ∀ i : Int, k ≤ i → i < heap.total → heap.table.FreeAt i

theorem searchLoop_skip {table : HeapEntryTable} (totalBlocks remaining : Nat) :
    ∀ (k : Nat) (i : Int), (∀ j, i ≤ j → j < i + k → ¬ table.FreeAt j) →
      searchLoop table totalBlocks (remaining + k) i (-1) 0 =
        searchLoop table totalBlocks remaining (i + k) (-1) 0 := by
  intro k
  induction k with
  | zero => intro i _; simp
  | succ k ih =>
      intro i taken
      have shift : i + ((k + 1 : Nat) : Int) = i + 1 + k := by push_cast; omega
      rw [← Nat.add_assoc, searchLoop_taken (taken i le_rfl (by omega)),
        ih (i + 1) (fun j lower upper => taken j (by omega) (by omega)), shift]

/-- The search never leaves an open run. -/
theorem searchLoop_open {table : HeapEntryTable} (totalBlocks : Nat) :
    ∀ (remaining : Nat) (i bs bc : Int), bs ≠ -1 →
      (∀ j, i ≤ j → j < i + remaining → table.FreeAt j) →
      searchLoop table totalBlocks remaining i bs bc = bs := by
  intro remaining
  induction remaining with
  | zero => intros; rfl
  | succ remaining ih =>
      intro i bs bc run free
      rw [searchLoop_free (free i le_rfl (by omega)), if_neg run,
        ih (i + 1) bs (bc + 1) run (fun j lower upper => free j (by omega) (by omega)), ite_self]

/-- The search on a compact table answers its first free block, whatever the size. -/
theorem HeapDesc.Compact.start {heap : HeapDesc} {k : Nat} (compact : heap.Compact k)
    (room : k < heap.total) (totalBlocks : Nat) : heapGetStartBlockIndex heap totalBlocks = k := by
  obtain ⟨rest, total⟩ : ∃ rest, heap.total = rest + 1 + k := ⟨heap.total - 1 - k, by omega⟩
  have found : searchLoop heap.table totalBlocks heap.total 0 (-1) 0 = k := by
    rw [total, searchLoop_skip _ _ k 0 (fun j lower upper => compact.taken j lower (by omega)),
      searchLoop_free (compact.free _ (by omega) (by omega)),
      searchLoop_open totalBlocks rest _ _ _ (by simp)
        (fun j lower upper => compact.free j (by omega) (by omega))]
    simp
  rw [heapGetStartBlockIndex, found, if_neg (by omega)]

/-! ## Marking -/

theorem markTakenLoop_frame (endBlockIndex : Int) :
    ∀ (remaining : Nat) (i : Int) (entry : Entry) (heap : HeapDesc),
      (markTakenLoop endBlockIndex remaining i entry heap).total = heap.total ∧
        (markTakenLoop endBlockIndex remaining i entry heap).startAddr = heap.startAddr := by
  intro remaining
  induction remaining with
  | zero => exact fun _ _ _ => ⟨rfl, rfl⟩
  | succ remaining ih => exact fun i entry heap => ih (i + 1) _ (heap.setEntry i entry)

/-- With `entry` already right for block `i`, the loop writes the entries of the
    allocation from block `i` to its end. -/
theorem markTakenLoop_entry (s : Int) (n : Nat) (j : Int) :
    ∀ (remaining : Nat) (i : Int) (heap : HeapDesc), s ≤ i → i + remaining = s + n →
      (markTakenLoop (s + n - 1) remaining i (blockEntry s n i) heap).entry j =
        if i ≤ j ∧ j < s + n then blockEntry s n j else heap.entry j := by
  intro remaining
  induction remaining with
  | zero =>
      intro i heap _ last
      rw [if_neg (by omega)]
      rfl
  | succ remaining ih =>
      intro i heap lower last
      have next : (if i ≠ s + n - 1 - 1 then entryTaken ||| blockHasNext else entryTaken) =
          blockEntry s n (i + 1) := by
        unfold blockEntry
        rw [if_neg (show ¬ i + 1 = s by omega)]
        by_cases final : i + 1 = s + n - 1
        · rw [if_pos final, if_neg (by omega)]
          decide
        · rw [if_neg final, if_pos (by omega)]
          decide
      rw [markTakenLoop, next, ih (i + 1) _ (by omega) (by push_cast at last; omega),
        entry_setEntry]
      by_cases here : j = i
      · subst here
        rw [if_neg (by omega), if_pos rfl, if_pos (by push_cast at last; omega)]
      · rw [if_neg here]
        exact if_congr (by omega) rfl rfl

theorem heapMarkBlocksTaken_entry (heap : HeapDesc) (s : Int) (n : Nat) (j : Int) :
    (heapMarkBlocksTaken heap s n).entry j =
      if s ≤ j ∧ j < s + n then blockEntry s n j else heap.entry j := by
  cases n with
  | zero =>
      rw [if_neg (by push_cast; omega)]
      rfl
  | succ n =>
      have first : (if n + 1 > 1 then entryTaken ||| blockIsFirst ||| blockHasNext
          else entryTaken ||| blockIsFirst) = blockEntry s (n + 1) s := by
        unfold blockEntry
        rw [if_pos rfl]
        by_cases single : n = 0
        · subst single
          rw [if_neg (by omega), if_pos (by push_cast; omega)]
          decide
        · rw [if_pos (by omega), if_neg (by push_cast; omega)]
      rw [heapMarkBlocksTaken, first]
      exact markTakenLoop_entry s (n + 1) j (n + 1) s heap le_rfl rfl

@[simp] theorem heapMarkBlocksTaken_total (heap : HeapDesc) (s : Int) (n : Nat) :
    (heapMarkBlocksTaken heap s n).total = heap.total :=
  (markTakenLoop_frame _ _ _ _ _).1

@[simp] theorem heapMarkBlocksTaken_startAddr (heap : HeapDesc) (s : Int) (n : Nat) :
    (heapMarkBlocksTaken heap s n).startAddr = heap.startAddr :=
  (markTakenLoop_frame _ _ _ _ _).2

/-! ## Freeing -/

theorem markFreeLoop_frame : ∀ (remaining : Nat) (i : Int) (heap : HeapDesc),
    (markFreeLoop remaining i heap).total = heap.total ∧
      (markFreeLoop remaining i heap).startAddr = heap.startAddr := by
  intro remaining
  induction remaining with
  | zero => exact fun _ _ => ⟨rfl, rfl⟩
  | succ remaining ih =>
      intro i heap
      simp only [markFreeLoop]
      split
      · exact ⟨rfl, rfl⟩
      · exact ih (i + 1) (heap.setEntry i entryFree)

/-- The walk clears `[i, last]`: every entry before `last` chains to its right
    neighbour, and `last` is the end of the chain or of the table. -/
theorem markFreeLoop_entry (last j : Int) :
    ∀ (remaining : Nat) (i : Int) (heap : HeapDesc), i ≤ last → last < i + remaining →
      (∀ k, i ≤ k → k < last → heap.entry k &&& blockHasNext ≠ 0) →
      (heap.entry last &&& blockHasNext = 0 ∨ last + 1 = i + remaining) →
      (markFreeLoop remaining i heap).entry j =
        if i ≤ j ∧ j ≤ last then entryFree else heap.entry j := by
  intro remaining
  induction remaining with
  | zero => intro i heap lower upper; push_cast at upper; omega
  | succ remaining ih =>
      intro i heap lower upper chain stop
      have shift : i + ((remaining + 1 : Nat) : Int) = i + 1 + remaining := by push_cast; omega
      rw [shift] at upper stop
      simp only [markFreeLoop]
      by_cases final : i = last
      · subst final
        obtain ends | edge := stop
        · rw [if_pos ends, entry_setEntry]
          exact if_congr (by omega) rfl rfl
        · obtain rfl : remaining = 0 := by omega
          simp only [markFreeLoop, ite_self, entry_setEntry]
          exact if_congr (by omega) rfl rfl
      · rw [if_neg (chain i le_rfl (by omega)), ih (i + 1) _ (by omega) (by omega), entry_setEntry]
        · by_cases here : j = i
          · subst here
            rw [if_neg (by omega), if_pos rfl, if_pos (by omega)]
          · rw [if_neg here]
            exact if_congr (by omega) rfl rfl
        · intro k above below
          rw [entry_setEntry, if_neg (by omega)]
          exact chain k (by omega) below
        · rw [entry_setEntry, if_neg (by omega)]
          exact stop

@[simp] theorem heapMarkBlocksFree_total (heap : HeapDesc) (s : Int) :
    (heapMarkBlocksFree heap s).total = heap.total :=
  (markFreeLoop_frame _ _ _).1

@[simp] theorem heapMarkBlocksFree_startAddr (heap : HeapDesc) (s : Int) :
    (heapMarkBlocksFree heap s).startAddr = heap.startAddr :=
  (markFreeLoop_frame _ _ _).2

/-- Freeing from block `s` of a chain that ends in `last` clears `[s, last]`. -/
theorem heapMarkBlocksFree_entry (heap : HeapDesc) (s last j : Int) (lower : s ≤ last)
    (upper : last < heap.total)
    (chain : ∀ k, s ≤ k → k < last → heap.entry k &&& blockHasNext ≠ 0)
    (stop : heap.entry last &&& blockHasNext = 0 ∨ last + 1 = heap.total) :
    (heapMarkBlocksFree heap s).entry j = if s ≤ j ∧ j ≤ last then entryFree else heap.entry j :=
  markFreeLoop_entry last j _ s heap lower (by omega) chain (stop.imp id (by omega))

/-- The walk does not pass an entry without a right neighbour, and what it touches it
    clears. -/
theorem markFreeLoop_stops (stop : Int) :
    ∀ (remaining : Nat) (i : Int) (heap : HeapDesc), i ≤ stop →
      heap.entry stop &&& blockHasNext = 0 → ∀ j,
        (stop < j → (markFreeLoop remaining i heap).entry j = heap.entry j) ∧
          ((markFreeLoop remaining i heap).entry j = heap.entry j ∨
            (markFreeLoop remaining i heap).entry j = entryFree) := by
  intro remaining
  induction remaining with
  | zero => exact fun _ _ _ _ _ => ⟨fun _ => rfl, .inl rfl⟩
  | succ remaining ih =>
      intro i heap lower ends j
      have cleared : (heap.setEntry i entryFree).entry j = heap.entry j ∨
          (heap.setEntry i entryFree).entry j = entryFree := by
        rw [entry_setEntry]
        split
        · exact .inr rfl
        · exact .inl rfl
      have beyond : stop < j → (heap.setEntry i entryFree).entry j = heap.entry j := by
        intro after
        rw [entry_setEntry, if_neg (by omega)]
      simp only [markFreeLoop]
      by_cases final : heap.entry i &&& blockHasNext = 0
      · rw [if_pos final]
        exact ⟨beyond, cleared⟩
      · rw [if_neg final]
        have before : i ≠ stop := fun same => final (same ▸ ends)
        have still : (heap.setEntry i entryFree).entry stop &&& blockHasNext = 0 := by
          rw [entry_setEntry, if_neg (Ne.symm before)]
          exact ends
        obtain ⟨after, either⟩ := ih (i + 1) (heap.setEntry i entryFree) (by omega) still j
        refine ⟨fun past => (after past).trans (beyond past), ?_⟩
        rcases either with same | free
        · rw [same]
          exact cleared
        · exact .inr free

/-- Allocating on a compact table keeps it compact. -/
theorem HeapDesc.Compact.malloc {heap : HeapDesc} {k : Nat} (compact : heap.Compact k)
    (room : k < heap.total) (size : Word) :
    heapMalloc heap size = (heapBlockToAddress heap k, heapMarkBlocksTaken heap k (blocksFor size)) ∧
      (heapMarkBlocksTaken heap k (blocksFor size)).Compact (k + blocksFor size) := by
  have start := compact.start room (blocksFor size)
  refine ⟨?_, ?_, ?_⟩
  · rw [heapMalloc, heapMallocBlocks, start, if_neg (by omega)]
  · intro i lower upper
    simp only [HeapEntryTable.FreeAt]
    change ¬ heapGetEntryType (HeapDesc.entry _ i) = entryFree
    rw [heapMarkBlocksTaken_entry]
    split
    case isTrue =>
      rw [blockEntry_type]
      decide
    case isFalse outside => exact compact.taken i lower (by push_cast at upper; omega)
  · intro i lower upper
    rw [heapMarkBlocksTaken_total] at upper
    change heapGetEntryType (HeapDesc.entry _ i) = entryFree
    rw [heapMarkBlocksTaken_entry, if_neg (by push_cast at lower; omega)]
    exact compact.free i (by push_cast at lower; omega) upper

/-! ## Addresses and sizes -/

theorem heapBlockToAddress_sub (heap : HeapDesc) (s : Int) :
    heapBlockToAddress heap s - heap.startAddr = BitVec.ofInt 32 (s * 4096) := by
  simp only [heapBlockToAddress, heapBlockSize]
  rw [BitVec.add_comm, BitVec.add_sub_cancel]
  rfl

/-- Blocks below 2 GB are found again from their address. -/
theorem heapBlockToAddress_add (heap : HeapDesc) (s : Int) (j : Nat) :
    heapBlockToAddress heap (s + j) = heapBlockToAddress heap s + BitVec.ofNat 32 (4096 * j) := by
  have product : (j : Int) * (heapBlockSize : Int) = ((4096 * j : Nat) : Int) := by
    simp [heapBlockSize, mul_comm]
  rw [heapBlockToAddress, heapBlockToAddress, add_mul, BitVec.ofInt_add, product, BitVec.ofInt_natCast,
    BitVec.add_assoc]

theorem heapAddressToBlock_heapBlockToAddress (heap : HeapDesc) (s : Int) (lower : 0 ≤ s)
    (upper : s * 4096 < 2 ^ 31) : heapAddressToBlock heap (heapBlockToAddress heap s) = s := by
  rw [heapAddressToBlock, heapBlockToAddress_sub, BitVec.toInt_ofInt]
  have small : (s * 4096).bmod (2 ^ 32) = s * 4096 := by
    apply Int.bmod_eq_of_le <;> omega
  rw [small, heapBlockSize]
  exact Int.mul_tdiv_cancel _ (by decide)

/-- `⌈size / 4096⌉`, as long as rounding up does not wrap. -/
theorem blocksFor_eq (size : Word) (fits : size.toNat ≤ 2 ^ 32 - 4096) :
    blocksFor size = (size.toNat + 4095) / 4096 := by
  unfold blocksFor alignUpperBlockBoundary heapBlockSize
  split
  · omega
  · bv_omega

end ConiferOS.Heap
