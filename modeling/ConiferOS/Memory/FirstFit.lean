import ConiferOS.Memory.HeapSpec

/-! # First fit

The search of the heap against what it is for: the first run of free blocks that is long
enough. It answers that run when there is one. When there is none it should refuse, but
it answers the run that the end of the table cuts off, whatever its length. The same
happens to a request for no blocks, which is what a size of 0 and a size that wraps on
rounding up come to.
-/

namespace ConiferOS.Heap

/-- `n` free blocks from block `i`, all of them in the table. -/
def HeapDesc.FitsAt (heap : HeapDesc) (n : Nat) (i : Int) : Prop :=
  0 ≤ i ∧ i + n ≤ heap.total ∧ ∀ j, i ≤ j → j < i + n → heap.table.FreeAt j

/-- The last block of the heap is free. -/
def HeapDesc.TailFree (heap : HeapDesc) : Prop := 0 < heap.total ∧ heap.table.FreeAt (heap.total - 1)

instance (heap : HeapDesc) : Decidable heap.TailFree := inferInstanceAs (Decidable (_ ∧ _))

/-- The free run at the end of the table starts at block `i`. -/
structure HeapDesc.TailFrom (heap : HeapDesc) (i : Int) : Prop where
  lower : 0 ≤ i
  upper : i < heap.total
  run : ∀ j, i ≤ j → j < heap.total → heap.table.FreeAt j
  edge : 0 < i → ¬ heap.table.FreeAt (i - 1)

theorem HeapDesc.TailFrom.tailFree {heap : HeapDesc} {i : Int} (tail : heap.TailFrom i) :
    heap.TailFree :=
  ⟨by have := tail.lower; have := tail.upper; omega, tail.run _ (by have := tail.upper; omega) (by omega)⟩

/-! ## The search -/

/-- No run of `n` blocks that starts below `b` is free: something before `b` is taken. -/
def HeapEntryTable.Blocked (table : HeapEntryTable) (n : Nat) (b : Int) : Prop :=
  ∀ k, 0 ≤ k → k < b → ∃ j, k ≤ j ∧ j < k + n ∧ j < b ∧ ¬ table.FreeAt j

/-- A taken block after the open run `[bs, i)` blocks all starts up to it. -/
theorem HeapEntryTable.Blocked.taken {table : HeapEntryTable} {n : Nat} (pos : 1 ≤ n) {i bs bc : Int}
    (inv : table.Open n i bs bc) (blocked : table.Blocked n (if bs = -1 then i else bs))
    (taken : ¬ table.FreeAt i) : table.Blocked n (i + 1) := by
  intro k lower upper
  obtain ⟨rfl, rfl⟩ | ⟨nonneg, _, sum, short, _⟩ := inv
  · rw [if_pos rfl] at blocked
    obtain below | rfl : k < i ∨ k = i := by omega
    · obtain ⟨j, above, inside, before, full⟩ := blocked k lower below
      exact ⟨j, above, inside, by omega, full⟩
    · exact ⟨k, le_rfl, by omega, by omega, taken⟩
  · rw [if_neg (by omega)] at blocked
    by_cases below : k < bs
    · obtain ⟨j, above, inside, before, full⟩ := blocked k lower below
      exact ⟨j, above, inside, by omega, full⟩
    · exact ⟨i, by omega, by omega, by omega, taken⟩

/-- Induction on the iterations left; `[bs, i)` is the open run, and everything before it
    is blocked. The answer is the first full run, nothing, or the run cut off at the end. -/
theorem searchLoop_first (table : HeapEntryTable) {n : Nat} (pos : 1 ≤ n) {r : Int} :
    ∀ (remaining : Nat) (i bs bc : Int), 0 ≤ i → table.Open n i bs bc →
      table.Blocked n (if bs = -1 then i else bs) →
      searchLoop table n remaining i bs bc = r →
      (0 ≤ r ∧ r + n ≤ i + remaining ∧ (∀ j, r ≤ j → j < r + n → table.FreeAt j) ∧
          table.Blocked n r) ∨
        (r = -1 ∧ table.Blocked n (i + remaining)) ∨
        (0 ≤ r ∧ r < i + remaining ∧ i + remaining < r + n ∧
          (∀ j, r ≤ j → j < i + remaining → table.FreeAt j) ∧ table.Blocked n r) := by
  intro remaining
  induction remaining with
  | zero =>
      intro i bs bc _ inv blocked result
      simp only [searchLoop] at result
      subst result
      simp only [Nat.cast_zero, add_zero]
      obtain ⟨rfl, _⟩ | ⟨nonneg, some, sum, short, run⟩ := inv
      · rw [if_pos rfl] at blocked
        exact .inr (.inl ⟨rfl, blocked⟩)
      · rw [if_neg (by omega)] at blocked
        exact .inr (.inr ⟨nonneg, by omega, by omega, run, blocked⟩)
  | succ remaining ih =>
      intro i bs bc nonneg inv blocked result
      have shift : i + ((remaining + 1 : Nat) : Int) = i + 1 + remaining := by push_cast; omega
      rw [shift]
      by_cases free : table.FreeAt i
      · obtain ⟨s, start, snonneg, sum, bcnonneg, short, run⟩ := inv.advance nonneg free
        have before : table.Blocked n s := start ▸ blocked
        rw [searchLoop_free free, ← start] at result
        by_cases full : bc + 1 = n
        · rw [if_pos full] at result
          subst result
          refine .inl ⟨snonneg, by omega, fun j lower upper => run j lower (by omega), before⟩
        · rw [if_neg full] at result
          refine ih (i + 1) s (bc + 1) (by omega) (.inr ⟨snonneg, by omega, sum, by omega, run⟩) ?_
            result
          rwa [if_neg (by omega)]
      · rw [searchLoop_taken free] at result
        exact ih (i + 1) (-1) 0 (by omega) (.inl ⟨rfl, rfl⟩) (blocked.taken pos inv free) result

theorem HeapEntryTable.Blocked.not_fitsAt {heap : HeapDesc} {n : Nat} {b : Int}
    (blocked : heap.table.Blocked n b) {k : Int} (below : k < b) : ¬ heap.FitsAt n k := by
  rintro ⟨lower, _, run⟩
  obtain ⟨j, above, inside, _, full⟩ := blocked k lower below
  exact full (run j above inside)

/-- What the search answers. -/
theorem heapGetStartBlockIndex_cases (heap : HeapDesc) {n : Nat} (pos : 1 ≤ n) :
    (heap.FitsAt n (heapGetStartBlockIndex heap n) ∧
        ∀ k, heap.FitsAt n k → heapGetStartBlockIndex heap n ≤ k) ∨
      ((∀ k, ¬ heap.FitsAt n k) ∧ ¬ heap.TailFree ∧ heapGetStartBlockIndex heap n = -enomem) ∨
      ((∀ k, ¬ heap.FitsAt n k) ∧ heap.TailFrom (heapGetStartBlockIndex heap n) ∧
        heap.total < heapGetStartBlockIndex heap n + n) := by
  have spec := searchLoop_first heap.table pos heap.total 0 (-1) 0 le_rfl (.inl ⟨rfl, rfl⟩)
    (fun k lower upper => by simp only [if_true] at upper; omega) rfl
  unfold heapGetStartBlockIndex
  simp only [zero_add] at spec
  rcases spec with ⟨lower, inside, run, blocked⟩ | ⟨none, blocked⟩ | ⟨lower, upper, cut, run, blocked⟩
  · rw [if_neg (by omega)]
    refine .inl ⟨⟨lower, inside, run⟩, fun k fits => ?_⟩
    by_contra below
    exact blocked.not_fitsAt (not_le.mp below) fits
  · have never : ∀ k, ¬ heap.FitsAt n k := by
      intro k fits
      exact blocked.not_fitsAt (lt_of_lt_of_le (by omega : k < k + n) fits.2.1) fits
    refine .inr (.inl ⟨never, ?_, if_pos none⟩)
    rintro ⟨some, free⟩
    obtain ⟨j, above, _, before, full⟩ := blocked (heap.total - 1) (by omega) (by omega)
    obtain rfl : j = heap.total - 1 := by omega
    exact full free
  · rw [if_neg (by omega)]
    refine .inr (.inr ⟨fun k fits => ?_, ⟨lower, upper, run, fun some => ?_⟩, cut⟩)
    · have start : searchLoop heap.table n heap.total 0 (-1) 0 ≤ k := by
        by_contra below
        exact blocked.not_fitsAt (not_le.mp below) fits
      have ends := fits.2.1
      omega
    · -- A run from the block before would have been the answer.
      obtain ⟨j, above, _, before, full⟩ :=
        blocked (searchLoop heap.table n heap.total 0 (-1) 0 - 1) (by omega) (by omega)
      obtain rfl : j = searchLoop heap.table n heap.total 0 (-1) 0 - 1 := by omega
      exact full

/-- There is nothing the search could answer. -/
def HeapDesc.Full (heap : HeapDesc) (n : Nat) : Prop := (∀ i, ¬ heap.FitsAt n i) ∧ ¬ heap.TailFree

theorem heapGetStartBlockIndex_neg_iff (heap : HeapDesc) {n : Nat} (pos : 1 ≤ n) :
    heapGetStartBlockIndex heap n < 0 ↔ heap.Full n := by
  rcases heapGetStartBlockIndex_cases heap pos with ⟨fits, _⟩ | ⟨none, tail, refused⟩ | ⟨_, tail, _⟩
  · exact iff_of_false (not_lt.mpr fits.1) fun full => full.1 _ fits
  · rw [refused]
    exact iff_of_true (by decide) ⟨none, tail⟩
  · exact iff_of_false (not_lt.mpr tail.lower) fun full => full.2 tail.tailFree

/-! ## Exactness -/

/-- The search is first fit, and an allocation takes only blocks of the heap. -/
structure FirstFit (heap : HeapDesc) (n : Nat) : Prop where
  least : (∃ i, heap.FitsAt n i) → heap.FitsAt n (heapGetStartBlockIndex heap n) ∧
    ∀ i, heap.FitsAt n i → heapGetStartBlockIndex heap n ≤ i
  refused : heapGetStartBlockIndex heap n = -enomem ↔ ¬ ∃ i, heap.FitsAt n i
  allocated : heapMallocBlocks heap n = (0, heap) ∨ ∃ b : Int, 0 ≤ b ∧ b + n ≤ heap.total ∧
    heapMallocBlocks heap n = (heapBlockToAddress heap b, heapMarkBlocksTaken heap b n)
  marked : ∀ j, (heapMallocBlocks heap n).2.entry j ≠ heap.entry j → 0 ≤ j ∧ j < heap.total

theorem heapMallocBlocks_found {heap : HeapDesc} {n : Nat} (found : 0 ≤ heapGetStartBlockIndex heap n) :
    heapMallocBlocks heap n = (heapBlockToAddress heap (heapGetStartBlockIndex heap n),
      heapMarkBlocksTaken heap (heapGetStartBlockIndex heap n) n) :=
  if_neg (not_lt.mpr found)

theorem not_firstFit_of_tail {heap : HeapDesc} {n : Nat} (never : ∀ i, ¬ heap.FitsAt n i)
    (found : 0 ≤ heapGetStartBlockIndex heap n) : ¬ FirstFit heap n := by
  intro exact_search
  have refused := exact_search.refused.mpr fun ⟨i, fits⟩ => never i fits
  rw [refused, enomem] at found
  omega

/-- The search is exact unless it meets a cut-off run at the end and nothing before it. -/
theorem first_fit_iff (heap : HeapDesc) {n : Nat} (pos : 1 ≤ n) :
    FirstFit heap n ↔ (∃ i, heap.FitsAt n i) ∨ ¬ heap.TailFree := by
  rcases heapGetStartBlockIndex_cases heap pos with ⟨fits, least⟩ | ⟨never, taken, refused⟩ |
    ⟨never, tail, -⟩
  · have someFits : ∃ i, heap.FitsAt n i := ⟨heapGetStartBlockIndex heap n, fits⟩
    have found : 0 ≤ heapGetStartBlockIndex heap n := fits.1
    have inside : heapGetStartBlockIndex heap n + n ≤ heap.total := fits.2.1
    have made := heapMallocBlocks_found found
    refine iff_of_true ⟨fun _ => ⟨fits, least⟩, ?_, ?_, ?_⟩ (.inl someFits)
    · refine iff_of_false (fun negative => ?_) fun never => never someFits
      rw [negative, enomem] at found
      omega
    · exact .inr ⟨heapGetStartBlockIndex heap n, found, inside, made⟩
    · intro j changed
      rw [made, heapMarkBlocksTaken_entry] at changed
      split at changed
      case isTrue here => exact ⟨by omega, by omega⟩
      case isFalse => exact absurd rfl changed
  · have failed : heapMallocBlocks heap n = (0, heap) := if_pos (by rw [refused]; decide)
    have noFit : ¬ ∃ i, heap.FitsAt n i := not_exists.mpr never
    refine iff_of_true ⟨fun fits => absurd fits noFit, ?_, .inl failed, ?_⟩ (.inr taken)
    · exact iff_of_true refused noFit
    · intro j changed
      rw [failed] at changed
      exact absurd rfl changed
  · refine iff_of_false (not_firstFit_of_tail never tail.lower) ?_
    rintro (⟨i, fits⟩ | taken)
    · exact never i fits
    · exact taken tail.tailFree

/-- Two blocks of which the first is taken. -/
def oneOfTwo : HeapDesc := ⟨⟨fun i => if i = 0 then 0x41 else 0, 2⟩, 0x1000⟩

theorem first_fit_iff_one_of_two : FirstFit oneOfTwo 1 := by
  refine (first_fit_iff oneOfTwo le_rfl).mpr (.inl ⟨1, by decide, by decide, fun j lower upper => ?_⟩)
  obtain rfl : j = 1 := by push_cast at upper; omega
  decide

/-- Two blocks are asked for, one is free: the answer is its index. -/
theorem first_fit_cut_off : heapGetStartBlockIndex oneOfTwo 2 = 1 ∧ ¬ FirstFit oneOfTwo 2 := by
  refine ⟨by decide, not_firstFit_of_tail ?_ (by decide)⟩
  rintro i ⟨lower, upper, run⟩
  have total : oneOfTwo.total = 2 := rfl
  exact absurd (run 0 (by omega) (by omega)) (by decide)

/-! ## Sizes -/

/-- From block `b` on, `n` free blocks of the heap have become taken, and nothing else
    has changed. -/
structure Marked (heap later : HeapDesc) (b : Int) (n : Nat) : Prop where
  lower : 0 ≤ b
  upper : b + n ≤ heap.total
  taken : ∀ j, b ≤ j → j < b + n →
    heap.table.FreeAt j ∧ heapGetEntryType (later.entry j) = entryTaken
  others : ∀ j, ¬ (b ≤ j ∧ j < b + n) → later.entry j = heap.entry j

/-- A pointer that `heap_malloc` returns is that of as many blocks as the size needs, and
    `heap_free` gives those back. The pointer difference in `heap_free` is a signed one. -/
def Covered (heap : HeapDesc) (size : Word) : Prop :=
  (heapMalloc heap size).1 ≠ 0 → ∃ (b : Int) (n : Nat), 1 ≤ n ∧
    (heapMalloc heap size).1 = heapBlockToAddress heap b ∧
    Marked heap (heapMalloc heap size).2 b n ∧ size.toNat ≤ n * heapBlockSize ∧
    ((heap.total : Int) * heapBlockSize < 2 ^ 31 → ∀ j,
      (heapFree (heapMalloc heap size).2 (heapMalloc heap size).1).entry j =
        if b ≤ j ∧ j < b + n then entryFree else heap.entry j)

/-- There is room for a size that can be rounded up. -/
def Served (heap : HeapDesc) (size : Word) : Prop :=
  1 ≤ size.toNat ∧ size.toNat ≤ 2 ^ 32 - heapBlockSize ∧
    ∃ i, heap.FitsAt ((size.toNat + (heapBlockSize - 1)) / heapBlockSize) i

theorem blocksFor_eq_zero {size : Word} (odd : ¬ (1 ≤ size.toNat ∧ size.toNat ≤ 2 ^ 32 - 4096)) :
    blocksFor size = 0 := by
  unfold blocksFor alignUpperBlockBoundary heapBlockSize
  split
  · omega
  · bv_omega

/-- A request for no blocks is never satisfied on the way, like one that is too long. -/
theorem searchLoop_zero (table : HeapEntryTable) {n : Nat} :
    ∀ (remaining : Nat) (i bs bc : Int), 0 ≤ bc → bc + remaining < n →
      searchLoop table 0 remaining i bs bc = searchLoop table n remaining i bs bc := by
  intro remaining
  induction remaining with
  | zero => exact fun _ _ _ _ _ => rfl
  | succ remaining ih =>
      intro i bs bc counted short
      push_cast at short
      by_cases free : table.FreeAt i
      · have zero : bc + 1 ≠ (0 : Nat) := by push_cast; omega
        have counting : bc + 1 ≠ n := by omega
        rw [searchLoop_free free, searchLoop_free free, if_neg zero, if_neg counting,
          ih (i + 1) _ (bc + 1) (by omega) (by omega)]
      · rw [searchLoop_taken free, searchLoop_taken free, ih (i + 1) (-1) 0 le_rfl (by omega)]

theorem heapGetStartBlockIndex_empty (heap : HeapDesc) :
    heapGetStartBlockIndex heap 0 = heapGetStartBlockIndex heap (heap.total + 1) := by
  have search : searchLoop heap.table 0 heap.total 0 (-1) 0 =
      searchLoop heap.table (heap.total + 1) heap.total 0 (-1) 0 :=
    searchLoop_zero heap.table heap.total 0 (-1) 0 le_rfl (by push_cast; omega)
  rw [heapGetStartBlockIndex, heapGetStartBlockIndex, search]

theorem not_fitsAt_long (heap : HeapDesc) (i : Int) : ¬ heap.FitsAt (heap.total + 1) i := by
  rintro ⟨lower, upper, -⟩
  push_cast at upper
  omega

theorem heapGetStartBlockIndex_zero (heap : HeapDesc) :
    0 ≤ heapGetStartBlockIndex heap 0 ↔ heap.TailFree := by
  rw [heapGetStartBlockIndex_empty, ← not_lt, heapGetStartBlockIndex_neg_iff heap (Nat.succ_pos _),
    HeapDesc.Full, and_iff_right (not_fitsAt_long heap), not_not]

/-- There is no run of `n` blocks, and none that the end of the table cuts off. A request
    for no blocks is answered like one that is too long. -/
def HeapDesc.Refuses (heap : HeapDesc) (n : Nat) : Prop :=
  (1 ≤ n → ∀ i, ¬ heap.FitsAt n i) ∧ ¬ heap.TailFree

theorem heapGetStartBlockIndex_neg_iff_refuses (heap : HeapDesc) (n : Nat) :
    heapGetStartBlockIndex heap n < 0 ↔ heap.Refuses n := by
  cases n with
  | zero =>
      have search := heapGetStartBlockIndex_zero heap
      rw [← not_le, search]
      simp [HeapDesc.Refuses]
  | succ n =>
      rw [heapGetStartBlockIndex_neg_iff heap (Nat.succ_pos n)]
      simp [HeapDesc.Refuses, HeapDesc.Full]

/-- Where a request for `n` blocks is served: at the first run that is long enough, or at
    the run that the end of the table cuts off. -/
def HeapDesc.ServedAt (heap : HeapDesc) (n : Nat) (i : Int) : Prop :=
  (1 ≤ n ∧ heap.FitsAt n i ∧ ∀ k, heap.FitsAt n k → i ≤ k) ∨
    ((1 ≤ n → ∀ k, ¬ heap.FitsAt n k) ∧ heap.TailFrom i)

theorem HeapDesc.TailFrom.unique {heap : HeapDesc} {i j : Int} (first : heap.TailFrom i)
    (second : heap.TailFrom j) : i = j := by
  have least : ∀ {i j}, heap.TailFrom i → heap.TailFrom j → i ≤ j := by
    intro i j first second
    by_contra later
    have := second.lower
    have := first.upper
    exact first.edge (by omega) (second.run _ (by omega) (by omega))
  exact le_antisymm (least first second) (least second first)

theorem HeapDesc.ServedAt.unique {heap : HeapDesc} {n : Nat} {i j : Int} (first : heap.ServedAt n i)
    (second : heap.ServedAt n j) : i = j := by
  rcases first with ⟨pos, fits, least⟩ | ⟨never, tail⟩ <;>
    rcases second with ⟨pos', fits', least'⟩ | ⟨never', tail'⟩
  · exact le_antisymm (least j fits') (least' i fits)
  · exact absurd fits (never' pos i)
  · exact absurd fits' (never pos' j)
  · exact tail.unique tail'

/-- The answer of the search, if it has one. -/
theorem servedAt_heapGetStartBlockIndex {heap : HeapDesc} {n : Nat}
    (found : 0 ≤ heapGetStartBlockIndex heap n) : heap.ServedAt n (heapGetStartBlockIndex heap n) := by
  cases n with
  | zero =>
      refine .inr ⟨nofun, ?_⟩
      rw [heapGetStartBlockIndex_empty] at found ⊢
      rcases heapGetStartBlockIndex_cases heap (Nat.succ_pos heap.total) with
        ⟨fits, -⟩ | ⟨-, -, refused⟩ | ⟨-, tail, -⟩
      · exact absurd fits (not_fitsAt_long heap _)
      · rw [refused] at found
        exact absurd found (by decide)
      · exact tail
  | succ n =>
      rcases heapGetStartBlockIndex_cases heap (Nat.succ_pos n) with
        ⟨fits, least⟩ | ⟨-, -, refused⟩ | ⟨never, tail, -⟩
      · exact .inl ⟨Nat.succ_pos n, fits, least⟩
      · rw [refused] at found
        exact absurd found (by decide)
      · exact .inr ⟨fun _ => never, tail⟩

theorem HeapDesc.Refuses.not_servedAt {heap : HeapDesc} {n : Nat} (refuses : heap.Refuses n) (i : Int) :
    ¬ heap.ServedAt n i := by
  rintro (⟨pos, fits, -⟩ | ⟨-, tail⟩)
  · exact refuses.1 pos i fits
  · exact refuses.2 tail.tailFree

theorem HeapDesc.ServedAt.start {heap : HeapDesc} {n : Nat} {i : Int} (served : heap.ServedAt n i) :
    heapGetStartBlockIndex heap n = i := by
  rcases lt_or_ge (heapGetStartBlockIndex heap n) 0 with refused | found
  · exact absurd served (((heapGetStartBlockIndex_neg_iff_refuses heap n).mp refused).not_servedAt i)
  · exact (servedAt_heapGetStartBlockIndex found).unique served

theorem HeapDesc.Compact.servedAt {heap : HeapDesc} {k : Nat} (compact : heap.Compact k)
    (room : k < heap.total) (n : Nat) : heap.ServedAt n k := by
  have start := compact.start room n
  rw [← start]
  exact servedAt_heapGetStartBlockIndex (by omega)

/-- Giving back what has just been taken. -/
theorem heapFree_marked {heap : HeapDesc} {b : Int} {n : Nat} (pos : 1 ≤ n) (lower : 0 ≤ b)
    (upper : b + n ≤ heap.total) (small : (heap.total : Int) * 4096 < 2 ^ 31) (j : Int) :
    (heapFree (heapMarkBlocksTaken heap b n) (heapBlockToAddress heap b)).entry j =
      if b ≤ j ∧ j < b + n then entryFree else heap.entry j := by
  have block : heapAddressToBlock (heapMarkBlocksTaken heap b n) (heapBlockToAddress heap b) = b := by
    rw [heapAddressToBlock, heapMarkBlocksTaken_startAddr]
    exact heapAddressToBlock_heapBlockToAddress heap b lower (by omega)
  have flags : ∀ k, b ≤ k → k < b + n →
      ((heapMarkBlocksTaken heap b n).entry k &&& blockHasNext ≠ 0 ↔ k ≠ b + n - 1) := by
    intro k above below
    rw [heapMarkBlocksTaken_entry, if_pos ⟨above, below⟩, blockEntry_hasNext]
  rw [heapFree, block, heapMarkBlocksFree_entry _ b (b + n - 1) j (by omega)
    (by rw [heapMarkBlocksTaken_total]; omega)
    (fun k above below => (flags k above (by omega)).mpr (by omega))
    (.inl (not_not.mp (mt (flags (b + n - 1) (by omega) (by omega)).mp (not_not.mpr rfl)))),
    heapMarkBlocksTaken_entry]
  by_cases here : b ≤ j ∧ j < b + n
  · rw [if_pos (by omega), if_pos here]
  · rw [if_neg (by omega), if_neg here, if_neg here]

theorem marked_of_fitsAt {heap : HeapDesc} {b : Int} {n : Nat} (fits : heap.FitsAt n b) :
    Marked heap (heapMarkBlocksTaken heap b n) b n where
  lower := fits.1
  upper := fits.2.1
  taken := by
    intro j above below
    rw [heapMarkBlocksTaken_entry, if_pos ⟨above, below⟩, blockEntry_type]
    exact ⟨fits.2.2 j above below, rfl⟩
  others := by
    intro j outside
    rw [heapMarkBlocksTaken_entry, if_neg outside]

/-- A size that can be rounded up asks for as many blocks as it needs. -/
theorem blocksFor_covers {size : Word} (nonzero : 1 ≤ size.toNat) (fits : size.toNat ≤ 2 ^ 32 - 4096) :
    1 ≤ blocksFor size ∧ size.toNat ≤ blocksFor size * 4096 ∧
      (blocksFor size - 1) * 4096 < size.toNat := by
  rw [blocksFor_eq size fits]
  omega

theorem covered_of_fitsAt {heap : HeapDesc} {size : Word} (nonzero : 1 ≤ size.toNat)
    (upper : size.toNat ≤ 2 ^ 32 - 4096)
    (fits : heap.FitsAt (blocksFor size) (heapGetStartBlockIndex heap (blocksFor size))) :
    Covered heap size := by
  obtain ⟨pos, enough, -⟩ := blocksFor_covers nonzero upper
  have found : 0 ≤ heapGetStartBlockIndex heap (blocksFor size) := fits.1
  have inside : heapGetStartBlockIndex heap (blocksFor size) + blocksFor size ≤ heap.total := fits.2.1
  have made : heapMalloc heap size = _ := heapMallocBlocks_found found
  intro _
  rw [made]
  exact ⟨_, blocksFor size, pos, rfl, marked_of_fitsAt fits, enough,
    fun small j => heapFree_marked pos found inside small j⟩

/-- A request for no blocks that is answered is not covered. -/
theorem not_covered_of_empty {heap : HeapDesc} {size : Word} (empty : blocksFor size = 0)
    (found : 0 ≤ heapGetStartBlockIndex heap 0) (nonnull : (heapMalloc heap size).1 ≠ 0) :
    ¬ Covered heap size := by
  intro covered
  obtain ⟨b, n, pos, -, marked, -, -⟩ := covered nonnull
  have unchanged : (heapMalloc heap size).2 = heap := by
    rw [heapMalloc, empty, heapMallocBlocks_found found]
    rfl
  obtain ⟨free, taken⟩ := marked.taken b le_rfl (by omega)
  rw [unchanged] at taken
  exact absurd (free.symm.trans taken) (by decide)

/-- Nor is one that is answered with a run that the end of the table cuts off. -/
theorem not_covered_of_cut_off {heap : HeapDesc} {size : Word} (nonzero : 1 ≤ size.toNat)
    (upper : size.toNat ≤ 2 ^ 32 - 4096)
    (found : 0 ≤ heapGetStartBlockIndex heap (blocksFor size))
    (cut : heap.total < heapGetStartBlockIndex heap (blocksFor size) + blocksFor size)
    (nonnull : (heapMalloc heap size).1 ≠ 0) : ¬ Covered heap size := by
  intro covered
  obtain ⟨b, n, pos, -, marked, enough, -⟩ := covered nonnull
  obtain ⟨-, -, tight⟩ := blocksFor_covers nonzero upper
  have made : heapMalloc heap size = _ := heapMallocBlocks_found found
  -- A block that has become taken is one of those that the call has marked.
  have start : heapGetStartBlockIndex heap (blocksFor size) ≤ b := by
    by_contra before
    obtain ⟨free, taken⟩ := marked.taken b le_rfl (by omega)
    rw [made, heapMarkBlocksTaken_entry, if_neg (by omega)] at taken
    exact absurd (free.symm.trans taken) (by decide)
  have inside := marked.upper
  rw [heapBlockSize] at enough
  omega

/-- A pointer stands for the whole size exactly when the size can be rounded up and there is
    room for it, or no pointer is returned for it because the last block is taken. -/
theorem request_covered_iff {heap : HeapDesc}
    (nonnull : ∀ i : Int, 0 ≤ i → i < heap.total → heapBlockToAddress heap i ≠ 0) (size : Word) :
    Covered heap size ↔ Served heap size ∨ ¬ heap.TailFree := by
  by_cases usual : 1 ≤ size.toNat ∧ size.toNat ≤ 2 ^ 32 - 4096
  · obtain ⟨nonzero, upper⟩ := usual
    obtain ⟨pos, -, -⟩ := blocksFor_covers nonzero upper
    have served : Served heap size ↔ ∃ i, heap.FitsAt (blocksFor size) i := by
      rw [blocksFor_eq size upper]
      exact ⟨fun ⟨_, _, fits⟩ => fits, fun fits => ⟨nonzero, upper, fits⟩⟩
    rw [served]
    rcases heapGetStartBlockIndex_cases heap pos with ⟨fits, -⟩ | ⟨-, taken, refused⟩ |
      ⟨never, tail, cut⟩
    · exact iff_of_true (covered_of_fitsAt nonzero upper fits) (.inl ⟨_, fits⟩)
    · refine iff_of_true (fun nonnull => absurd ?_ nonnull) (.inr taken)
      rw [heapMalloc, heapMallocBlocks, refused]
      rfl
    · refine iff_of_false (not_covered_of_cut_off nonzero upper tail.lower cut ?_) ?_
      · rw [heapMalloc, heapMallocBlocks_found tail.lower]
        exact nonnull _ tail.lower tail.upper
      · rintro (⟨i, fits⟩ | taken)
        · exact never i fits
        · exact taken tail.tailFree
  · have empty := blocksFor_eq_zero usual
    have unserved : ¬ Served heap size := fun served => usual ⟨served.1, served.2.1⟩
    rw [or_iff_right unserved, ← heapGetStartBlockIndex_zero, not_le]
    constructor
    · intro covered
      by_contra answered
      rw [not_lt] at answered
      refine not_covered_of_empty empty answered ?_ covered
      rw [heapMalloc, empty, heapMallocBlocks_found answered]
      exact nonnull _ answered (heapGetStartBlockIndex_spec heap 0 answered).1
    · intro refused some
      rw [heapMalloc, empty, heapMallocBlocks, if_pos refused] at some
      exact absurd rfl some

theorem oneOfTwo_nonnull (i : Int) (lower : 0 ≤ i) (upper : i < oneOfTwo.total) :
    heapBlockToAddress oneOfTwo i ≠ 0 := by
  have total : oneOfTwo.total = 2 := rfl
  obtain rfl | rfl : i = 0 ∨ i = 1 := by omega
  all_goals decide

theorem request_covered_iff_one_block : Covered oneOfTwo 4000 := by
  refine (request_covered_iff oneOfTwo_nonnull 4000).mpr
    (.inl ⟨by decide, by decide, 1, by decide, by decide, fun j lower upper => ?_⟩)
  obtain rfl : j = 1 := by
    have one : ((4000 : Word).toNat + (heapBlockSize - 1)) / heapBlockSize = 1 := by decide
    rw [one] at upper
    omega
  decide

/-- `malloc(-1)` and `malloc(0)` are answered with a block that stays free. -/
theorem request_wraps :
    heapMalloc oneOfTwo 0xFFFFFFFF = (0x2000, oneOfTwo) ∧ heapMalloc oneOfTwo 0 = (0x2000, oneOfTwo) ∧
      ¬ Covered oneOfTwo 0xFFFFFFFF ∧ ¬ Covered oneOfTwo 0 := by
  have found : heapGetStartBlockIndex oneOfTwo 0 = 1 := by decide
  have made : ∀ size, blocksFor size = 0 → heapMalloc oneOfTwo size = (0x2000, oneOfTwo) := by
    intro size empty
    rw [heapMalloc, empty, heapMallocBlocks_found (by rw [found]; decide), found]
    rfl
  refine ⟨made _ (by decide), made _ (by decide), ?_, ?_⟩
  · refine not_covered_of_empty (by decide) (by rw [found]; decide) ?_
    rw [made _ (by decide)]
    decide
  · refine not_covered_of_empty (by decide) (by rw [found]; decide) ?_
    rw [made _ (by decide)]
    decide

end ConiferOS.Heap
