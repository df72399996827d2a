import ConiferOS.Lib.Run
import ConiferOS.Memory.HeapSpec

/-! # The heap table describes the live allocations

A ghost list remembers which calls of `heap_malloc` have not been freed yet. The
table is the image of that list: every in-table block of an allocation carries
exactly the flags of its position, and every other entry is 0. Blocks an
allocation got beyond the end of the table are not spoken of.
-/

namespace ConiferOS.Heap

open Lib.Run

/-- One live allocation: the pointer `heap_malloc` returned, the block it is the
    address of, and the number of blocks that were asked for. -/
structure Allocation where
  ptr : Word
  start : Int
  blocks : Nat
  deriving DecidableEq

/-- The in-table entries of an allocation. -/
def Allocation.Owns (a : Allocation) (heap : HeapDesc) (i : Int) : Prop :=
  a.start ≤ i ∧ i < a.start + a.blocks ∧ i < heap.total

/-- A heap together with its live allocations. -/
structure HeapState where
  heap : HeapDesc
  live : List Allocation

inductive HeapOp where
  | malloc (size : Word)
  | free (p : Word)

/-- A successful `heap_malloc` becomes a live allocation, `heap_free` ends one. -/
def HeapState.step (s : HeapState) : HeapOp → HeapState
  | .malloc size =>
      let startBlock := heapGetStartBlockIndex s.heap (blocksFor size)
      let result := heapMalloc s.heap size
      if startBlock < 0 then ⟨result.2, s.live⟩
      else ⟨result.2, ⟨result.1, startBlock, blocksFor size⟩ :: s.live⟩
  | .free p => ⟨heapFree s.heap p, s.live.eraseP (·.ptr = p)⟩

/-- The calls the heap is made for. -/
def HeapState.Legal (s : HeapState) : HeapOp → Prop
  | .malloc size => 1 ≤ size.toNat ∧ size.toNat ≤ 2 ^ 32 - 4096
  | .free p => ∃ a ∈ s.live, a.ptr = p

instance (s : HeapState) (op : HeapOp) : Decidable (s.Legal op) :=
  match op with
  | .malloc _ => inferInstanceAs (Decidable (_ ∧ _))
  | .free p => inferInstanceAs (Decidable (∃ a ∈ s.live, a.ptr = p))

/-- The table says which entries are owned, where each allocation starts and where
    it goes on, and nothing else. -/
structure HeapState.Described (s : HeapState) : Prop where
  disjoint : s.live.Pairwise fun a b => ∀ i, ¬ (a.Owns s.heap i ∧ b.Owns s.heap i)
  taken : ∀ i : Int, 0 ≤ i → i < s.heap.total →
    (heapGetEntryType (s.heap.entry i) = entryTaken ↔ ∃ a ∈ s.live, a.Owns s.heap i)
  first : ∀ i : Int, 0 ≤ i → i < s.heap.total →
    (s.heap.entry i &&& blockIsFirst ≠ 0 ↔ ∃ a ∈ s.live, i = a.start)
  next : ∀ a ∈ s.live, ∀ i, a.Owns s.heap i →
    (s.heap.entry i &&& blockHasNext ≠ 0 ↔ i ≠ a.start + a.blocks - 1)
  unowned : ∀ i : Int, 0 ≤ i → i < s.heap.total → (¬ ∃ a ∈ s.live, a.Owns s.heap i) → s.heap.entry i = 0

/-- The inductive form: every entry of a live allocation is the one its marking
    loop wrote. Blocks are few enough for a signed pointer difference. -/
structure HeapState.Inv (s : HeapState) : Prop where
  small : (s.heap.total : Int) * 4096 < 2 ^ 31
  bounds : ∀ a ∈ s.live, 0 ≤ a.start ∧ a.start < s.heap.total ∧ 0 < a.blocks ∧
    a.ptr = heapBlockToAddress s.heap a.start
  disjoint : s.live.Pairwise fun a b => ∀ i, ¬ (a.Owns s.heap i ∧ b.Owns s.heap i)
  owned : ∀ a ∈ s.live, ∀ i, a.Owns s.heap i → s.heap.entry i = blockEntry a.start a.blocks i
  unowned : ∀ i : Int, 0 ≤ i → i < s.heap.total → (∀ a ∈ s.live, ¬ a.Owns s.heap i) → s.heap.entry i = 0

namespace HeapState

variable {s : HeapState}

theorem Inv.owns_start (inv : s.Inv) {a : Allocation} (member : a ∈ s.live) :
    a.Owns s.heap a.start := by
  obtain ⟨_, upper, pos, _⟩ := inv.bounds a member
  exact ⟨le_rfl, by omega, upper⟩

theorem Inv.described (inv : s.Inv) : s.Described where
  disjoint := inv.disjoint
  taken := by
    intro i lower upper
    constructor
    · intro taken
      by_contra unowned
      push Not at unowned
      rw [inv.unowned i lower upper unowned] at taken
      exact absurd taken (by decide)
    · rintro ⟨a, member, owns⟩
      rw [inv.owned a member i owns, blockEntry_type]
  first := by
    intro i lower upper
    constructor
    · intro first
      by_contra none
      push Not at none
      by_cases owner : ∃ a ∈ s.live, a.Owns s.heap i
      · obtain ⟨a, member, owns⟩ := owner
        rw [inv.owned a member i owns, blockEntry_isFirst] at first
        exact none a member first
      · push Not at owner
        rw [inv.unowned i lower upper owner] at first
        exact absurd first (by decide)
    · rintro ⟨a, member, rfl⟩
      rw [inv.owned a member _ (inv.owns_start member), blockEntry_isFirst]
  next := by
    intro a member i owns
    rw [inv.owned a member i owns, blockEntry_hasNext]
  unowned := fun i lower upper none =>
    inv.unowned i lower upper (fun a member owns => none ⟨a, member, owns⟩)

/-- Only the entries of the table matter. -/
theorem Inv.congr (inv : s.Inv) {heap : HeapDesc} (total : heap.total = s.heap.total)
    (startAddr : heap.startAddr = s.heap.startAddr)
    (same : ∀ i : Int, 0 ≤ i → i < s.heap.total → heap.entry i = s.heap.entry i) :
    Inv ⟨heap, s.live⟩ := by
  refine ⟨?_, ?_, ?_, ?_, ?_⟩ <;> simp only [Allocation.Owns, heapBlockToAddress, total, startAddr]
  · exact inv.small
  · exact inv.bounds
  · exact inv.disjoint
  · intro a member i owns
    have lower := (inv.bounds a member).1
    rw [same i (by omega) owns.2.2]
    exact inv.owned a member i owns
  · intro i nonneg inTable none
    rw [same i nonneg inTable]
    exact inv.unowned i nonneg inTable none

/-! ## Allocating -/

/-- Free entries belong to nobody. -/
theorem Inv.not_owned_of_free (inv : s.Inv) {i : Int} (free : s.heap.table.FreeAt i)
    {a : Allocation} (member : a ∈ s.live) : ¬ a.Owns s.heap i := by
  intro owns
  have type : heapGetEntryType (s.heap.entry i) = entryFree := free
  rw [inv.owned a member i owns, blockEntry_type] at type
  exact absurd type (by decide)

theorem Inv.push (inv : s.Inv) {start : Int} {blocks : Nat} (lower : 0 ≤ start)
    (upper : start < s.heap.total) (pos : 0 < blocks)
    (free : ∀ i, start ≤ i → i < start + blocks → i < s.heap.total → s.heap.table.FreeAt i) :
    Inv ⟨heapMarkBlocksTaken s.heap start blocks,
      ⟨heapBlockToAddress s.heap start, start, blocks⟩ :: s.live⟩ where
  small := by simpa only [heapMarkBlocksTaken_total] using inv.small
  bounds := by
    intro a member
    simp only [heapMarkBlocksTaken_total, heapBlockToAddress, heapMarkBlocksTaken_startAddr]
    obtain rfl | old := List.mem_cons.mp member
    · exact ⟨lower, upper, pos, rfl⟩
    · exact inv.bounds a old
  disjoint := by
    simp only [Allocation.Owns, heapMarkBlocksTaken_total]
    refine List.pairwise_cons.mpr ⟨?_, inv.disjoint⟩
    rintro b member i ⟨⟨h1, h2, h3⟩, owns⟩
    exact inv.not_owned_of_free (free i h1 h2 h3) member owns
  owned := by
    intro a member i owns
    simp only [Allocation.Owns, heapMarkBlocksTaken_total] at owns
    rw [heapMarkBlocksTaken_entry]
    obtain rfl | old := List.mem_cons.mp member
    · rw [if_pos ⟨owns.1, owns.2.1⟩]
    · rw [if_neg, inv.owned a old i owns]
      intro inside
      exact inv.not_owned_of_free (free i inside.1 inside.2 owns.2.2) old owns
  unowned := by
    intro i nonneg inTable none
    simp only [Allocation.Owns, heapMarkBlocksTaken_total] at inTable none
    rw [heapMarkBlocksTaken_entry, if_neg]
    · exact inv.unowned i nonneg inTable (fun a member => none a (List.mem_cons_of_mem _ member))
    · intro inside
      exact none _ List.mem_cons_self ⟨inside.1, inside.2, inTable⟩

theorem blocksFor_pos {size : Word} (lower : 1 ≤ size.toNat) (upper : size.toNat ≤ 2 ^ 32 - 4096) :
    0 < blocksFor size := by
  rw [blocksFor_eq size upper]
  omega

theorem Inv.malloc (inv : s.Inv) {size : Word} (pos : 0 < blocksFor size) :
    (s.step (.malloc size)).Inv := by
  simp only [step, heapMalloc, heapMallocBlocks]
  by_cases failed : heapGetStartBlockIndex s.heap (blocksFor size) < 0
  · simpa only [if_pos failed] using inv
  · obtain ⟨upper, run⟩ := heapGetStartBlockIndex_spec s.heap (blocksFor size) (by omega)
    simp only [if_neg failed]
    refine inv.push (by omega) upper pos ?_
    intro i h1 h2 h3
    obtain ⟨_, _, free⟩ | ⟨_, free⟩ := run
    · exact free i h1 h2
    · exact free i h1 h3

theorem heapMalloc_frame (heap : HeapDesc) (size : Word) :
    (heapMalloc heap size).2.total = heap.total ∧
      (heapMalloc heap size).2.startAddr = heap.startAddr ∧
      ∀ j < 0, (heapMalloc heap size).2.entry j = heap.entry j := by
  simp only [heapMalloc, heapMallocBlocks]
  split
  · exact ⟨rfl, rfl, fun _ _ => rfl⟩
  · refine ⟨heapMarkBlocksTaken_total _ _ _, heapMarkBlocksTaken_startAddr _ _ _, fun j below => ?_⟩
    rw [heapMarkBlocksTaken_entry, if_neg (by omega)]

/-! ## Freeing -/

/-- `heap_free` on the pointer of a live allocation clears exactly its entries. -/
theorem Inv.heapFree_entry (inv : s.Inv) {a : Allocation} (member : a ∈ s.live) (i : Int) :
    (heapFree s.heap a.ptr).entry i =
      if a.start ≤ i ∧ i < a.start + a.blocks ∧ i < s.heap.total then entryFree
      else s.heap.entry i := by
  obtain ⟨lower, upper, pos, address⟩ := inv.bounds a member
  have small := inv.small
  rw [heapFree, address, heapAddressToBlock_heapBlockToAddress _ _ lower (by omega)]
  have flag : ∀ k, a.Owns s.heap k →
      (s.heap.entry k &&& blockHasNext ≠ 0 ↔ k ≠ a.start + a.blocks - 1) := by
    intro k owns
    rw [inv.owned a member k owns, blockEntry_hasNext]
  -- The chain ends in the allocation's last block, or is cut off by the table.
  rw [heapMarkBlocksFree_entry s.heap a.start (min (a.start + a.blocks) s.heap.total - 1) i
    (by omega) (by omega)]
  · exact if_congr (by omega) rfl rfl
  · intro k above below
    exact (flag k ⟨above, by omega, by omega⟩).mpr (by omega)
  · by_cases cut : (s.heap.total : Int) < a.start + a.blocks
    · exact .inr (by omega)
    · refine .inl (not_not.mp (mt (flag _ ⟨?_, ?_, ?_⟩).mp ?_)) <;> omega

@[simp] theorem heapFree_total (heap : HeapDesc) (p : Word) :
    (heapFree heap p).total = heap.total := heapMarkBlocksFree_total _ _

@[simp] theorem heapFree_startAddr (heap : HeapDesc) (p : Word) :
    (heapFree heap p).startAddr = heap.startAddr := heapMarkBlocksFree_startAddr _ _

/-- The pointer identifies the allocation. -/
theorem Inv.ptr_injective (inv : s.Inv) {a b : Allocation} (ha : a ∈ s.live) (hb : b ∈ s.live)
    (same : a.ptr = b.ptr) : a.start = b.start := by
  obtain ⟨la, ua, _, pa⟩ := inv.bounds a ha
  obtain ⟨lb, ub, _, pb⟩ := inv.bounds b hb
  have small := inv.small
  rw [← heapAddressToBlock_heapBlockToAddress s.heap a.start la (by omega),
    ← heapAddressToBlock_heapBlockToAddress s.heap b.start lb (by omega), ← pa, ← pb, same]

/-- `heap_free` on a free block changes nothing. -/
theorem Inv.heapFree_of_free (inv : s.Inv) {b : Int} (lower : 0 ≤ b) (upper : b < s.heap.total)
    (free : s.heap.table.FreeAt b) (i : Int) :
    (heapFree s.heap (heapBlockToAddress s.heap b)).entry i = s.heap.entry i := by
  have small := inv.small
  have clear : s.heap.entry b = 0 :=
    inv.unowned b lower upper fun a member => inv.not_owned_of_free free member
  rw [heapFree, heapAddressToBlock_heapBlockToAddress _ _ lower (by omega),
    heapMarkBlocksFree_entry s.heap b b i le_rfl upper (by omega) (.inl (by rw [clear]; decide))]
  split
  case isTrue here =>
    obtain rfl : i = b := by omega
    exact clear.symm
  case isFalse => rfl

theorem Inv.free (inv : s.Inv) {p : Word} (live : ∃ a ∈ s.live, a.ptr = p) :
    (s.step (.free p)).Inv := by
  obtain ⟨a, before, after, split, ptr, others⟩ :
      ∃ a before after, s.live = before ++ a :: after ∧ a.ptr = p ∧
        s.live.eraseP (·.ptr = p) = before ++ after := by
    obtain ⟨a, before, after, _, ptr, split, erased⟩ :=
      List.exists_of_eraseP (p := fun a : Allocation => decide (a.ptr = p)) live.choose_spec.1
        (by simpa using live.choose_spec.2)
    exact ⟨a, before, after, split, by simpa using ptr, erased⟩
  subst ptr
  have member : a ∈ s.live := by simp [split]
  have rest : ∀ b, b ∈ before ++ after → b ∈ s.live := by
    intro b mem
    rw [split]
    simp only [List.mem_append, List.mem_cons] at mem ⊢
    tauto
  have apart : ∀ b ∈ before ++ after, ∀ i, ¬ (a.Owns s.heap i ∧ b.Owns s.heap i) := by
    intro b mem i
    have pairs := inv.disjoint
    rw [split, List.pairwise_append, List.pairwise_cons] at pairs
    obtain left | right := List.mem_append.mp mem
    · exact fun both => pairs.2.2 b left a List.mem_cons_self i both.symm
    · exact pairs.2.1.1 b right i
  refine ⟨?_, ?_, ?_, ?_, ?_⟩ <;> simp only [step, others]
  · simpa only [heapFree_total] using inv.small
  · intro b mem
    simpa only [heapFree_total, heapBlockToAddress, heapFree_startAddr] using inv.bounds b (rest b mem)
  · simp only [Allocation.Owns, heapFree_total]
    have pairs := inv.disjoint
    rw [split, List.pairwise_append, List.pairwise_cons] at pairs
    exact List.pairwise_append.mpr ⟨pairs.1, pairs.2.1.2,
      fun b left c right => pairs.2.2 b left c (List.mem_cons_of_mem _ right)⟩
  · intro b mem i owns
    simp only [Allocation.Owns, heapFree_total] at owns
    rw [inv.heapFree_entry member, if_neg, inv.owned b (rest b mem) i owns]
    exact fun mine => apart b mem i ⟨mine, owns⟩
  · intro i nonneg inTable none
    simp only [Allocation.Owns, heapFree_total] at inTable none
    rw [inv.heapFree_entry member]
    split
    · rfl
    · rename_i mine
      apply inv.unowned i nonneg inTable
      intro b mem owns
      rw [split] at mem
      simp only [List.mem_append, List.mem_cons] at mem
      obtain left | rfl | right := mem
      · exact none b (List.mem_append_left _ left) owns
      · exact mine owns
      · exact none b (List.mem_append_right _ right) owns

end HeapState

/-! ## Whole runs -/

theorem heapCreate_success {heap created : HeapDesc} {startAddr endAddr : Word}
    {table : HeapEntryTable} (success : heapCreate heap startAddr endAddr table = (0, created)) :
    created = ⟨table.clear, startAddr⟩ := by
  unfold heapCreate at success
  split at success
  · exact absurd (Prod.mk.inj success).1 (by decide)
  · split at success
    · exact absurd (Prod.mk.inj success).1 (by decide)
    · exact (Prod.mk.inj success).2.symm

theorem HeapState.inv_created (table : HeapEntryTable) (startAddr : Word)
    (small : (table.totalEntries : Int) * 4096 < 2 ^ 31) :
    HeapState.Inv ⟨⟨table.clear, startAddr⟩, []⟩ where
  small := small
  bounds := by simp
  disjoint := List.Pairwise.nil
  owned := by simp
  unowned := by
    intro i lower upper _
    exact if_pos ⟨lower, upper⟩

theorem HeapState.Inv.step {s : HeapState} (inv : s.Inv) (op : HeapOp) (legal : s.Legal op) :
    (s.step op).Inv := by
  cases op with
  | malloc size => exact inv.malloc (blocksFor_pos legal.1 legal.2)
  | free p => exact inv.free legal

/-- From a fresh heap, after every run of legal calls, the table describes exactly
    the live allocations, and freeing one of them touches no other entry. -/
theorem heap_table_describes_live {heap created : HeapDesc} {startAddr endAddr : Word}
    {table : HeapEntryTable} (success : heapCreate heap startAddr endAddr table = (0, created))
    (small : table.totalEntries * 4096 < 2 ^ 31) (ops : List HeapOp)
    (legal : Always HeapState.step HeapState.Legal ⟨created, []⟩ ops) :
    let s := final HeapState.step ⟨created, []⟩ ops
    s.Described ∧
      (∀ a ∈ s.live, a.ptr = heapBlockToAddress s.heap a.start ∧ a.start < s.heap.total) ∧
      ∀ a ∈ s.live, ∀ i : Int, 0 ≤ i → i < s.heap.total →
        (a.Owns s.heap i → (heapFree s.heap a.ptr).entry i = 0) ∧
        (¬ a.Owns s.heap i → (heapFree s.heap a.ptr).entry i = s.heap.entry i) := by
  intro s
  obtain rfl := heapCreate_success success
  have inv : s.Inv := Always.invariant HeapState.Inv (fun _ op inv legal => inv.step op legal)
    (HeapState.inv_created table startAddr (by exact_mod_cast small)) legal
  refine ⟨inv.described, fun a member => ?_, fun a member i _ _ => ?_⟩
  · obtain ⟨_, upper, _, address⟩ := inv.bounds a member
    exact ⟨address, upper⟩
  · rw [inv.heapFree_entry member]
    exact ⟨fun owns => if_pos owns, fun foreign => if_neg foreign⟩

/-- A heap of two blocks. -/
def twoBlocks : HeapDesc :=
  (heapCreate ⟨⟨fun _ => 0, 0⟩, 0⟩ 0x1000 0x3000 ⟨fun _ => 0, 2⟩).2

theorem heap_table_describes_live_two_blocks :
    (final HeapState.step ⟨twoBlocks, []⟩ [.malloc 1, .malloc 5000, .free 0x1000]).Described :=
  (@heap_table_describes_live ⟨⟨fun _ => 0, 0⟩, 0⟩ twoBlocks 0x1000 0x3000 ⟨fun _ => 0, 2⟩ rfl
    (by decide) [.malloc 1, .malloc 5000, .free 0x1000] (by decide)).1

end ConiferOS.Heap
