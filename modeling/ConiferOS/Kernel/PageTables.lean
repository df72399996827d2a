import ConiferOS.Kernel.FailedLoad
import ConiferOS.Memory.PagingRefinement

/-! # The blocks of page tables

`init_page_tables` and `free_page_tables` on the heap and on memory. The addresses of the
tables are in the directory, below the flags; `free_page_tables` does not mask the flags
but multiplies. The product keeps eight bits of an address, so at most 256 different
addresses are freed for 1024 tables.
-/

namespace ConiferOS.Kernel

open Heap Lib Lib.Run Paging

/-- The requests of `init_page_tables`: the directory, its tables, and the descriptor. -/
def pageTableSizes : List Word :=
  List.replicate (pagingDirEntries + 1) (BitVec.ofNat 32 (4 * pagingTableEntries)) ++ [sizeofPagingDesc]

/-- None of the blocks is looked at before it is used. -/
def initPageTables (heap : HeapDesc) (flags : BitVec 8) (m : Mem) : Option (Word × HeapDesc × Mem) := do
  let (blocks, heap) ← kzallocAll heap pageTableSizes
  let (paging, m) := Paging.initPageTables (fun k => blocks.getD k 0) flags m
  some (paging, heap, m)

/-- What is freed for the entry of a directory. -/
def freedTable (pgdEntry : Word) : Word := pgdEntry * ~~~pageTableEntryFlagsMask

/-- What is freed for tables that were made with `flags`. -/
def freedTables (flags : BitVec 8) (ptes : List Word) : List Word :=
  ptes.map fun pte => freedTable (pte ||| flags.setWidth 32 ||| pagingReadWrite)

def freePageTables (heap : HeapDesc) (m : Mem) (paging : Word) : HeapDesc :=
  let pgd := getPgd m paging
  let heap := (List.range pagingDirEntries).foldl
    (fun heap i => kfree heap (freedTable (m.load32 (wordAt pgd i)))) heap
  kfree (kfree heap pgd) paging

/-- Page tables are made, used and freed. -/
def pageTablesRoundTrip (heap : HeapDesc) (flags : BitVec 8) (m : Mem) (calls : List PageCall) :
    Option HeapDesc := do
  let (paging, heap, m) ← initPageTables heap flags m
  let m := final (fun m call => (PageCall.exec paging m call).2) m calls
  some (freePageTables heap m paging)

/-! ## Allocating -/

/-- One block, which is one of those that were free. -/
theorem kzallocUsed_block {heap : HeapDesc} (table : KernelTable heap) {size : Word}
    (page : size.toNat ≤ 4096) (one : blocksFor size = 1) (nonempty : heap.freeBlocks.Nonempty) :
    ∃ b ∈ heap.freeBlocks, kzallocUsed heap size =
        some (heapBlockToAddress heap b, (heapMalloc heap size).2) ∧
      (heapMalloc heap size).2.freeBlocks = heap.freeBlocks.erase b ∧
      heap.ends.card + 1 ≤ (heapMalloc heap size).2.ends.card := by
  obtain ⟨b, free, address, rest⟩ := heapMalloc_block one nonempty
  obtain ⟨⟨lower, upper⟩, -⟩ := mem_freeBlocks.mp free
  have nonnull : (heapMalloc heap size).1 ≠ 0 := by
    have above := table.block_ne_zero lower upper
    rw [address]
    rintro null
    rw [null] at above
    exact absurd above (by decide)
  have found := not_lt.mp (mt (table.heapMalloc_null_iff size).mpr nonnull)
  have more := ends_heapMalloc (by omega : 0 < blocksFor size) found
  refine ⟨b, free, ?_, rest, by omega⟩
  simp only [kzallocUsed, table.kzalloc_eq (hasRoom_block table page), Option.bind_eq_bind,
    Option.bind_some, if_neg nonnull, ← address]

/-- As many blocks as are asked for, one at a time. -/
theorem kzallocAll_blocks :
    ∀ {sizes : List Word} {heap : HeapDesc}, KernelTable heap →
      (∀ size ∈ sizes, size.toNat ≤ 4096 ∧ blocksFor size = 1) →
      sizes.length ≤ heap.freeBlocks.card →
      ∃ (blocks : List Int) (later : HeapDesc),
        kzallocAll heap sizes = some (blocks.map (heapBlockToAddress heap), later) ∧
        blocks.length = sizes.length ∧ blocks.Nodup ∧ (∀ b ∈ blocks, b ∈ heap.freeBlocks) ∧
        KernelTable later ∧ heap.ends.card + sizes.length ≤ later.ends.card := by
  intro sizes
  induction sizes with
  | nil => exact fun table _ _ => ⟨[], _, rfl, rfl, List.nodup_nil, nofun, table, le_rfl⟩
  | cons size sizes ih =>
      intro heap table small room
      obtain ⟨page, one⟩ := small size List.mem_cons_self
      rw [List.length_cons] at room
      obtain ⟨b, free, served, rest, more⟩ :=
        kzallocUsed_block table page one (Finset.card_pos.mp (by omega))
      have addresses : heapBlockToAddress (heapMalloc heap size).2 = heapBlockToAddress heap := by
        funext c
        rw [heapBlockToAddress, heapBlockToAddress, (HeapState.heapMalloc_frame heap size).2.1]
      have left : sizes.length ≤ (heapMalloc heap size).2.freeBlocks.card := by
        rw [rest, Finset.card_erase_of_mem free]
        omega
      obtain ⟨blocks, later, others, length, distinct, among, still, counted⟩ :=
        ih (table.malloc size) (fun other member => small other (List.mem_cons_of_mem size member)) left
      rw [rest] at among
      refine ⟨b :: blocks, later, ?_, congrArg (· + 1) length, ?_, ?_, still, ?_⟩
      · simp only [kzallocAll, served, others, Option.bind_eq_bind, Option.bind_some, addresses,
          List.map_cons]
      · refine List.nodup_cons.mpr ⟨fun member => ?_, distinct⟩
        exact absurd rfl (Finset.mem_erase.mp (among b member)).1
      · intro c member
        rcases List.mem_cons.mp member with rfl | old
        · exact free
        · exact Finset.mem_of_mem_erase (among c old)
      · rw [List.length_cons]
        omega

theorem pageTableSizes_small : ∀ size ∈ pageTableSizes, size.toNat ≤ 4096 ∧ blocksFor size = 1 := by
  intro size member
  rcases List.mem_append.mp member with table | descriptor
  · obtain rfl := List.eq_of_mem_replicate table
    decide
  · obtain rfl := List.mem_singleton.mp descriptor
    decide

theorem pageTableSizes_length : pageTableSizes.length = 1026 := by
  rw [pageTableSizes, List.length_append, List.length_replicate]
  rfl

theorem kzallocAll_append (heap : HeapDesc) (sizes more : List Word) :
    kzallocAll heap (sizes ++ more) = (do
      let (ptrs, heap) ← kzallocAll heap sizes
      let (others, heap) ← kzallocAll heap more
      some (ptrs ++ others, heap)) := by
  induction sizes generalizing heap with
  | nil => simp [kzallocAll]
  | cons size sizes ih =>
      simp only [List.cons_append, kzallocAll, ih, Option.bind_eq_bind, Option.bind_assoc, Option.bind_some]

/-- Different blocks of the heap, as memory for page tables. -/
theorem disjointBlocks {heap : HeapDesc} (table : KernelTable heap) {blocks : List Int}
    (length : blocks.length = 1026) (distinct : blocks.Nodup)
    (among : ∀ b ∈ blocks, 0 ≤ b ∧ b < heap.total) :
    DisjointBlocks fun k => (blocks.map (heapBlockToAddress heap)).getD k 0 := by
  have address : ∀ k, ∀ inside : k < blocks.length,
      ((blocks.map (heapBlockToAddress heap)).getD k 0).toNat = 0x1000000 + 4096 * blocks[k].toNat ∧
        0 ≤ blocks[k] ∧ blocks[k] < 25600 := by
    intro k inside
    obtain ⟨lower, upper⟩ := among blocks[k] (List.getElem_mem inside)
    rw [table.total] at upper
    rw [List.getD_eq_getElem _ _ (by simpa using inside), List.getElem_map]
    exact ⟨heapBlockToAddress_kernel table.start lower upper, lower, upper⟩
  constructor
  · intro k bound
    have here := (address k (by omega)).1
    omega
  · intro j hj k hk other x hx y hy same
    have jInside : j < blocks.length := by omega
    have kInside : k < blocks.length := by omega
    obtain ⟨first, firstLower, firstUpper⟩ := address j jInside
    obtain ⟨second, secondLower, secondUpper⟩ := address k kInside
    have apart : blocks[j] ≠ blocks[k] :=
      fun equal => other ((List.Nodup.getElem_inj_iff distinct).mp equal)
    have hx : x < 4096 := by split at hx <;> omega
    have hy : y < 4096 := by split at hy <;> omega
    have sum := congrArg BitVec.toNat same
    simp only [BitVec.toNat_add, BitVec.toNat_ofNat, first, second] at sum
    omega

/-! ## Freeing -/

/-- The product keeps the lowest eight bits of the number of a table's page. -/
theorem freedTable_eq {pte : Word} (aligned : pte.toNat % 4096 = 0) (flags : BitVec 8) :
    freedTable (pte ||| flags.setWidth 32 ||| pagingReadWrite) =
      freedTable (BitVec.ofNat 32 (4096 * (pte.toNat / 4096 % 256)) ||| flags.setWidth 32 |||
        pagingReadWrite) := by
  have low := directory_flags_lt flags
  have page : (BitVec.ofNat 32 (4096 * (pte.toNat / 4096 % 256))).toNat =
      4096 * (pte.toNat / 4096 % 256) := by
    rw [BitVec.toNat_ofNat]
    omega
  have factor : (~~~pageTableEntryFlagsMask).toNat = 2 ^ 32 - 4096 := by decide
  apply BitVec.eq_of_toNat_eq
  rw [BitVec.or_assoc, BitVec.or_assoc, freedTable, freedTable, BitVec.toNat_mul, BitVec.toNat_mul,
    Page.toNat_or aligned low, Page.toNat_or (by omega) low, page, factor]
  omega

/-- At most 256 addresses are freed for the tables. -/
theorem freedTables_card {ptes : List Word} (aligned : ∀ pte ∈ ptes, pte.toNat % 4096 = 0)
    (flags : BitVec 8) : (freedTables flags ptes).toFinset.card ≤ 256 := by
  let byPage (r : Nat) : Word :=
    freedTable (BitVec.ofNat 32 (4096 * r) ||| flags.setWidth 32 ||| pagingReadWrite)
  have images : (freedTables flags ptes).toFinset ⊆ (Finset.range 256).image byPage := by
    intro freed member
    obtain ⟨pte, among, rfl⟩ := List.mem_map.mp (List.mem_toFinset.mp member)
    refine Finset.mem_image.mpr ⟨pte.toNat / 4096 % 256, Finset.mem_range.mpr (by omega), ?_⟩
    exact (freedTable_eq (aligned pte among) flags).symm
  calc _ ≤ ((Finset.range 256).image byPage).card := Finset.card_le_card images
    _ ≤ (Finset.range 256).card := Finset.card_image_le
    _ = 256 := Finset.card_range 256

/-- Calls on page tables leave their directory alone. -/
theorem directory_after_calls {kzalloc : Nat → Word} (blocks : DisjointBlocks kzalloc) (flags : BitVec 8)
    (m : Mem) (calls : List PageCall) :
    let mem := final (fun mem call => (PageCall.exec (kzalloc 1025) mem call).2)
      (Paging.initPageTables kzalloc flags m).2 calls
    getPgd mem (kzalloc 1025) = kzalloc 0 ∧
      ∀ d < 1024, mem.load32 (wordAt (kzalloc 0) d) =
        kzalloc (d + 1) ||| flags.setWidth 32 ||| pagingReadWrite := by
  intro mem
  obtain ⟨-, fresh⟩ := blocks.represents flags m
  let built := (Paging.initPageTables kzalloc flags m).2
  have both : blocks.layout.Represents mem (final PageCall.apply (PageMap.linear flags) calls) ∧
      blocks.layout.SameDirectory built mem := by
    refine final_related (fun mem map => blocks.layout.Represents mem map ∧
      blocks.layout.SameDirectory built mem) (fun before map call related => ?_) ⟨fresh, fun _ _ => rfl⟩
    obtain ⟨after, exec, rep, same⟩ := related.1.exec call
    have result : PageCall.exec (kzalloc 1025) before call = _ := exec
    rw [result]
    exact ⟨rep, fun d hd => (same d hd).trans (related.2 d hd)⟩
  exact ⟨both.1.descriptor, fun d hd => (both.2 d hd).trans (blocks.directory flags m hd)⟩

/-- The addresses that are freed, in their order. -/
theorem pageTablesRoundTrip_eq {heap built : HeapDesc} {kzalloc : Nat → Word} (blocks : DisjointBlocks kzalloc)
    {flags : BitVec 8} {m : Mem}
    (made : initPageTables heap flags m =
      some (kzalloc 1025, built, (Paging.initPageTables kzalloc flags m).2)) (calls : List PageCall) :
    pageTablesRoundTrip heap flags m calls =
      some (kfree (kfree ((freedTables flags
        ((List.range pagingDirEntries).map fun d => kzalloc (d + 1))).foldl kfree built) (kzalloc 0))
          (kzalloc 1025)) := by
  obtain ⟨descriptor, directory⟩ := directory_after_calls blocks flags m calls
  simp only [pageTablesRoundTrip, made, Option.bind_eq_bind, Option.bind_some]
  generalize final (fun m call => (PageCall.exec (kzalloc 1025) m call).2)
    (Paging.initPageTables kzalloc flags m).2 calls = mem at descriptor directory ⊢
  have tables : (List.range pagingDirEntries).foldl
      (fun heap d => kfree heap (freedTable (mem.load32 (wordAt (kzalloc 0) d)))) built =
      (freedTables flags ((List.range pagingDirEntries).map fun d => kzalloc (d + 1))).foldl
        kfree built := by
    rw [freedTables, List.map_map, List.foldl_map]
    refine List.foldl_ext _ _ built fun later d member => ?_
    rw [directory d (List.mem_range.mp member), Function.comp_apply]
  rw [freePageTables, descriptor, tables]

/-! ## Releasing -/

theorem initPageTables_built {heap : HeapDesc} (table : KernelTable heap)
    (room : pageTableSizes.length ≤ heap.freeBlocks.card) (flags : BitVec 8) (m : Mem) :
    ∃ kzalloc later, DisjointBlocks kzalloc ∧
      initPageTables heap flags m =
        some (kzalloc 1025, later, (Paging.initPageTables kzalloc flags m).2) ∧
      KernelTable later ∧ heap.ends.card + 1026 ≤ later.ends.card := by
  obtain ⟨blocks, later, served, length, distinct, among, still, more⟩ :=
    kzallocAll_blocks table pageTableSizes_small room
  rw [pageTableSizes_length] at length more
  refine ⟨fun k => (blocks.map (heapBlockToAddress heap)).getD k 0, later, ?_, ?_, still, more⟩
  · exact disjointBlocks table length distinct fun b member => (mem_freeBlocks.mp (among b member)).1
  · rw [initPageTables, served]
    rfl

/-- Of the blocks that page tables take, most are never given back. -/
theorem pageTablesRoundTrip_ends {heap : HeapDesc} (table : KernelTable heap)
    (room : pageTableSizes.length ≤ heap.freeBlocks.card) (flags : BitVec 8) (m : Mem)
    (calls : List PageCall) :
    ∃ later, pageTablesRoundTrip heap flags m calls = some later ∧ KernelTable later ∧
      heap.ends.card + 768 ≤ later.ends.card := by
  obtain ⟨kzalloc, built, blocks, made, still, more⟩ := initPageTables_built table room flags m
  have run := pageTablesRoundTrip_eq blocks made calls
  have aligned : ∀ pte ∈ (List.range pagingDirEntries).map fun d => kzalloc (d + 1),
      pte.toNat % 4096 = 0 := by
    intro pte member
    obtain ⟨d, inside, rfl⟩ := List.mem_map.mp member
    have small : d < 1024 := List.mem_range.mp inside
    exact blocks.aligned (d + 1) (by omega)
  have few := freedTables_card aligned flags
  generalize freedTables flags ((List.range pagingDirEntries).map fun d => kzalloc (d + 1)) = freed
    at run few
  have tables := ends_kfree_all freed built ∅ nofun
  rw [Finset.card_empty, Finset.empty_union] at tables
  have pgd := ends_kfree (freed.foldl kfree built) (kzalloc 0)
  have paging := ends_kfree (kfree (freed.foldl kfree built) (kzalloc 0)) (kzalloc 1025)
  exact ⟨_, run, ((still.kfree_all _).kfree _).kfree _, by omega⟩

/-- With room for them, page tables are made, and the table of the heap is never again what
    it was. -/
theorem page_tables_not_released {heap : HeapDesc} (table : KernelTable heap)
    (room : pageTableSizes.length ≤ heap.freeBlocks.card) (flags : BitVec 8) (m : Mem)
    (calls : List PageCall) :
    ∃ later, pageTablesRoundTrip heap flags m calls = some later ∧ ¬ SameTable heap later := by
  obtain ⟨later, run, still, more⟩ := pageTablesRoundTrip_ends table room flags m calls
  exact ⟨later, run, not_sameTable_of_ends (still.total.trans table.total.symm) (by omega)⟩

theorem freshHeap_room : pageTableSizes.length ≤ freshHeap.freeBlocks.card := by
  rw [pageTableSizes_length, freshHeap_freeBlocks]
  decide

/-- A page mapped on the way. -/
theorem page_tables_not_released_one_page :
    ∃ later, pageTablesRoundTrip freshHeap 5 (fun _ => 0) [.createMapping 0x400000 0x1500000 0x1501000 7] =
      some later ∧ ¬ SameTable freshHeap later :=
  page_tables_not_released freshHeap_table freshHeap_room 5 _ _

/-- The first page tables of the kernel: of 1026 blocks at least 768 are lost. -/
theorem first_page_tables_leak :
    ∃ later, pageTablesRoundTrip freshHeap 7 (fun _ => 0) [] = some later ∧
      freshHeap.ends.card + 768 ≤ later.ends.card ∧ ¬ SameTable freshHeap later := by
  obtain ⟨later, run, still, more⟩ :=
    pageTablesRoundTrip_ends freshHeap_table freshHeap_room 7 (fun _ => 0) []
  refine ⟨later, run, more, ?_⟩
  exact not_sameTable_of_ends (still.total.trans freshHeap_table.total.symm) (by omega)

/-! ## The page tables of a task

What a load does with its resources agrees with this.
-/

theorem Resources.initPageTables_blocks {r later : Resources} {tables : PageTables}
    (run : r.initPageTables = some (tables, later)) :
    kzallocAll r.heap pageTableSizes = some (tables.blocks, later.heap) := by
  obtain ⟨r₁, r₂, first, second, third⟩ := initPageTables_cases run
  obtain ⟨heap₁, directory, rfl⟩ := Resources.alloc_eq_some first
  obtain ⟨heap₂, all, rfl⟩ := Resources.alloc_eq_some second
  obtain ⟨heap₃, descriptor, rfl⟩ := Resources.alloc_eq_some third
  have sizes : pageTableSizes = BitVec.ofNat 32 (4 * pagingDirEntries) ::
      (List.replicate pagingDirEntries (BitVec.ofNat 32 (4 * pagingTableEntries)) ++ [sizeofPagingDesc]) := by
    rw [pageTableSizes, List.replicate_succ, List.cons_append]
    rfl
  rw [sizes]
  simp only [kzallocAll, kzallocAll_append, directory, all, descriptor, Option.bind_eq_bind,
    Option.bind_some, PageTables.blocks, List.cons_append]

/-- The flags of a task's page tables. -/
def taskFlags : BitVec 8 := (pagingUserSupervisor ||| pagingPresent).setWidth 8

theorem freedTables_task (ptes : List Word) : freedTables taskFlags ptes = ptes.map freedPageTable := rfl

namespace PageTables

variable {tables : PageTables}

theorem getD_ptes (tables : PageTables) (count : tables.ptes.length = pagingDirEntries) :
    (List.range pagingDirEntries).map (fun d => tables.blocks.getD (d + 1) 0) = tables.ptes := by
  refine List.ext_getElem (by simp [count]) fun d inside inPtes => ?_
  simp only [List.getElem_map, List.getElem_range, blocks, List.cons_append, List.getD_cons_succ]
  rw [List.getD_append _ _ _ _ inPtes, List.getD_eq_getElem _ _ inPtes]

theorem getD_paging (tables : PageTables) (count : tables.ptes.length = pagingDirEntries) :
    tables.blocks.getD 1025 0 = tables.paging := by
  rw [blocks, List.cons_append, List.getD_cons_succ, List.getD_append_right _ _ _ _ (by rw [count]; decide),
    count]
  rfl

end PageTables

/-- With room for them, the tables in memory are those of the load, and freeing them is
    freeing the same addresses. -/
theorem Resources.freePageTables_heap {r later : Resources} {tables : PageTables}
    (table : KernelTable r.heap) (room : pageTableSizes.length ≤ r.heap.freeBlocks.card)
    (run : r.initPageTables = some (tables, later)) (m : Mem) (calls : List PageCall) :
    pageTablesRoundTrip r.heap taskFlags m calls = some (later.freePageTables tables).heap := by
  obtain ⟨blocks, heap, served, length, distinct, among, -, -⟩ :=
    kzallocAll_blocks table pageTableSizes_small room
  have same := Resources.initPageTables_blocks run
  rw [served, Option.some_inj, Prod.mk_inj] at same
  obtain ⟨addresses, rfl⟩ := same
  rw [pageTableSizes_length] at length
  have disjoint := disjointBlocks table length distinct
    fun b member => (mem_freeBlocks.mp (among b member)).1
  have count : tables.ptes.length = pagingDirEntries := by
    have blocksLength := congrArg List.length addresses
    simp only [List.length_map, length, PageTables.blocks, List.cons_append, List.length_cons,
      List.length_append, List.length_nil] at blocksLength
    simp only [pagingDirEntries]
    omega
  rw [addresses] at disjoint served
  have made : Kernel.initPageTables r.heap taskFlags m = some (tables.blocks.getD 1025 0, later.heap,
      (Paging.initPageTables (fun k => tables.blocks.getD k 0) taskFlags m).2) := by
    rw [Kernel.initPageTables, served]
    rfl
  have root : tables.blocks.getD 0 0 = tables.pgd := rfl
  have freed := pageTablesRoundTrip_eq disjoint made calls
  rw [tables.getD_ptes count, tables.getD_paging count, root] at freed
  rw [freed, freedTables_task, Resources.freePageTables, Resources.freeAll_eq]
  rfl

end ConiferOS.Kernel
