import ConiferOS.Lib.Run
import ConiferOS.Memory.Paging
import ConiferOS.Memory.PageMap

/-! # Page tables in memory refine a flat page map

`Layout` fixes where the descriptor, the directory and the tables of one address
space lie; `Represents` says that memory, read through that layout, holds a given
flat map. Only the directory words' upper bits matter, so flags in them do not.
-/

namespace ConiferOS.Paging

open Lib Lib.Run Mem

/-- Page-aligned blocks for one set of page tables, no two of them the same. -/
structure Layout where
  paging : Word
  pgd : Word
  tables : Nat → Word
  paging_aligned : paging.toNat % 4096 = 0
  pgd_aligned : pgd.toNat % 4096 = 0
  table_aligned : ∀ d < 1024, (tables d).toNat % 4096 = 0
  paging_ne_pgd : paging ≠ pgd
  paging_ne_table : ∀ d < 1024, paging ≠ tables d
  pgd_ne_table : ∀ d < 1024, pgd ≠ tables d
  table_injective : ∀ d < 1024, ∀ e < 1024, tables d = tables e → d = e

/-- The number of the page with directory index `d` and table index `t`. -/
def pageAt (d t : Nat) : BitVec 20 := BitVec.ofNat 20 (d * 1024 + t)

/-- Memory holds the page tables of `map` at this layout. -/
structure Layout.Represents (l : Layout) (m : Mem) (map : PageMap) : Prop where
  descriptor : getPgd m l.paging = l.pgd
  directory : ∀ d < 1024, m.load32 (wordAt l.pgd d) &&& pgdEntryTableAddr = l.tables d
  entry : ∀ d < 1024, ∀ t < 1024, m.load32 (wordAt (l.tables d) t) = map (pageAt d t)

/-- The words of the directory are the same, flags included. -/
def Layout.SameDirectory (l : Layout) (m m' : Mem) : Prop :=
  ∀ d < 1024, m'.load32 (wordAt l.pgd d) = m.load32 (wordAt l.pgd d)

section Words

variable {array array' : Word} {i j : Nat}

theorem wordAt_aligned (aligned : array.toNat % 4096 = 0) : (wordAt array i).toNat % 4 = 0 := by
  unfold wordAt
  bv_omega

theorem wordAt_ne_of_index (hi : i < 1024) (hj : j < 1024) (distinct : i ≠ j) :
    wordAt array i ≠ wordAt array j := by
  unfold wordAt
  bv_omega

theorem wordAt_ne_of_array (aligned : array.toNat % 4096 = 0) (aligned' : array'.toNat % 4096 = 0)
    (distinct : array ≠ array') (hi : i < 1024) (hj : j < 1024) :
    wordAt array i ≠ wordAt array' j := by
  unfold wordAt
  bv_omega

theorem wordAt_zero (array : Word) : wordAt array 0 = array := by
  simp [wordAt]

/-- A word of one page survives clearing another page. -/
theorem load32_wordAt_fill {m : Mem} {n : Nat} {v : BitVec 8} (aligned : array.toNat % 4096 = 0)
    (aligned' : array'.toNat % 4096 = 0) (distinct : array ≠ array') (hj : j < 1024)
    (size : n ≤ 4096) :
    load32 (m.fill array n v) (wordAt array' j) = load32 m (wordAt array' j) := by
  unfold wordAt
  exact load32_fill_apart (by bv_omega) (by bv_omega)

end Words

/-! ## One call -/

theorem pagingGetIndexes_aligned {va : Word} (aligned : va.toNat % 4096 = 0) :
    pagingGetIndexes va = .ok (va.toNat / 4194304, va.toNat % 4194304 / 4096) := by
  simp [pagingGetIndexes, aligned, pagingTableEntries, pagingPageSize]

theorem pageAt_indexes (va : Word) :
    pageAt (va.toNat / 4194304) (va.toNat % 4194304 / 4096) = Page.number va := by
  apply BitVec.eq_of_toNat_eq
  rw [pageAt, BitVec.toNat_ofNat, Page.toNat_number]
  omega

theorem pageAt_injective {d t e u : Nat} (hd : d < 1024) (ht : t < 1024) (he : e < 1024)
    (hu : u < 1024) (same : pageAt d t = pageAt e u) : d = e ∧ t = u := by
  have numbers := congrArg BitVec.toNat same
  simp only [pageAt, BitVec.toNat_ofNat] at numbers
  omega

theorem Layout.sameDirectory_store (l : Layout) (m : Mem) {d t : Nat} (hd : d < 1024) (ht : t < 1024)
    (val : Word) : l.SameDirectory m (m.store32 (wordAt (l.tables d) t) val) :=
  fun _ he => load32_store32_aligned (wordAt_aligned (l.table_aligned d hd)) (wordAt_aligned l.pgd_aligned)
    (wordAt_ne_of_array (l.table_aligned d hd) l.pgd_aligned (l.pgd_ne_table d hd).symm ht he)

namespace Layout.Represents

variable {l : Layout} {m : Mem} {map : PageMap}

/-- Writing word `t` of table `d` sets one entry of the map. -/
theorem store (rep : l.Represents m map) {d t : Nat} (hd : d < 1024) (ht : t < 1024) (val : Word) :
    l.Represents (m.store32 (wordAt (l.tables d) t) val) (map.set (pageAt d t) val) where
  descriptor := by
    have apart : wordAt (l.tables d) t ≠ wordAt l.paging 0 :=
      wordAt_ne_of_array (l.table_aligned d hd) l.paging_aligned (l.paging_ne_table d hd).symm ht
        (by decide)
    have same := rep.descriptor
    rw [getPgd, ← wordAt_zero l.paging] at same ⊢
    rwa [load32_store32_aligned (wordAt_aligned (l.table_aligned d hd))
      (wordAt_aligned l.paging_aligned) apart]
  directory := by
    intro e he
    rw [l.sameDirectory_store m hd ht val e he]
    exact rep.directory e he
  entry := by
    intro e he u hu
    by_cases here : d = e ∧ t = u
    · obtain ⟨rfl, rfl⟩ := here
      rw [load32_store32_self, PageMap.set, Function.update_self]
    · have apart : wordAt (l.tables d) t ≠ wordAt (l.tables e) u := by
        by_cases table : d = e
        · subst table
          exact wordAt_ne_of_index ht hu (fun same => here ⟨rfl, same⟩)
        · exact wordAt_ne_of_array (l.table_aligned d hd) (l.table_aligned e he)
            (fun same => table (l.table_injective d hd e he same)) ht hu
      rw [load32_store32_aligned (wordAt_aligned (l.table_aligned d hd))
        (wordAt_aligned (l.table_aligned e he)) apart, rep.entry e he u hu, PageMap.set,
        Function.update_of_ne]
      exact fun same => here (pageAt_injective hd ht he hu same.symm)

theorem pagingSet (rep : l.Represents m map) {va : Word} (aligned : va.toNat % 4096 = 0)
    (val : Word) :
    ∃ m', Paging.pagingSet l.pgd va val m = (0, m') ∧
      l.Represents m' (map.set (Page.number va) val) ∧ l.SameDirectory m m' := by
  have hd : va.toNat / 4194304 < 1024 := by omega
  have ht : va.toNat % 4194304 / 4096 < 1024 := by omega
  refine ⟨_, ?_, pageAt_indexes va ▸ rep.store hd ht val, l.sameDirectory_store m hd ht val⟩
  simp only [Paging.pagingSet, pagingGetIndexes_aligned aligned, rep.directory _ hd]
  rw [if_neg (by simp [aligned])]

/-- The loop of `paging_map_range` walks through the pages in order. -/
theorem mapRangeLoop (prot : Word) : ∀ (n : Nat) (phys : Word) {va : Word} {m : Mem} {map : PageMap},
    l.Represents m map → va.toNat % 4096 = 0 →
      ∃ m', Paging.mapRangeLoop l.paging prot n va phys m = (0, m') ∧
        l.Represents m' (map.mapRange (Page.number va) phys prot n) ∧ l.SameDirectory m m' := by
  intro n
  induction n with
  | zero => exact fun _ _ _ _ rep _ => ⟨_, rfl, rep, fun _ _ => rfl⟩
  | succ n ih =>
      intro phys va m map rep aligned
      obtain ⟨m₁, set, rep₁, same₁⟩ := rep.pagingSet aligned (phys ||| prot)
      have nextPage : Page.number (va + BitVec.ofNat 32 pagingPageSize) = Page.number va + 1 := by
        apply BitVec.eq_of_toNat_eq
        rw [Page.toNat_number, pagingPageSize]
        have number := Page.toNat_number va
        bv_omega
      have nextAligned : (va + BitVec.ofNat 32 pagingPageSize).toNat % 4096 = 0 := by
        rw [pagingPageSize]
        bv_omega
      obtain ⟨m₂, loop, rep₂, same₂⟩ := ih (phys + BitVec.ofNat 32 pagingPageSize) rep₁ nextAligned
      refine ⟨m₂, ?_, ?_, fun d hd => (same₂ d hd).trans (same₁ d hd)⟩
      · rw [Paging.mapRangeLoop, rep.descriptor, set]
        exact loop
      · rw [nextPage] at rep₂
        rw [PageMap.mapRange_head]
        exact rep₂

end Layout.Represents

end ConiferOS.Paging

namespace ConiferOS

open Lib Lib.Run Paging Mem

/-- The C call on the page tables at `paging`, with its return code. -/
def PageCall.exec (paging : Word) (m : Mem) : PageCall → Int × Mem
  | .set virtAddr val => pagingSet (getPgd m paging) virtAddr val m
  | .mapRange virtAddr physAddr numPages pgProt =>
      pagingMapRange paging virtAddr physAddr numPages pgProt m
  | .createMapping virtAddr physAddr physEndAddr pgProt =>
      pagingCreateMapping paging virtAddr physAddr physEndAddr pgProt m

namespace Paging

variable {l : Layout} {m : Mem} {map : PageMap}

/-- Each call returns 0 exactly when it is accepted, and acts on the flat map. -/
theorem Layout.Represents.exec (rep : l.Represents m map) (call : PageCall) :
    ∃ m', call.exec l.paging m = (if call.Accepted then 0 else -einvarg, m') ∧
      l.Represents m' (call.apply map) ∧ l.SameDirectory m m' := by
  by_cases accepted : call.Accepted
  · rw [if_pos accepted, PageCall.apply, if_pos accepted]
    cases call with
    | set va val =>
        rw [PageCall.exec, rep.descriptor]
        exact rep.pagingSet accepted val
    | mapRange va phys n prot =>
        simp only [PageCall.exec, pagingMapRange]
        rw [if_neg (by simp [accepted.1, accepted.2])]
        exact Layout.Represents.mapRangeLoop prot n.toNat phys rep accepted.1
    | createMapping va phys physEnd prot =>
        obtain ⟨hv, hp, he, order⟩ := accepted
        have pages : (physEnd - phys).toNat / pagingPageSize =
            (physEnd.toNat - phys.toNat) / 4096 := by
          rw [pagingPageSize]
          bv_omega
        simp only [PageCall.exec, pagingCreateMapping, pagingMapRange, pages, Int.toNat_natCast]
        rw [if_neg (by simp [hv, hp, he]), if_neg (by omega), if_neg (by simp [hv, hp])]
        exact Layout.Represents.mapRangeLoop prot _ phys rep hv
  · rw [if_neg accepted, PageCall.apply, if_neg accepted]
    refine ⟨m, ?_, rep, fun _ _ => rfl⟩
    cases call with
    | set va val =>
        simp only [PageCall.exec, Paging.pagingSet]
        rw [if_pos (by simpa [PageCall.Accepted] using accepted)]
    | mapRange va phys n prot =>
        simp only [PageCall.exec, pagingMapRange]
        rw [if_pos (by simpa [PageCall.Accepted, imp_iff_not_or] using accepted)]
    | createMapping va phys physEnd prot =>
        simp only [PageCall.exec, pagingCreateMapping]
        split
        · rfl
        · rename_i aligned
          simp only [Bool.or_eq_true, Bool.not_eq_true', not_or, Bool.not_eq_false,
            pagingIsAligned_iff] at aligned
          rw [if_pos]
          by_contra order
          exact accepted ⟨aligned.1.1, aligned.1.2, aligned.2, by omega⟩

theorem Layout.Represents.pagingGetPte (rep : l.Represents m map) {va : Word}
    (aligned : va.toNat % 4096 = 0) : Paging.pagingGetPte m l.pgd va = map (Page.number va) := by
  have hd : va.toNat / 4194304 < 1024 := by omega
  have ht : va.toNat % 4194304 / 4096 < 1024 := by omega
  simp only [Paging.pagingGetPte, pagingGetIndexes_aligned aligned, rep.directory _ hd]
  rw [rep.entry _ hd _ ht, pageAt_indexes]

theorem Layout.Represents.pagingGetPhysicalAddress (rep : l.Represents m map) (va : Word) :
    Paging.pagingGetPhysicalAddress m l.pgd va = map.translate va := by
  have lower := pagingAlignToLowerPage_eq va
  have page : Page.number (pagingAlignToLowerPage va) = Page.number va := by
    apply BitVec.eq_of_toNat_eq
    rw [Page.toNat_number, Page.toNat_number, lower]
    omega
  have offset : va - pagingAlignToLowerPage va = BitVec.ofNat 32 (va.toNat % 4096) := by bv_omega
  simp only [Paging.pagingGetPhysicalAddress, PageMap.translate, Page.frameMask]
  rw [rep.pagingGetPte (by omega), page, offset]

/-! ## Building the tables -/

section Init

variable {pte offset pgd : Word} {flags : BitVec 8} {kzalloc : Nat → Word}

theorem fillTable_other {x : Word} (ha : pte.toNat % 4096 = 0) (hx : x.toNat % 4 = 0)
    (apart : ∀ j < 1024, wordAt pte j ≠ x) :
    ∀ (remaining b : Nat) (m : Mem), b + remaining ≤ 1024 →
      (fillTable pte offset flags remaining b m).load32 x = m.load32 x := by
  intro remaining
  induction remaining with
  | zero => exact fun _ _ _ => rfl
  | succ remaining ih =>
      intro b m bound
      rw [fillTable, ih (b + 1) _ (by omega),
        load32_store32_aligned (wordAt_aligned ha) hx (apart b (by omega))]

theorem fillTable_below (ha : pte.toNat % 4096 = 0) {t : Nat} :
    ∀ (remaining b : Nat) (m : Mem), t < b → b + remaining ≤ 1024 →
      (fillTable pte offset flags remaining b m).load32 (wordAt pte t) =
        m.load32 (wordAt pte t) := by
  intro remaining
  induction remaining with
  | zero => exact fun _ _ _ _ => rfl
  | succ remaining ih =>
      intro b m below bound
      rw [fillTable, ih (b + 1) _ (by omega) (by omega), load32_store32_aligned (wordAt_aligned ha)
        (wordAt_aligned ha) (wordAt_ne_of_index (by omega) (by omega) (by omega))]

theorem fillTable_entry (ha : pte.toNat % 4096 = 0) {t : Nat} :
    ∀ (remaining b : Nat) (m : Mem), b + remaining = 1024 → b ≤ t → t < 1024 →
      (fillTable pte offset flags remaining b m).load32 (wordAt pte t) =
        (offset + BitVec.ofNat 32 (t * 4096)) ||| flags.setWidth 32 := by
  intro remaining
  induction remaining with
  | zero => intro b m bound lower upper; omega
  | succ remaining ih =>
      intro b m bound lower upper
      rw [fillTable]
      obtain rfl | later : b = t ∨ b + 1 ≤ t := by omega
      · rw [fillTable_below ha remaining (b + 1) _ (by omega) (by omega), load32_store32_self]
        rfl
      · exact ih (b + 1) _ (by omega) later upper

/-- What `kzalloc` is relied on for: its blocks are page aligned and no two share a
    byte. Every block but the last holds 1024 words. -/
structure DisjointBlocks (kzalloc : Nat → Word) : Prop where
  aligned : ∀ k ≤ 1025, (kzalloc k).toNat % 4096 = 0
  disjoint : ∀ j ≤ 1025, ∀ k ≤ 1025, j ≠ k →
    ∀ x < (if j = 1025 then 4 else 4096), ∀ y < (if k = 1025 then 4 else 4096),
      kzalloc j + BitVec.ofNat 32 x ≠ kzalloc k + BitVec.ofNat 32 y

theorem DisjointBlocks.ne (blocks : DisjointBlocks kzalloc) {j k : Nat} (hj : j ≤ 1025)
    (hk : k ≤ 1025) (distinct : j ≠ k) : kzalloc j ≠ kzalloc k := by
  have first := blocks.disjoint j hj k hk distinct 0 (by split <;> decide) 0 (by split <;> decide)
  simpa using first

/-- The layout `init_page_tables` builds. -/
def DisjointBlocks.layout (blocks : DisjointBlocks kzalloc) : Layout where
  paging := kzalloc 1025
  pgd := kzalloc 0
  tables := fun d => kzalloc (d + 1)
  paging_aligned := blocks.aligned 1025 le_rfl
  pgd_aligned := blocks.aligned 0 (by decide)
  table_aligned := fun d hd => blocks.aligned (d + 1) (by omega)
  paging_ne_pgd := blocks.ne le_rfl (by decide) (by decide)
  paging_ne_table := fun d hd => blocks.ne le_rfl (by omega) (by omega)
  pgd_ne_table := fun d hd => blocks.ne (by decide) (by omega) (by omega)
  table_injective := fun d hd e he same => by
    by_contra distinct
    exact blocks.ne (by omega) (by omega) (by omega) same

/-- Iterations from `i` on leave every word alone that is neither in a later table
    nor in the directory from index `i` on. -/
theorem fillDirectory_other (blocks : DisjointBlocks kzalloc) {array : Word} {j : Nat}
    (aligned : array.toNat % 4096 = 0) (hj : j < 1024) :
    ∀ (remaining i : Nat) (offset : Word) (m : Mem), i + remaining = 1024 →
      (∀ d, i ≤ d → d < 1024 → kzalloc (d + 1) ≠ array) →
      (array = kzalloc 0 → j < i) →
      (fillDirectory kzalloc (kzalloc 0) flags remaining i offset m).load32 (wordAt array j) =
        m.load32 (wordAt array j) := by
  intro remaining
  induction remaining with
  | zero => exact fun _ _ _ _ _ _ => rfl
  | succ remaining ih =>
      intro i offset m bound tables directory
      have table := blocks.aligned (i + 1) (by omega)
      have here : kzalloc (i + 1) ≠ array := tables i le_rfl (by omega)
      have word : wordAt (kzalloc 0) i ≠ wordAt array j := by
        by_cases same : array = kzalloc 0
        · rw [same]
          exact wordAt_ne_of_index (by omega) hj (by have := directory same; omega)
        · exact wordAt_ne_of_array (blocks.aligned 0 (by decide)) aligned (Ne.symm same) (by omega) hj
      rw [fillDirectory, ih (i + 1) _ _ (by omega) (fun d lower => tables d (by omega))
          (fun same => by have := directory same; omega),
        load32_store32_aligned (wordAt_aligned (blocks.aligned 0 (by decide)))
          (wordAt_aligned aligned) word,
        fillTable_other table (wordAt_aligned aligned)
          (fun k hk => wordAt_ne_of_array table aligned here hk hj) _ _ _ (by decide),
        load32_wordAt_fill table aligned here hj (by decide)]

theorem directory_flags_lt (flags : BitVec 8) : (flags.setWidth 32 ||| pagingReadWrite).toNat < 4096 := by
  have bound : (flags.setWidth 32).toNat < 2 ^ 12 := by
    rw [BitVec.toNat_setWidth]
    omega
  rw [BitVec.toNat_or]
  exact Nat.or_lt_two_pow bound (by decide)

theorem directory_word (pte : Word) (flags : BitVec 8) (aligned : pte.toNat % 4096 = 0) :
    (pte ||| flags.setWidth 32 ||| pagingReadWrite) &&& pgdEntryTableAddr = pte := by
  rw [BitVec.or_assoc]
  exact Page.or_and_frameMask aligned (directory_flags_lt flags)

theorem fillDirectory_built (blocks : DisjointBlocks kzalloc) (flags : BitVec 8) {d : Nat} :
    ∀ (remaining i : Nat) (m : Mem), i + remaining = 1024 → i ≤ d → d < 1024 →
      let built := fillDirectory kzalloc (kzalloc 0) flags remaining i
        (BitVec.ofNat 32 (i * 4194304)) m
      built.load32 (wordAt (kzalloc 0) d) =
          kzalloc (d + 1) ||| flags.setWidth 32 ||| pagingReadWrite ∧
        ∀ t < 1024, built.load32 (wordAt (kzalloc (d + 1)) t) = PageMap.linear flags (pageAt d t) := by
  intro remaining
  induction remaining with
  | zero => intro i m bound lower upper; omega
  | succ remaining ih =>
      intro i m bound lower upper
      have next : BitVec.ofNat 32 (i * 4194304) +
          BitVec.ofNat 32 (pagingTableEntries * pagingPageSize) =
          BitVec.ofNat 32 ((i + 1) * 4194304) := by
        rw [pagingTableEntries, pagingPageSize]
        bv_omega
      rw [fillDirectory, next]
      obtain rfl | later : i = d ∨ i + 1 ≤ d := by omega
      · have table := blocks.aligned (i + 1) (by omega)
        have root := blocks.aligned 0 (by decide)
        have apart : kzalloc 0 ≠ kzalloc (i + 1) := blocks.ne (by decide) (by omega) (by omega)
        constructor
        · rw [fillDirectory_other blocks root upper _ _ _ _ (by omega)
            (fun d _ _ => blocks.ne (by omega) (by decide) (by omega)) (by omega),
            load32_store32_self]
        · intro t ht
          have frame : BitVec.ofNat 32 (i * 4194304) + BitVec.ofNat 32 (t * 4096) =
              Page.base (pageAt i t) := by
            apply BitVec.eq_of_toNat_eq
            rw [Page.toNat_base, pageAt, BitVec.toNat_ofNat, BitVec.toNat_add, BitVec.toNat_ofNat,
              BitVec.toNat_ofNat]
            omega
          rw [fillDirectory_other blocks table ht _ _ _ _ (by omega)
            (fun d _ _ => blocks.ne (by omega) (by omega) (by omega))
            (fun same => absurd same.symm apart),
            load32_store32_aligned (wordAt_aligned root) (wordAt_aligned table)
              (wordAt_ne_of_array root table apart upper ht),
            fillTable_entry table _ _ _ rfl (Nat.zero_le t) ht, frame, PageMap.linear]
      · exact ih (i + 1) _ (by omega) later upper

/-- The directory of fresh page tables. -/
theorem DisjointBlocks.directory (blocks : DisjointBlocks kzalloc) (flags : BitVec 8) (m : Mem) {d : Nat}
    (hd : d < 1024) :
    (initPageTables kzalloc flags m).2.load32 (wordAt (kzalloc 0) d) =
      kzalloc (d + 1) ||| flags.setWidth 32 ||| pagingReadWrite := by
  have apart : kzalloc 1025 ≠ kzalloc 0 := blocks.ne le_rfl (by decide) (by decide)
  have desc := blocks.aligned 1025 le_rfl
  have root := blocks.aligned 0 (by decide)
  have built := fillDirectory_built blocks flags 1024 0
    (m.fill (kzalloc 0) (4 * pagingDirEntries) 0) rfl (Nat.zero_le d) hd
  have word : wordAt (kzalloc 1025) 0 ≠ wordAt (kzalloc 0) d :=
    wordAt_ne_of_array desc root apart (by decide) hd
  rw [wordAt_zero] at word
  change (store32 (fill _ (kzalloc 1025) 4 0) (kzalloc 1025) (kzalloc 0)).load32
    (wordAt (kzalloc 0) d) = _
  rw [load32_store32_aligned (by omega) (wordAt_aligned root) word,
    load32_wordAt_fill desc root apart hd (by decide)]
  exact built.1

/-- Fresh page tables represent the linear map. -/
theorem DisjointBlocks.represents (blocks : DisjointBlocks kzalloc) (flags : BitVec 8) (m : Mem) :
    (initPageTables kzalloc flags m).1 = blocks.layout.paging ∧
      blocks.layout.Represents (initPageTables kzalloc flags m).2 (PageMap.linear flags) := by
  refine ⟨rfl, ?_, ?_, ?_⟩
  · exact load32_store32_self _ _ _
  · intro d hd
    change (initPageTables kzalloc flags m).2.load32 (wordAt (kzalloc 0) d) &&& pgdEntryTableAddr =
      kzalloc (d + 1)
    rw [blocks.directory flags m hd]
    exact directory_word _ flags (blocks.aligned (d + 1) (by omega))
  · intro d hd t ht
    have apart : kzalloc 1025 ≠ kzalloc (d + 1) := blocks.ne le_rfl (by omega) (by omega)
    have desc := blocks.aligned 1025 le_rfl
    have table := blocks.aligned (d + 1) (by omega)
    have built := fillDirectory_built blocks flags 1024 0
      (m.fill (kzalloc 0) (4 * pagingDirEntries) 0) rfl (Nat.zero_le d) hd
    have word : wordAt (kzalloc 1025) 0 ≠ wordAt (kzalloc (d + 1)) t :=
      wordAt_ne_of_array desc table apart (by decide) ht
    rw [wordAt_zero] at word
    change (store32 (fill _ (kzalloc 1025) 4 0) (kzalloc 1025) (kzalloc 0)).load32
      (wordAt (kzalloc (d + 1)) t) = _
    rw [load32_store32_aligned (by omega) (wordAt_aligned table) word,
      load32_wordAt_fill desc table apart ht (by decide)]
    exact built.2 t ht

end Init

/-- After any run of calls on fresh tables, lookups read the flat map, and the next
    call returns 0 exactly when the flat map accepts it. -/
theorem page_tables_refine_map {kzalloc : Nat → Word} (blocks : DisjointBlocks kzalloc)
    (flags : BitVec 8) (m : Mem) (calls : List PageCall) :
    let paging := (initPageTables kzalloc flags m).1
    let mem := final (fun mem call => (call.exec paging mem).2)
      (initPageTables kzalloc flags m).2 calls
    let map := final PageCall.apply (PageMap.linear flags) calls
    (∀ va : Word, va.toNat % 4096 = 0 →
      pagingGetPte mem (getPgd mem paging) va = map (Page.number va)) ∧
    (∀ va, pagingGetPhysicalAddress mem (getPgd mem paging) va = map.translate va) ∧
    ∀ call : PageCall, (call.exec paging mem).1 = if call.Accepted then 0 else -einvarg := by
  intro paging mem map
  obtain ⟨descriptor, fresh⟩ := blocks.represents flags m
  have rep : blocks.layout.Represents mem map := by
    refine final_related blocks.layout.Represents (fun before map call rep => ?_) fresh
    obtain ⟨after, exec, rep, -⟩ := rep.exec call
    simpa only [paging, descriptor, exec] using rep
  have root : getPgd mem paging = blocks.layout.pgd := rep.descriptor
  refine ⟨fun va aligned => ?_, fun va => ?_, fun call => ?_⟩
  · rw [root, rep.pagingGetPte aligned]
  · rw [root, rep.pagingGetPhysicalAddress]
  · obtain ⟨after, exec, -⟩ := rep.exec call
    simp only [paging, descriptor, exec]

/-- Page frames in ascending order. -/
def ascendingBlocks (k : Nat) : Word := BitVec.ofNat 32 ((k + 1) * 4096)

theorem ascendingBlocks_disjoint : DisjointBlocks ascendingBlocks where
  aligned := fun k hk => by
    unfold ascendingBlocks
    bv_omega
  disjoint := fun j hj k hk distinct x hx y hy => by
    have hx : x < 4096 := by split at hx <;> omega
    have hy : y < 4096 := by split at hy <;> omega
    unfold ascendingBlocks
    bv_omega

theorem page_tables_refine_map_two_pages :
    let calls : List PageCall := [.createMapping 0x400000 0x1000000 0x1002000 7, .set 0x400001 0]
    let paging := (initPageTables ascendingBlocks 5 fun _ => 0).1
    let mem := final (fun mem (call : PageCall) => (call.exec paging mem).2)
      (initPageTables ascendingBlocks 5 fun _ => 0).2 calls
    pagingGetPhysicalAddress mem (getPgd mem paging) 0x401234 = 0x1001234 := by
  intro calls paging mem
  have lookup : pagingGetPhysicalAddress mem (getPgd mem paging) 0x401234 =
      (final PageCall.apply (PageMap.linear 5) calls).translate 0x401234 :=
    (page_tables_refine_map ascendingBlocks_disjoint 5 (fun _ => 0) calls).2.1 0x401234
  rw [lookup]
  decide

end ConiferOS.Paging
