import ConiferOS.Config
import ConiferOS.Lib.ByteMemory
import ConiferOS.Lib.Page

/-! # Two-level page tables

`paging.c`, on byte memory: a directory of 1024 words points to page tables of
1024 words, and a directory word keeps flag bits below the page size. All pointer
and `uint32_t` arithmetic wraps at 32 bits, and so does the `int` accumulator of
`init_page_tables`, which passes `2^31` half way.
-/

namespace ConiferOS.Paging

open Lib

/-- The `i`-th `uint32_t` of an array. -/
def wordAt (array : Word) (i : Nat) : Word := array + BitVec.ofNat 32 (4 * i)

/-- `for (int b = 0; b < PAGING_TABLE_ENTRIES; b++)`. -/
def fillTable (pte offset : Word) (flags : BitVec 8) : (remaining b : Nat) → Mem → Mem
  | 0, _, m => m
  | remaining + 1, b, m =>
      let entry := (offset + BitVec.ofNat 32 (b * pagingPageSize)) ||| flags.setWidth 32
      fillTable pte offset flags remaining (b + 1) (m.store32 (wordAt pte b) entry)

/-- `for (int i = 0; i < PAGING_DIR_ENTRIES; i++)`. `kzalloc k` is the block the
    `k`-th allocation returns; the directory took block 0. -/
def fillDirectory (kzalloc : Nat → Word) (pgd : Word) (flags : BitVec 8) :
    (remaining i : Nat) → (offset : Word) → Mem → Mem
  | 0, _, _, m => m
  | remaining + 1, i, offset, m =>
      let pte := kzalloc (i + 1)
      let m := m.fill pte (4 * pagingTableEntries) 0
      let m := fillTable pte offset flags pagingTableEntries 0 m
      let m := m.store32 (wordAt pgd i) (pte ||| flags.setWidth 32 ||| pagingReadWrite)
      fillDirectory kzalloc pgd flags remaining (i + 1)
        (offset + BitVec.ofNat 32 (pagingTableEntries * pagingPageSize)) m

/-- Returns the `struct paging_desc` pointer and memory. -/
def initPageTables (kzalloc : Nat → Word) (flags : BitVec 8) (m : Mem) : Word × Mem :=
  let pgd := kzalloc 0
  let m := m.fill pgd (4 * pagingDirEntries) 0
  let m := fillDirectory kzalloc pgd flags pagingDirEntries 0 0 m
  let paging := kzalloc (pagingDirEntries + 1)
  let m := m.fill paging 4 0
  (paging, m.store32 paging pgd)

def getPgd (m : Mem) (paging : Word) : Word := m.load32 paging

def pagingIsAligned (addr : Word) : Bool := addr.toNat % pagingPageSize == 0

/-- Directory and table index, or the error code. -/
def pagingGetIndexes (virtualAddress : Word) : Except Int (Nat × Nat) :=
  if !pagingIsAligned virtualAddress then .error (-einvarg)
  else .ok (virtualAddress.toNat / (pagingTableEntries * pagingPageSize),
    virtualAddress.toNat % (pagingTableEntries * pagingPageSize) / pagingPageSize)

def pagingSet (pgd virtualAddress val : Word) (m : Mem) : Int × Mem :=
  if !pagingIsAligned virtualAddress then (-einvarg, m)
  else match pagingGetIndexes virtualAddress with
    | .error rc => (rc, m)
    | .ok (pgdIndex, tableIndex) =>
        let pgdEntry := m.load32 (wordAt pgd pgdIndex)
        let table := pgdEntry &&& pgdEntryTableAddr
        (0, m.store32 (wordAt table tableIndex) val)

/-- The `for` loop of `paging_map_range`, with `remaining` pages to go. -/
def mapRangeLoop (paging pgProt : Word) :
    (remaining : Nat) → (virtAddr physAddr : Word) → Mem → Int × Mem
  | 0, _, _, m => (0, m)
  | remaining + 1, virtAddr, physAddr, m =>
      let (rc, m) := pagingSet (getPgd m paging) virtAddr (physAddr ||| pgProt) m
      if rc < 0 then (rc, m)
      else mapRangeLoop paging pgProt remaining (virtAddr + BitVec.ofNat 32 pagingPageSize)
        (physAddr + BitVec.ofNat 32 pagingPageSize) m

def pagingMapRange (paging virtAddr physAddr : Word) (numPages : Int) (pgProt : Word) (m : Mem) :
    Int × Mem :=
  if !pagingIsAligned virtAddr || !pagingIsAligned physAddr then (-einvarg, m)
  else mapRangeLoop paging pgProt numPages.toNat virtAddr physAddr m

def pagingCreateMapping (paging virtAddr physAddr physEndAddr pgProt : Word) (m : Mem) :
    Int × Mem :=
  if !pagingIsAligned virtAddr || !pagingIsAligned physAddr || !pagingIsAligned physEndAddr then
    (-einvarg, m)
  else if physEndAddr.toNat < physAddr.toNat then (-einvarg, m)
  else
    let totalBytes := physEndAddr - physAddr
    pagingMapRange paging virtAddr physAddr (totalBytes.toNat / pagingPageSize : Nat) pgProt m

def pagingAlignAddress (addr : Word) : Word :=
  if pagingIsAligned addr then addr
  else addr + BitVec.ofNat 32 pagingPageSize - BitVec.ofNat 32 (addr.toNat % pagingPageSize)

def pagingAlignToLowerPage (addr : Word) : Word :=
  if pagingIsAligned addr then addr
  else addr - BitVec.ofNat 32 (addr.toNat % pagingPageSize)

/-- On an unaligned address the error code comes back as an entry. -/
def pagingGetPte (m : Mem) (taskPageDirectory virtAddr : Word) : Word :=
  match pagingGetIndexes virtAddr with
  | .error rc => BitVec.ofInt 32 rc
  | .ok (directoryIndex, tableIndex) =>
      let pageTable := m.load32 (wordAt taskPageDirectory directoryIndex) &&& pgdEntryTableAddr
      m.load32 (wordAt pageTable tableIndex)

def pagingGetPhysicalAddress (m : Mem) (taskPageDirectory virtAddr : Word) : Word :=
  let virtAddrAligned := pagingAlignToLowerPage virtAddr
  let difference := virtAddr - virtAddrAligned
  (pagingGetPte m taskPageDirectory virtAddrAligned &&& 0xfffff000) + difference

@[simp] theorem pagingIsAligned_iff (addr : Word) :
    pagingIsAligned addr = true ↔ addr.toNat % 4096 = 0 := by
  simp [pagingIsAligned, pagingPageSize]

@[simp] theorem pagingIsAligned_eq_false_iff (addr : Word) :
    pagingIsAligned addr = false ↔ addr.toNat % 4096 ≠ 0 := by
  simp [pagingIsAligned, pagingPageSize]

/-- Rounding up, as long as it does not wrap. -/
theorem pagingAlignAddress_eq (addr : Word) (fits : addr.toNat ≤ 2 ^ 32 - 4096) :
    (pagingAlignAddress addr).toNat = (addr.toNat + 4095) / 4096 * 4096 := by
  unfold pagingAlignAddress
  split
  · rename_i aligned
    rw [pagingIsAligned_iff] at aligned
    omega
  · rename_i unaligned
    rw [pagingIsAligned_iff] at unaligned
    unfold pagingPageSize
    bv_omega

theorem pagingAlignAddress_aligned (addr : Word) : (pagingAlignAddress addr).toNat % 4096 = 0 := by
  unfold pagingAlignAddress
  split
  · rename_i aligned
    exact (pagingIsAligned_iff addr).mp aligned
  · unfold pagingPageSize
    bv_omega

theorem pagingAlignToLowerPage_eq (addr : Word) :
    (pagingAlignToLowerPage addr).toNat = addr.toNat / 4096 * 4096 := by
  unfold pagingAlignToLowerPage
  split
  · rename_i aligned
    rw [pagingIsAligned_iff] at aligned
    omega
  · unfold pagingPageSize
    bv_omega

end ConiferOS.Paging
