import ConiferOS.Config

/-! # The block heap

`heap.c`. A heap is a run of 4096-byte blocks described by one byte per block.
The C code indexes that byte array with plain `int`s and does not always stay
inside it, so `entries` is the whole of memory seen from `table->entries`:
`entries i` is the byte at `table->entries + i`, and the table proper is the
window `0 ≤ i < totalEntries`.
-/

namespace ConiferOS.Heap

/-- `hbte_t`: one heap block table entry. -/
abbrev Entry := BitVec 8

def entryFree : Entry := 0x00
def entryTaken : Entry := 0x01
def blockIsFirst : Entry := 0b01000000
def blockHasNext : Entry := 0b10000000

/-- `struct heap_entry_table`. -/
structure HeapEntryTable where
  entries : Int → Entry
  totalEntries : Nat

/-- `struct heap_desc`. -/
structure HeapDesc where
  table : HeapEntryTable
  startAddr : Word

/-- Write one byte of the table. -/
def HeapDesc.setEntry (heap : HeapDesc) (i : Int) (entry : Entry) : HeapDesc :=
  { heap with table := { heap.table with entries := Function.update heap.table.entries i entry } }

/-- Entry `i` of the heap's table. -/
def HeapDesc.entry (heap : HeapDesc) (i : Int) : Entry := heap.table.entries i

/-- `table->total_entries`. -/
def HeapDesc.total (heap : HeapDesc) : Nat := heap.table.totalEntries

def heapValidAlignment (ptr : Word) : Bool := ptr.toNat % heapBlockSize == 0

def heapValidTable (startAddr endAddr : Word) (table : HeapEntryTable) : Bool :=
  (endAddr - startAddr).toNat / heapBlockSize == table.totalEntries

/-- `memset(table->entries, HEAP_BLOCK_TABLE_ENTRY_FREE, total_entries)`. -/
def HeapEntryTable.clear (table : HeapEntryTable) : HeapEntryTable :=
  { table with entries := fun i =>
      if 0 ≤ i ∧ i < table.totalEntries then entryFree else table.entries i }

/-- Returns the status code and the descriptor as the call leaves it. -/
def heapCreate (heap : HeapDesc) (startAddr endAddr : Word) (table : HeapEntryTable) :
    Int × HeapDesc :=
  if !(heapValidAlignment startAddr && heapValidAlignment endAddr) then (-einvarg, heap)
  else if !heapValidTable startAddr endAddr table then (-einvarg, ⟨table, startAddr⟩)
  else (0, ⟨table.clear, startAddr⟩)

/-- 32-bit unsigned arithmetic: rounding up wraps for sizes above `2^32 - 4096`. -/
def alignUpperBlockBoundary (val : Word) : Word :=
  if val.toNat % heapBlockSize = 0 then val
  else val - BitVec.ofNat 32 (val.toNat % heapBlockSize) + BitVec.ofNat 32 heapBlockSize

def heapGetEntryType (entry : Entry) : Entry := entry &&& 0x0f

/-- The `for` loop of `heap_get_start_block_index`: `remaining` iterations are
    left, `i` is the entry looked at, `bs` and `bc` are the C locals. -/
def searchLoop (table : HeapEntryTable) (totalBlocks : Nat) :
    (remaining : Nat) → (i bs bc : Int) → Int
  | 0, _, bs, _ => bs
  | remaining + 1, i, bs, bc =>
      if heapGetEntryType (table.entries i) ≠ entryFree then
        searchLoop table totalBlocks remaining (i + 1) (-1) 0
      else
        let bs := if bs = -1 then i else bs
        if bc + 1 = totalBlocks then bs
        else searchLoop table totalBlocks remaining (i + 1) bs (bc + 1)

/-- Index of the start block, or `-ENOMEM`. A run that is cut off by the end of
    the table is returned as well, whatever its length. -/
def heapGetStartBlockIndex (heap : HeapDesc) (totalBlocks : Nat) : Int :=
  let bs := searchLoop heap.table totalBlocks heap.total 0 (-1) 0
  if bs = -1 then -enomem else bs

def heapBlockToAddress (heap : HeapDesc) (blockIndex : Int) : Word :=
  heap.startAddr + BitVec.ofInt 32 (blockIndex * heapBlockSize)

/-- The pointer difference is a signed 32-bit value and `/` truncates. -/
def heapAddressToBlock (heap : HeapDesc) (addr : Word) : Int :=
  (addr - heap.startAddr).toInt.tdiv heapBlockSize

/-- The `for` loop of `heap_mark_blocks_taken`: `entry` is the byte the next
    iteration writes, computed one iteration ahead. -/
def markTakenLoop (endBlockIndex : Int) :
    (remaining : Nat) → (i : Int) → Entry → HeapDesc → HeapDesc
  | 0, _, _, heap => heap
  | remaining + 1, i, entry, heap =>
      let next := if i ≠ endBlockIndex - 1 then entryTaken ||| blockHasNext else entryTaken
      markTakenLoop endBlockIndex remaining (i + 1) next (heap.setEntry i entry)

def heapMarkBlocksTaken (heap : HeapDesc) (startBlockIndex : Int) (totalBlocks : Nat) : HeapDesc :=
  let endBlockIndex := startBlockIndex + totalBlocks - 1
  let entry := entryTaken ||| blockIsFirst
  let entry := if totalBlocks > 1 then entry ||| blockHasNext else entry
  markTakenLoop endBlockIndex totalBlocks startBlockIndex entry heap

/-- The `for` loop of `heap_mark_blocks_free`. -/
def markFreeLoop : (remaining : Nat) → (i : Int) → HeapDesc → HeapDesc
  | 0, _, heap => heap
  | remaining + 1, i, heap =>
      let entry := heap.entry i
      let heap := heap.setEntry i entryFree
      if entry &&& blockHasNext = 0 then heap else markFreeLoop remaining (i + 1) heap

def heapMarkBlocksFree (heap : HeapDesc) (startBlockIndex : Int) : HeapDesc :=
  markFreeLoop (heap.total - startBlockIndex).toNat startBlockIndex heap

/-- A pointer of value 0 is `NULL`. -/
def heapMallocBlocks (heap : HeapDesc) (totalBlocks : Nat) : Word × HeapDesc :=
  let startBlock := heapGetStartBlockIndex heap totalBlocks
  if startBlock < 0 then (0, heap)
  else (heapBlockToAddress heap startBlock, heapMarkBlocksTaken heap startBlock totalBlocks)

/-- The number of blocks `heap_malloc` asks for. -/
def blocksFor (size : Word) : Nat := (alignUpperBlockBoundary size).toNat / heapBlockSize

def heapMalloc (heap : HeapDesc) (size : Word) : Word × HeapDesc :=
  heapMallocBlocks heap (blocksFor size)

def heapFree (heap : HeapDesc) (ptr : Word) : HeapDesc :=
  heapMarkBlocksFree heap (heapAddressToBlock heap ptr)

end ConiferOS.Heap
