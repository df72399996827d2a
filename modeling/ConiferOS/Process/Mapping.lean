import ConiferOS.Loader.Elf
import ConiferOS.Memory.PageMap
import ConiferOS.Memory.Paging

/-! # Mapping a process into its page tables

`process_map_task_memory` and what it maps: the stack, the block of command line
arguments, and the executable. Every program header of an ELF file is mapped, whatever
its type is.
-/

namespace ConiferOS.Process

open Lib Loader Paging

/-- The protection of a program header's pages. -/
def pflags (phdr : Phdr) : Word :=
  if phdr.pFlags &&& pfW ≠ 0 then pagingPresent ||| pagingUserSupervisor ||| pagingReadWrite
  else pagingPresent ||| pagingUserSupervisor

/-- One iteration of `process_map_task_elf`: the file stands at `buffer`. -/
def mapPhdr (buffer : Word) (pages : PageMap) (phdr : Phdr) : Int × PageMap :=
  let phdrPhysAddr := buffer + phdr.pOffset
  pages.createMapping (pagingAlignToLowerPage phdr.pVaddr) (pagingAlignToLowerPage phdrPhysAddr)
    (pagingAlignAddress (phdrPhysAddr + phdr.pMemsz)) (pflags phdr)

/-- The loop of `process_map_task_elf`; `rc` is the C local. -/
def mapPhdrs (buffer : Word) : List Phdr → (rc : Int) → PageMap → Int × PageMap
  | [], rc, pages => (rc, pages)
  | phdr :: phdrs, _, pages =>
      let mapping := mapPhdr buffer pages phdr
      if mapping.1 < 0 then mapping else mapPhdrs buffer phdrs mapping.1 mapping.2

def processMapTaskElf (m : Mem) (elfFile : ElfFile) (pages : PageMap) : Int × PageMap :=
  mapPhdrs elfFile.elfFileBuffer (elfPhdrs m elfFile.elfFileBuffer) 0 pages

/-- The flags of memory that a process may write. -/
def userWritable : Word := pagingPresent ||| pagingUserSupervisor ||| pagingReadWrite

def processMapTaskBinary (binaryExecutable size : Word) (pages : PageMap) : Int × PageMap :=
  pages.createMapping taskLoadVirtualAddress binaryExecutable
    (pagingAlignAddress (binaryExecutable + size)) userWritable

/-- A loaded executable: the buffer of an ELF file and the program headers that stand in
    it, or a plain binary. -/
inductive Executable where
  | elf (elfFileBuffer : Word) (phdrs : List Phdr)
  | binary (binaryExecutable size : Word)

/-- The size of a process's argument block: `MAX_NUM_ARGS` pointers and as many slots. -/
def lenArgBlock : Nat := maxCmmdArgLen * maxNumArgs + 4 * maxNumArgs

def processMapTaskMemory (stackAddr argBlock : Word) (executable : Executable) (pages : PageMap) :
    Int × PageMap :=
  let stack := pages.createMapping taskStackVirtAddrEnd stackAddr
    (pagingAlignAddress (stackAddr + BitVec.ofNat 32 taskStackSize)) userWritable
  if stack.1 < 0 then stack
  else
    let args := stack.2.createMapping commandLineArgVirtualAddr argBlock
      (pagingAlignAddress (argBlock + BitVec.ofNat 32 lenArgBlock)) userWritable
    if args.1 < 0 then args
    else
      match executable with
      | .elf elfFileBuffer phdrs => mapPhdrs elfFileBuffer phdrs 0 args.2
      | .binary binaryExecutable size => processMapTaskBinary binaryExecutable size args.2

/-! ## What a program header maps -/

/-- The number of pages that are mapped for a header. -/
def pageCount (buffer : Word) (phdr : Phdr) : Nat :=
  ((pagingAlignAddress (buffer + phdr.pOffset + phdr.pMemsz)).toNat -
    (pagingAlignToLowerPage (buffer + phdr.pOffset)).toNat) / 4096

def Maps (buffer : Word) (phdr : Phdr) (page : BitVec 20) : Prop :=
  (page - Page.number phdr.pVaddr).toNat < pageCount buffer phdr

instance (buffer : Word) (phdr : Phdr) (page : BitVec 20) : Decidable (Maps buffer phdr page) :=
  inferInstanceAs (Decidable (_ < _))

/-- The frame that a header's mapping gives a page. -/
def frame (buffer : Word) (phdr : Phdr) (page : BitVec 20) : Word :=
  pagingAlignToLowerPage (buffer + phdr.pOffset) +
    BitVec.ofNat 32 (4096 * (page - Page.number phdr.pVaddr).toNat)

/-- The last header of the table that maps a page. -/
def lastMapping (buffer : Word) (phdrs : List Phdr) (page : BitVec 20) : Option Phdr :=
  phdrs.reverse.find? fun phdr => Maps buffer phdr page

theorem number_pagingAlignToLowerPage (addr : Word) :
    Page.number (pagingAlignToLowerPage addr) = Page.number addr := by
  apply BitVec.eq_of_toNat_eq
  rw [Page.toNat_number, Page.toNat_number, pagingAlignToLowerPage_eq]
  omega

theorem pflags_lt (phdr : Phdr) : (pflags phdr).toNat < 4096 := by
  unfold pflags
  split <;> decide

theorem frame_aligned (buffer : Word) (phdr : Phdr) (page : BitVec 20) :
    (frame buffer phdr page).toNat % 4096 = 0 := by
  have lower := pagingAlignToLowerPage_eq (buffer + phdr.pOffset)
  simp only [frame, BitVec.toNat_add, BitVec.toNat_ofNat]
  omega

theorem mapPhdr_apply {buffer : Word} {pages : PageMap} {phdr : Phdr}
    (success : 0 ≤ (mapPhdr buffer pages phdr).1) (page : BitVec 20) :
    (mapPhdr buffer pages phdr).2 page =
      if Maps buffer phdr page then frame buffer phdr page ||| pflags phdr else pages page := by
  rw [mapPhdr, PageMap.createMapping_apply success, number_pagingAlignToLowerPage]
  rfl

theorem lastMapping_cons (buffer : Word) (phdr : Phdr) (phdrs : List Phdr) (page : BitVec 20) :
    lastMapping buffer (phdr :: phdrs) page =
      match lastMapping buffer phdrs page with
      | some later => some later
      | none => if Maps buffer phdr page then some phdr else none := by
  simp only [lastMapping, List.reverse_cons, List.find?_append]
  cases phdrs.reverse.find? fun phdr => Maps buffer phdr page with
  | some later => rfl
  | none => by_cases here : Maps buffer phdr page <;> simp [here]

/-- The last header that maps a page decides. -/
theorem mapPhdrs_apply {buffer : Word} (page : BitVec 20) :
    ∀ {phdrs : List Phdr} {rc : Int} {pages : PageMap}, 0 ≤ (mapPhdrs buffer phdrs rc pages).1 →
      (mapPhdrs buffer phdrs rc pages).2 page =
        match lastMapping buffer phdrs page with
        | some phdr => frame buffer phdr page ||| pflags phdr
        | none => pages page := by
  intro phdrs
  induction phdrs with
  | nil => exact fun _ => rfl
  | cons phdr phdrs ih =>
      intro rc pages success
      rw [mapPhdrs] at success ⊢
      split at success
      case isTrue failed => exact absurd success (not_le.mpr failed)
      case isFalse mapped =>
        rw [if_neg mapped, ih success, lastMapping_cons]
        cases lastMapping buffer phdrs page with
        | some later => rfl
        | none =>
            simp only [mapPhdr_apply (not_lt.mp mapped)]
            split <;> rfl

/-! ## What an executable maps -/

/-- The pages an executable is mapped to. -/
def Executable.Maps : Executable → BitVec 20 → Prop
  | .elf elfFileBuffer phdrs, page => ∃ phdr ∈ phdrs, Process.Maps elfFileBuffer phdr page
  | .binary binaryExecutable size, page =>
      (page - Page.number taskLoadVirtualAddress).toNat <
        ((pagingAlignAddress (binaryExecutable + size)).toNat - binaryExecutable.toNat) / 4096

theorem lastMapping_eq_none {buffer : Word} {phdrs : List Phdr} {page : BitVec 20}
    (unmapped : ∀ phdr ∈ phdrs, ¬ Maps buffer phdr page) : lastMapping buffer phdrs page = none := by
  refine List.find?_eq_none.mpr fun phdr member => ?_
  simpa using unmapped phdr (List.mem_reverse.mp member)

/-- The entry that an executable gives a page. -/
def Executable.entry (page : BitVec 20) : Executable → Option Word
  | .elf elfFileBuffer phdrs =>
      (lastMapping elfFileBuffer phdrs page).map fun phdr =>
        frame elfFileBuffer phdr page ||| pflags phdr
  | .binary binaryExecutable size =>
      if (page - Page.number taskLoadVirtualAddress).toNat <
          ((pagingAlignAddress (binaryExecutable + size)).toNat - binaryExecutable.toNat) / 4096
      then some ((binaryExecutable + BitVec.ofNat 32
        (4096 * (page - Page.number taskLoadVirtualAddress).toNat)) ||| userWritable)
      else none

theorem Executable.entry_eq_none {executable : Executable} {page : BitVec 20}
    (free : ¬ executable.Maps page) : executable.entry page = none := by
  cases executable with
  | elf buffer phdrs =>
      have none := lastMapping_eq_none fun phdr member maps => free ⟨phdr, member, maps⟩
      rw [entry, none, Option.map_none]
  | binary binaryExecutable size => exact if_neg free

/-- Page by page: the executable first, then the arguments, then the stack. -/
theorem processMapTaskMemory_page {stackAddr argBlock : Word} {executable : Executable}
    {pages : PageMap} (success : 0 ≤ (processMapTaskMemory stackAddr argBlock executable pages).1)
    (page : BitVec 20) :
    (processMapTaskMemory stackAddr argBlock executable pages).2 page =
      (executable.entry page).getD
        (if (page - Page.number commandLineArgVirtualAddr).toNat <
            ((pagingAlignAddress (argBlock + BitVec.ofNat 32 lenArgBlock)).toNat -
              argBlock.toNat) / 4096
        then (argBlock + BitVec.ofNat 32
          (4096 * (page - Page.number commandLineArgVirtualAddr).toNat)) ||| userWritable
        else if (page - Page.number taskStackVirtAddrEnd).toNat <
            ((pagingAlignAddress (stackAddr + BitVec.ofNat 32 taskStackSize)).toNat -
              stackAddr.toNat) / 4096
        then (stackAddr + BitVec.ofNat 32
          (4096 * (page - Page.number taskStackVirtAddrEnd).toNat)) ||| userWritable
        else pages page) := by
  simp only [processMapTaskMemory] at success ⊢
  split at success
  case isTrue failed => exact absurd success (not_le.mpr failed)
  case isFalse stack =>
    rw [if_neg stack]
    split at success
    case isTrue failed => exact absurd success (not_le.mpr failed)
    case isFalse args =>
      rw [if_neg args]
      have below := PageMap.createMapping_apply (not_lt.mp args) page
      rw [PageMap.createMapping_apply (not_lt.mp stack) page] at below
      rw [← below]
      cases executable with
      | elf buffer phdrs =>
          rw [mapPhdrs_apply page success, Executable.entry]
          cases lastMapping buffer phdrs page <;> rfl
      | binary binaryExecutable size =>
          simp only [processMapTaskBinary, Executable.entry]
          rw [PageMap.createMapping_apply success page]
          split <;> rfl

/-- The stack and the arguments keep the pages that the executable leaves alone. -/
theorem processMapTaskMemory_apply {stackAddr argBlock : Word} {executable : Executable}
    {pages : PageMap} (success : 0 ≤ (processMapTaskMemory stackAddr argBlock executable pages).1)
    {page : BitVec 20} (free : ¬ executable.Maps page) :
    (processMapTaskMemory stackAddr argBlock executable pages).2 page =
      if (page - Page.number commandLineArgVirtualAddr).toNat <
          ((pagingAlignAddress (argBlock + BitVec.ofNat 32 lenArgBlock)).toNat - argBlock.toNat) / 4096
      then (argBlock + BitVec.ofNat 32
        (4096 * (page - Page.number commandLineArgVirtualAddr).toNat)) ||| userWritable
      else if (page - Page.number taskStackVirtAddrEnd).toNat <
          ((pagingAlignAddress (stackAddr + BitVec.ofNat 32 taskStackSize)).toNat -
            stackAddr.toNat) / 4096
      then (stackAddr + BitVec.ofNat 32
        (4096 * (page - Page.number taskStackVirtAddrEnd).toNat)) ||| userWritable
      else pages page := by
  rw [processMapTaskMemory_page success, Executable.entry_eq_none free, Option.getD_none]

/-! ## When a mapping succeeds -/

/-- No mapped range of the executable wraps around. -/
def Executable.Mappable : Executable → Prop
  | .elf elfFileBuffer phdrs => ∀ phdr ∈ phdrs,
      (pagingAlignToLowerPage (elfFileBuffer + phdr.pOffset)).toNat ≤
        (pagingAlignAddress (elfFileBuffer + phdr.pOffset + phdr.pMemsz)).toNat
  | .binary binaryExecutable size =>
      binaryExecutable.toNat % 4096 = 0 ∧
        binaryExecutable.toNat ≤ (pagingAlignAddress (binaryExecutable + size)).toNat

theorem mapPhdr_rc {buffer : Word} (pages : PageMap) {phdr : Phdr}
    (fits : (pagingAlignToLowerPage (buffer + phdr.pOffset)).toNat ≤
      (pagingAlignAddress (buffer + phdr.pOffset + phdr.pMemsz)).toNat) :
    (mapPhdr buffer pages phdr).1 = 0 := by
  refine PageMap.createMapping_rc pages ⟨?_, ?_, pagingAlignAddress_aligned _, fits⟩
  all_goals
    rw [pagingAlignToLowerPage_eq]
    omega

theorem mapPhdrs_rc {buffer : Word} :
    ∀ {phdrs : List Phdr} {rc : Int} (pages : PageMap), 0 ≤ rc →
      (Executable.elf buffer phdrs).Mappable → 0 ≤ (mapPhdrs buffer phdrs rc pages).1 := by
  intro phdrs
  induction phdrs with
  | nil => exact fun _ nonneg _ => nonneg
  | cons phdr phdrs ih =>
      intro rc pages _ mappable
      have first := mapPhdr_rc pages (mappable phdr List.mem_cons_self)
      rw [mapPhdrs, first, if_neg (lt_irrefl 0)]
      exact ih _ le_rfl fun later member => mappable later (List.mem_cons_of_mem _ member)

/-- The range of `size` bytes at a block of memory can be mapped. -/
theorem accepted_range {virtAddr physAddr : Word} (prot : Word) {size : Nat}
    (virtAligned : virtAddr.toNat % 4096 = 0) (physAligned : physAddr.toNat % 4096 = 0)
    (fits : physAddr.toNat + size ≤ 2 ^ 32 - 4096) :
    (PageCall.createMapping virtAddr physAddr
      (pagingAlignAddress (physAddr + BitVec.ofNat 32 size)) prot).Accepted := by
  have sum : (physAddr + BitVec.ofNat 32 size).toNat = physAddr.toNat + size := by bv_omega
  refine ⟨virtAligned, physAligned, pagingAlignAddress_aligned _, ?_⟩
  rw [pagingAlignAddress_eq _ (by omega), sum]
  omega

theorem processMapTaskMemory_rc {stackAddr argBlock : Word} {executable : Executable}
    (pages : PageMap) (stack : stackAddr.toNat % 4096 = 0) (block : argBlock.toNat % 4096 = 0)
    (stackFits : stackAddr.toNat + taskStackSize ≤ 2 ^ 32 - 4096)
    (blockFits : argBlock.toNat + lenArgBlock ≤ 2 ^ 32 - 4096) (mappable : executable.Mappable) :
    0 ≤ (processMapTaskMemory stackAddr argBlock executable pages).1 := by
  have stackMapped := PageMap.createMapping_rc pages
    (accepted_range userWritable (by decide : taskStackVirtAddrEnd.toNat % 4096 = 0)
      stack stackFits)
  simp only [processMapTaskMemory, stackMapped, lt_irrefl, if_false]
  generalize (pages.createMapping taskStackVirtAddrEnd stackAddr _ userWritable).2 = withStack
  have blockMapped := PageMap.createMapping_rc withStack
    (accepted_range userWritable (by decide : commandLineArgVirtualAddr.toNat % 4096 = 0)
      block blockFits)
  simp only [blockMapped, lt_irrefl, if_false]
  cases executable with
  | elf buffer phdrs => exact mapPhdrs_rc _ le_rfl mappable
  | binary binaryExecutable size =>
      exact (PageMap.createMapping_rc _ ⟨by decide, mappable.1, pagingAlignAddress_aligned _,
        mappable.2⟩).ge

end ConiferOS.Process
