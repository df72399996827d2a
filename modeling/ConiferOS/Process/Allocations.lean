import ConiferOS.Memory.KernelHeap
import ConiferOS.Memory.PageMap
import ConiferOS.Memory.Paging

/-! # Memory of a process

The `malloc` and `free` system calls of `process.c` on the kernel heap. Page tables are
flat maps here, which is what the two-level tables come to. An allocation that makes the
kernel write over its own image, by the marks of its blocks or by clearing its memory,
has no result.
-/

namespace ConiferOS.Process

open Heap Paging

structure MemAllocation where
  ptr : Word
  size : Word
  deriving DecidableEq

/-- The fields of `struct process` and of its task that allocations change. -/
structure ProcessMem where
  memAllocs : Nat → MemAllocation
  pages : PageMap

def processGetFreeMemoryAllocationSlot (process : ProcessMem) : Option Nat :=
  (List.range processMaxAllocations).find? fun i => (process.memAllocs i).ptr = 0

def ProcessMem.setAllocation (process : ProcessMem) (i : Nat) (allocation : MemAllocation) :
    ProcessMem :=
  { process with memAllocs := Function.update process.memAllocs i allocation }

def processMallocSyscallHandler (heap : HeapDesc) (process : ProcessMem) (size : Word) :
    Option (Word × HeapDesc × ProcessMem) :=
  match kzalloc heap size with
  | none => none
  | some (ptr, heap) =>
      if ptr = 0 then some (0, kfree heap ptr, process)
      else match processGetFreeMemoryAllocationSlot process with
        | none => some (0, kfree heap ptr, process)
        | some index =>
            let mapping := process.pages.createMapping ptr ptr (pagingAlignAddress (ptr + size))
              (pagingPresent ||| pagingUserSupervisor ||| pagingReadWrite)
            let process := { process with pages := mapping.2 }
            if mapping.1 < 0 then some (0, kfree heap ptr, process)
            else some (ptr, heap, process.setAllocation index ⟨ptr, size⟩)

def getProcessAllocation (process : ProcessMem) (addr : Word) : Option Nat :=
  (List.range processMaxAllocations).find? fun i => (process.memAllocs i).ptr = addr

/-- A slot that is not in use has address 0, so `free(0)` finds one. -/
def processFreeSyscallHandler (heap : HeapDesc) (process : ProcessMem) (ptr : Word) :
    HeapDesc × ProcessMem :=
  match getProcessAllocation process ptr with
  | none => (heap, process)
  | some index =>
      let allocation := process.memAllocs index
      let mapping := process.pages.createMapping allocation.ptr allocation.ptr
        (pagingAlignAddress (allocation.ptr + allocation.size))
        (pagingUserSupervisor ||| pagingPresent)
      let process := { process with pages := mapping.2 }
      if mapping.1 < 0 then (heap, process)
      else (kfree heap ptr, process.setAllocation index ⟨0, 0⟩)

variable {heap : HeapDesc} {process : ProcessMem}

theorem processGetFreeMemoryAllocationSlot_eq_some {index : Nat}
    (found : processGetFreeMemoryAllocationSlot process = some index) :
    index < processMaxAllocations ∧ (process.memAllocs index).ptr = 0 := by
  obtain ⟨null, member, -⟩ := List.find?_range_eq_some.mp found
  exact ⟨List.mem_range.mp member, of_decide_eq_true null⟩

theorem processGetFreeMemoryAllocationSlot_eq_none :
    processGetFreeMemoryAllocationSlot process = none ↔
      ∀ i < processMaxAllocations, (process.memAllocs i).ptr ≠ 0 := by
  simp [processGetFreeMemoryAllocationSlot]

theorem processGetFreeMemoryAllocationSlot_eq_zero (free : (process.memAllocs 0).ptr = 0) :
    processGetFreeMemoryAllocationSlot process = some 0 :=
  List.find?_range_eq_some.mpr ⟨decide_eq_true free, List.mem_range.mpr (by decide), by simp⟩

theorem getProcessAllocation_eq_some {ptr : Word} {index : Nat}
    (found : getProcessAllocation process ptr = some index) :
    index < processMaxAllocations ∧ (process.memAllocs index).ptr = ptr := by
  obtain ⟨here, member, -⟩ := List.find?_range_eq_some.mp found
  exact ⟨List.mem_range.mp member, of_decide_eq_true here⟩

/-- `malloc` takes the allocation back, or maps it and records it in a free slot. -/
theorem processMallocSyscallHandler_cases (process : ProcessMem) {size : Word}
    (contained : KzallocContained heap size) :
    processMallocSyscallHandler heap process size =
        some (0, kfree (heapMalloc heap size).2 (heapMalloc heap size).1, process) ∨
      ∃ index,
        let ptr := (heapMalloc heap size).1
        let mapping := process.pages.createMapping ptr ptr (pagingAlignAddress (ptr + size))
          (pagingPresent ||| pagingUserSupervisor ||| pagingReadWrite)
        processGetFreeMemoryAllocationSlot process = some index ∧ ptr ≠ 0 ∧ 0 ≤ mapping.1 ∧
          processMallocSyscallHandler heap process size =
            some (ptr, (heapMalloc heap size).2,
              ({ process with pages := mapping.2 } : ProcessMem).setAllocation index ⟨ptr, size⟩) := by
  simp only [processMallocSyscallHandler, kzalloc, if_pos contained]
  split
  case isTrue => exact .inl rfl
  case isFalse nonnull =>
    cases slot : processGetFreeMemoryAllocationSlot process with
    | none => exact .inl rfl
    | some index =>
        simp only
        split
        case isTrue failed =>
          rw [PageMap.createMapping_failed failed]
          exact .inl rfl
        case isFalse mapped => exact .inr ⟨index, rfl, nonnull, not_lt.mp mapped, rfl⟩

/-- `free` does nothing, or remaps a slot's allocation read-only and empties the slot. -/
theorem processFreeSyscallHandler_cases (heap : HeapDesc) (process : ProcessMem) (ptr : Word) :
    processFreeSyscallHandler heap process ptr = (heap, process) ∨
      ∃ index < processMaxAllocations,
        let allocation := process.memAllocs index
        let mapping := process.pages.createMapping ptr ptr
          (pagingAlignAddress (ptr + allocation.size)) (pagingUserSupervisor ||| pagingPresent)
        allocation.ptr = ptr ∧ 0 ≤ mapping.1 ∧
          processFreeSyscallHandler heap process ptr =
            (kfree heap ptr,
              ({ process with pages := mapping.2 } : ProcessMem).setAllocation index ⟨0, 0⟩) := by
  unfold processFreeSyscallHandler
  cases slot : getProcessAllocation process ptr with
  | none => exact .inl rfl
  | some index =>
      obtain ⟨bound, same⟩ := getProcessAllocation_eq_some slot
      simp only [same]
      split
      case isTrue failed =>
        rw [PageMap.createMapping_failed failed]
        exact .inl rfl
      case isFalse mapped => exact .inr ⟨index, bound, same, not_lt.mp mapped, rfl⟩

end ConiferOS.Process
