import Mathlib

/-! # Compile-time configuration of the kernel

The constants of `config.h`, `status.h` and `paging.h` that the modelled
functions read. A machine word is 32 bits wide; C `int` values that the code only
counts with are `Int`, and are cut back to 32 bits where they can overflow.
-/

namespace ConiferOS

/-- A 32-bit word: `uint32_t`, `size_t`, and every pointer of the kernel. -/
abbrev Word := BitVec 32

abbrev Byte := BitVec 8

/-- A C `int` after an operation that can overflow. -/
def int32 (x : Int) : Int := x.bmod (2 ^ 32)

theorem int32_of_mem {x : Int} (lower : -2 ^ 31 ≤ x) (upper : x < 2 ^ 31) : int32 x = x :=
  Int.bmod_eq_of_le (by omega) (by omega)

theorem int32_mem (x : Int) : -2 ^ 31 ≤ int32 x ∧ int32 x < 2 ^ 31 := by
  have lower := Int.le_bmod (x := x) (m := 2 ^ 32) (by decide)
  have upper := Int.bmod_lt (x := x) (m := 2 ^ 32) (by decide)
  unfold int32
  omega

/-! ## `status.h` -/

def eio : Int := 1
def einvarg : Int := 2
def enomem : Int := 3
def ebadpath : Int := 4
def efsnotus : Int := 5
def erdonly : Int := 6
def eunimp : Int := 7
def eistaken : Int := 8
def eiformat : Int := 9

/-! ## `config.h` -/

def kernelHeapSize : Nat := 104857600
def heapBlockSize : Nat := 4096
def kernelHeapAddress : Word := 0x01000000
def kernelHeapTableAddr : Word := 0x00007E00
def kernelStackAddr : Word := 0x600000
def taskLoadVirtualAddress : Word := 0x400000
def taskStackSize : Nat := 1024 * 16
def taskStackVirtAddr : Word := 0x3FF000
def taskStackVirtAddrEnd : Word := taskStackVirtAddr - BitVec.ofNat 32 taskStackSize
def commandLineArgVirtualAddr : Word := 0x02000000
def maxCmmdArgLen : Nat := 32
def maxNumArgs : Nat := 5
def maxFilePathChars : Nat := 128
def maxOpenFiles : Nat := 512
def maxProcesses : Nat := 12
def processMaxAllocations : Nat := 1024

/-! ## `paging.h` -/

def pagingUserSupervisor : Word := 0b00000100
def pagingReadWrite : Word := 0b00000010
def pagingPresent : Word := 0b00000001
def pgdEntryTableAddr : Word := 0xfffff000
def pagingTableEntries : Nat := 1024
def pagingDirEntries : Nat := 1024
def pagingPageSize : Nat := 4096

/-! ## `linker.ld` -/

/-- The kernel image starts at 1 MB. -/
def kernelImageAddr : Nat := 0x100000

end ConiferOS
