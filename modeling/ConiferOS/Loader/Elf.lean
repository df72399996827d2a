import ConiferOS.Config
import ConiferOS.Lib.ByteMemory

/-! # ELF files

`elf_file.c` on a file that stands in memory: which files are accepted, and where the
program header table is. Headers are read from memory at the offsets of the packed
structures of `elf.h`.
-/

namespace ConiferOS.Loader

open Lib

def ptLoad : Word := 1
def pfW : Word := 0x02
def etExec : BitVec 16 := 2
def elfClassNone : Byte := 0
def elfClass32 : Byte := 1
def elfDataNone : Byte := 0
def elfData2Lsb : Byte := 1

/-- `sizeof(struct elf32_ehdr)` and `sizeof(struct elf32_phdr)`. -/
def sizeofEhdr : Nat := 52
def sizeofPhdr : Nat := 32

/-- The fields of `struct elf32_phdr` that the loader reads. -/
structure Phdr where
  pType : Word
  pOffset : Word
  pVaddr : Word
  pFilesz : Word
  pMemsz : Word
  pFlags : Word
  deriving DecidableEq

structure ElfFile where
  elfFileBuffer : Word
  elfVirtualAddrBase : Word
  elfVirtualAddrEnd : Word
  elfPhysAddrBase : Word
  elfPhysAddrEnd : Word

/-! ## Fields of the ELF header -/

def eIdent (m : Mem) (header : Word) (i : Nat) : Byte := m (header + BitVec.ofNat 32 i)
def eType (m : Mem) (header : Word) : BitVec 16 := m.load16 (header + 16)
def ePhoff (m : Mem) (header : Word) : Word := m.load32 (header + 28)
def ePhentsize (m : Mem) (header : Word) : BitVec 16 := m.load16 (header + 42)
def ePhnum (m : Mem) (header : Word) : BitVec 16 := m.load16 (header + 44)

def elfSignature : List Byte := [0x7F, 0x45, 0x4C, 0x46]

def elfValidSignature (m : Mem) (buffer : Word) : Bool :=
  (List.range elfSignature.length).map (eIdent m buffer) == elfSignature

def elfValidClass (m : Mem) (header : Word) : Bool :=
  eIdent m header 4 == elfClassNone || eIdent m header 4 == elfClass32

def elfValidEncoding (m : Mem) (header : Word) : Bool :=
  eIdent m header 5 == elfDataNone || eIdent m header 5 == elfData2Lsb

def elfIsExecutable (m : Mem) (header : Word) : Bool := eType m header == etExec

def elfHasProgramHeaderTable (m : Mem) (header : Word) : Bool := ePhoff m header != 0

def validElfFile (m : Mem) (header : Word) : Bool :=
  elfValidSignature m header && elfValidClass m header && elfValidEncoding m header &&
    elfIsExecutable m header && elfHasProgramHeaderTable m header

/-! ## Program headers -/

def elfGetPhdrTable (m : Mem) (header : Word) : Word :=
  if elfHasProgramHeaderTable m header then header + ePhoff m header else 0

/-- The structure at an address. -/
def phdrAt (m : Mem) (addr : Word) : Phdr where
  pType := m.load32 addr
  pOffset := m.load32 (addr + 4)
  pVaddr := m.load32 (addr + 8)
  pFilesz := m.load32 (addr + 16)
  pMemsz := m.load32 (addr + 20)
  pFlags := m.load32 (addr + 24)

def elfGetPhdr (m : Mem) (header : Word) (index : Nat) : Phdr :=
  phdrAt m (elfGetPhdrTable m header + BitVec.ofNat 32 (sizeofPhdr * index))

/-- The `e_phnum` entries of the table. -/
def elfPhdrs (m : Mem) (header : Word) : List Phdr :=
  (List.range (ePhnum m header).toNat).map (elfGetPhdr m header)

def elfFileGetSegmentPhysAddr (elfFile : ElfFile) (phdr : Phdr) : Word :=
  elfFile.elfFileBuffer + phdr.pOffset

/-! ## Accepting a file -/

def elfProcessPheaderPtLoad (elfFile : ElfFile) (phdr : Phdr) : Int × ElfFile :=
  if phdr.pType ≠ ptLoad then (-einvarg, elfFile)
  else
    let elfFile :=
      if phdr.pVaddr ≤ elfFile.elfVirtualAddrBase ∨ elfFile.elfVirtualAddrBase = 0 then
        { elfFile with
          elfVirtualAddrBase := phdr.pVaddr
          elfPhysAddrBase := elfFile.elfFileBuffer + phdr.pOffset }
      else elfFile
    let endVirtAddr := phdr.pVaddr + phdr.pFilesz
    let elfFile :=
      if elfFile.elfVirtualAddrEnd ≤ endVirtAddr ∨ elfFile.elfVirtualAddrEnd = 0 then
        { elfFile with
          elfVirtualAddrEnd := endVirtAddr
          elfPhysAddrEnd := elfFile.elfFileBuffer + phdr.pOffset + phdr.pFilesz }
      else elfFile
    (0, elfFile)

def elfProcessPheader (elfFile : ElfFile) (phdr : Phdr) : Int × ElfFile :=
  if phdr.pType = ptLoad then elfProcessPheaderPtLoad elfFile phdr else (0, elfFile)

/-- The loop of `elf_process_pheaders`. Every iteration looks at the first header of the
    table, and an error is only printed. -/
def processPheadersLoop (phdr : Phdr) : (remaining : Nat) → ElfFile → ElfFile
  | 0, elfFile => elfFile
  | remaining + 1, elfFile => processPheadersLoop phdr remaining (elfProcessPheader elfFile phdr).2

def elfProcessPheaders (m : Mem) (elfFile : ElfFile) : Int × ElfFile :=
  let ehdr := elfFile.elfFileBuffer
  (0, processPheadersLoop (phdrAt m (elfGetPhdrTable m ehdr)) (ePhnum m ehdr).toNat elfFile)

def processElfFile (m : Mem) (elfFile : ElfFile) : Int × ElfFile :=
  if elfFile.elfFileBuffer = 0 then (-einvarg, elfFile)
  else if !validElfFile m elfFile.elfFileBuffer then (-eiformat, elfFile)
  else elfProcessPheaders m elfFile

/-! ## What acceptance leaves -/

@[simp] theorem elfProcessPheader_buffer (elfFile : ElfFile) (phdr : Phdr) :
    (elfProcessPheader elfFile phdr).2.elfFileBuffer = elfFile.elfFileBuffer := by
  simp only [elfProcessPheader, elfProcessPheaderPtLoad]
  grind

@[simp] theorem processPheadersLoop_buffer (phdr : Phdr) (remaining : Nat) (elfFile : ElfFile) :
    (processPheadersLoop phdr remaining elfFile).elfFileBuffer = elfFile.elfFileBuffer := by
  induction remaining generalizing elfFile with
  | zero => rfl
  | succ remaining ih => rw [processPheadersLoop, ih, elfProcessPheader_buffer]

theorem processElfFile_buffer (m : Mem) (elfFile : ElfFile) :
    (processElfFile m elfFile).2.elfFileBuffer = elfFile.elfFileBuffer := by
  unfold processElfFile elfProcessPheaders
  grind [processPheadersLoop_buffer]

theorem processElfFile_eq_zero_iff (m : Mem) (elfFile : ElfFile) :
    (processElfFile m elfFile).1 = 0 ↔
      elfFile.elfFileBuffer ≠ 0 ∧ validElfFile m elfFile.elfFileBuffer = true := by
  unfold processElfFile elfProcessPheaders
  grind [einvarg, eiformat]

theorem ePhoff_ne_zero {m : Mem} {header : Word} (valid : validElfFile m header = true) :
    ePhoff m header ≠ 0 := by
  simp only [validElfFile, elfHasProgramHeaderTable, Bool.and_eq_true, bne_iff_ne] at valid
  exact valid.2

end ConiferOS.Loader
