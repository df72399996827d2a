import ConiferOS.Process.Mapping

/-! # Segments of an ELF executable

The file is mapped where it stands, so the bytes of a segment's file part come out right
whenever the segment's own header is the last one to map their page. Nothing clears the
bytes behind the file part: a program sees what follows in the buffer.
-/

namespace ConiferOS.Loader

open Lib Paging Process

/-- A file that has been read into a buffer of the kernel heap. -/
structure FileAt (m : Mem) (buffer : Word) (file : List Byte) : Prop where
  aligned : buffer.toNat % 4096 = 0
  fits : buffer.toNat + file.length ≤ 2 ^ 32
  bytes : ∀ i, ∀ inside : i < file.length, m (buffer + BitVec.ofNat 32 i) = file[i]

/-- The page numbers a segment has bytes on. -/
def OnPage (phdr : Phdr) (page : Nat) : Prop :=
  phdr.pVaddr.toNat / 4096 ≤ page ∧ page * 4096 < phdr.pVaddr.toNat + phdr.pMemsz.toNat

/-- What the ELF format asks of the header, the program header table and one segment. -/
structure WellFormedSegment (size : Nat) (phdr : Phdr) : Prop where
  contents : phdr.pOffset.toNat + phdr.pFilesz.toNat ≤ size
  congruent : phdr.pVaddr.toNat % 4096 = phdr.pOffset.toNat % 4096
  sizes : phdr.pFilesz.toNat ≤ phdr.pMemsz.toNat
  space : phdr.pVaddr.toNat + phdr.pMemsz.toNat ≤ 2 ^ 32

structure WellFormed (m : Mem) (buffer : Word) (size : Nat) : Prop where
  header : sizeofEhdr ≤ size
  entries : (ePhentsize m buffer).toNat = sizeofPhdr
  table : (ePhoff m buffer).toNat + sizeofPhdr * (ePhnum m buffer).toNat ≤ size
  segments : ∀ phdr ∈ elfPhdrs m buffer, phdr.pType = ptLoad → WellFormedSegment size phdr
  disjoint : (elfPhdrs m buffer).Pairwise fun g h =>
    g.pType = ptLoad → h.pType = ptLoad → ∀ page, ¬ (OnPage g page ∧ OnPage h page)

/-- Byte `k` of a segment: of the file, then zeroes. -/
def segmentByte (file : List Byte) (phdr : Phdr) (k : Nat) : Byte :=
  if k < phdr.pFilesz.toNat then file.getD (phdr.pOffset.toNat + k) 0 else 0

def segmentAddr (phdr : Phdr) (k : Nat) : Word := phdr.pVaddr + BitVec.ofNat 32 k

/-- Every byte of every loadable segment is found at its user address. -/
def SegmentsLoaded (m : Mem) (pages : PageMap) (file : List Byte) (phdrs : List Phdr) : Prop :=
  ∀ phdr ∈ phdrs, phdr.pType = ptLoad → ∀ k < phdr.pMemsz.toNat,
    m (pages.translate (segmentAddr phdr k)) = segmentByte file phdr k

/-- Where a user address leads when the last header that maps its page decides. -/
def shownAt (buffer : Word) (pages : PageMap) (phdrs : List Phdr) (va : Word) : Word :=
  match lastMapping buffer phdrs (Page.number va) with
  | some phdr => frame buffer phdr (Page.number va) + BitVec.ofNat 32 (va.toNat % 4096)
  | none => pages.translate va

/-- The bytes behind a segment's file part are zero in the buffer already, and where a
    page of a segment is mapped by another header last, that one shows the same bytes. -/
structure Faithful (m : Mem) (buffer : Word) (pages : PageMap) (file : List Byte)
    (phdrs : List Phdr) : Prop where
  cleared : ∀ phdr ∈ phdrs, phdr.pType = ptLoad → ∀ k, phdr.pFilesz.toNat ≤ k →
    k < phdr.pMemsz.toNat → lastMapping buffer phdrs (Page.number (segmentAddr phdr k)) = some phdr →
      m (buffer + phdr.pOffset + BitVec.ofNat 32 k) = 0
  remapped : ∀ phdr ∈ phdrs, phdr.pType = ptLoad → ∀ k < phdr.pMemsz.toNat,
    lastMapping buffer phdrs (Page.number (segmentAddr phdr k)) ≠ some phdr →
      m (shownAt buffer pages phdrs (segmentAddr phdr k)) = segmentByte file phdr k

/-! ## Translation -/

theorem translate_mapPhdrs {buffer : Word} {phdrs : List Phdr} {pages : PageMap}
    (success : 0 ≤ (mapPhdrs buffer phdrs 0 pages).1) (va : Word) :
    (mapPhdrs buffer phdrs 0 pages).2.translate va = shownAt buffer pages phdrs va := by
  rw [PageMap.translate, mapPhdrs_apply (Page.number va) success, shownAt]
  cases lastMapping buffer phdrs (Page.number va) with
  | some phdr =>
      simp only
      rw [Page.or_and_frameMask (frame_aligned buffer phdr _) (pflags_lt phdr)]
  | none => rfl

/-- A header's own mapping shows byte `k` of its segment. -/
theorem frame_segmentAddr {buffer : Word} {phdr : Phdr} {k : Nat}
    (aligned : buffer.toNat % 4096 = 0)
    (congruent : phdr.pVaddr.toNat % 4096 = phdr.pOffset.toNat % 4096)
    (space : phdr.pVaddr.toNat + k < 2 ^ 32) :
    frame buffer phdr (Page.number (segmentAddr phdr k)) +
        BitVec.ofNat 32 ((segmentAddr phdr k).toNat % 4096) =
      buffer + phdr.pOffset + BitVec.ofNat 32 k := by
  have va : (segmentAddr phdr k).toNat = phdr.pVaddr.toNat + k := by
    simp only [segmentAddr, BitVec.toNat_add, BitVec.toNat_ofNat]
    omega
  have distance : (Page.number (segmentAddr phdr k) - Page.number phdr.pVaddr).toNat =
      (phdr.pVaddr.toNat + k) / 4096 - phdr.pVaddr.toNat / 4096 := by
    rw [BitVec.toNat_sub_of_le]
    · rw [Page.toNat_number, Page.toNat_number, va]
    · rw [BitVec.le_def, Page.toNat_number, Page.toNat_number, va]
      omega
  have lower := pagingAlignToLowerPage_eq (buffer + phdr.pOffset)
  apply BitVec.eq_of_toNat_eq
  rw [frame, distance, va]
  simp only [BitVec.toNat_add, BitVec.toNat_ofNat] at lower ⊢
  omega

/-! ## Loading -/

/-- The file part of a segment comes out right wherever its own header is the last one. -/
theorem FileAt.segment_byte {m : Mem} {buffer : Word} {file : List Byte} {phdr : Phdr}
    (image : FileAt m buffer file) (segment : WellFormedSegment file.length phdr) {k : Nat}
    (inFile : k < phdr.pFilesz.toNat) :
    m (buffer + phdr.pOffset + BitVec.ofNat 32 k) = segmentByte file phdr k := by
  have inside : phdr.pOffset.toNat + k < file.length := by
    have contents := segment.contents
    omega
  have address : buffer + phdr.pOffset + BitVec.ofNat 32 k =
      buffer + BitVec.ofNat 32 (phdr.pOffset.toNat + k) := by
    bv_omega
  rw [address, image.bytes _ inside, segmentByte, if_pos inFile, List.getD_eq_getElem _ _ inside]

/-- When the mapping succeeds, the segments are loaded as the format says exactly when
    nothing is left to be cleared and no other header shows other bytes. -/
theorem elf_segments_loaded_iff {m : Mem} {elfFile : ElfFile} {file : List Byte} {pages : PageMap}
    (image : FileAt m elfFile.elfFileBuffer file)
    (wellFormed : WellFormed m elfFile.elfFileBuffer file.length)
    (mapped : (processMapTaskElf m (processElfFile m elfFile).2 pages).1 = 0) :
    SegmentsLoaded m (processMapTaskElf m (processElfFile m elfFile).2 pages).2 file
        (elfPhdrs m elfFile.elfFileBuffer) ↔
      Faithful m elfFile.elfFileBuffer pages file (elfPhdrs m elfFile.elfFileBuffer) := by
  rw [processMapTaskElf, processElfFile_buffer] at mapped ⊢
  simp only [SegmentsLoaded, translate_mapPhdrs mapped.ge]
  generalize elfFile.elfFileBuffer = buffer at *
  -- A page that its own header maps last shows the buffer from `p_offset` on.
  have own : ∀ phdr ∈ elfPhdrs m buffer, phdr.pType = ptLoad → ∀ k < phdr.pMemsz.toNat,
      lastMapping buffer (elfPhdrs m buffer) (Page.number (segmentAddr phdr k)) = some phdr →
        shownAt buffer pages (elfPhdrs m buffer) (segmentAddr phdr k) =
          buffer + phdr.pOffset + BitVec.ofNat 32 k := by
    intro phdr member load k inSegment last
    have segment := wellFormed.segments phdr member load
    have space := segment.space
    rw [shownAt, last]
    exact frame_segmentAddr image.aligned segment.congruent (by omega)
  constructor
  · intro loaded
    refine ⟨fun phdr member load k behind inSegment last => ?_,
      fun phdr member load k inSegment _ => loaded phdr member load k inSegment⟩
    rw [← own phdr member load k inSegment last, loaded phdr member load k inSegment, segmentByte,
      if_neg (not_lt.mpr behind)]
  · intro faithful phdr member load k inSegment
    by_cases last : lastMapping buffer (elfPhdrs m buffer) (Page.number (segmentAddr phdr k)) = some phdr
    · rw [own phdr member load k inSegment last]
      by_cases inFile : k < phdr.pFilesz.toNat
      · exact image.segment_byte (wellFormed.segments phdr member load) inFile
      · rw [faithful.cleared phdr member load k (not_lt.mp inFile) inSegment last, segmentByte,
          if_neg inFile]
    · exact faithful.remapped phdr member load k inSegment last

/-! ## A file of one segment -/

/-- An ELF header and one loadable segment: its first 16 bytes, and `memsz` in memory. -/
def sampleFile (memsz : Byte) : List Byte :=
  [0x7F, 0x45, 0x4C, 0x46, 1, 1, 1, 0, 0, 0, 0, 0, 0, 0, 0, 0,
    2, 0, 3, 0, 1, 0, 0, 0, 0, 0, 0x40, 0, 52, 0, 0, 0, 0, 0, 0, 0, 0, 0, 0, 0,
    52, 0, 32, 0, 1, 0, 40, 0, 0, 0, 0, 0,
    1, 0, 0, 0, 0, 0, 0, 0, 0, 0, 0x40, 0, 0, 0, 0x40, 0, 16, 0, 0, 0, memsz, 0, 0, 0,
    6, 0, 0, 0, 0, 0x10, 0, 0]

/-- Memory that holds a file at the start of the kernel heap. -/
def sampleMem (file : List Byte) : Mem := fun x => file.getD (x - 0x1000000).toNat 0

def sampleElf : ElfFile := ⟨0x1000000, 0, 0, 0, 0⟩

def samplePhdr (memsz : Byte) : Phdr := ⟨ptLoad, 0, 0x400000, 16, memsz.setWidth 32, 6⟩

theorem fileAt_sampleMem (file : List Byte) (fits : file.length ≤ 4096) :
    FileAt (sampleMem file) 0x1000000 file where
  aligned := by decide
  fits := by
    have place : (0x1000000 : Word).toNat = 0x1000000 := rfl
    omega
  bytes := by
    intro i inside
    have distance : ((0x1000000 : Word) + BitVec.ofNat 32 i - 0x1000000).toNat = i := by bv_omega
    rw [sampleMem, distance, List.getD_eq_getElem _ _ inside]

theorem elfPhdrs_sampleMem (memsz : Byte) (known : memsz = 16 ∨ memsz = 17) :
    elfPhdrs (sampleMem (sampleFile memsz)) 0x1000000 = [samplePhdr memsz] := by
  rcases known with rfl | rfl <;> decide

theorem wellFormed_sampleMem (memsz : Byte) (known : memsz = 16 ∨ memsz = 17) :
    WellFormed (sampleMem (sampleFile memsz)) 0x1000000 (sampleFile memsz).length where
  header := by rcases known with rfl | rfl <;> decide
  entries := by rcases known with rfl | rfl <;> decide
  table := by rcases known with rfl | rfl <;> decide
  segments := by
    rw [elfPhdrs_sampleMem memsz known]
    intro phdr member _
    obtain rfl := List.mem_singleton.mp member
    rcases known with rfl | rfl <;> exact ⟨by decide, by decide, by decide, by decide⟩
  disjoint := by
    rw [elfPhdrs_sampleMem memsz known]
    exact List.pairwise_singleton _ _

/-- Without bytes behind the file part the segment is loaded. -/
theorem elf_segments_loaded_iff_without_bss :
    SegmentsLoaded (sampleMem (sampleFile 16))
      (processMapTaskElf (sampleMem (sampleFile 16))
        (processElfFile (sampleMem (sampleFile 16)) sampleElf).2 (PageMap.linear 5)).2
      (sampleFile 16) (elfPhdrs (sampleMem (sampleFile 16)) sampleElf.elfFileBuffer) := by
  refine (elf_segments_loaded_iff (fileAt_sampleMem _ (by decide)) (wellFormed_sampleMem 16 (.inl rfl))
    (by decide)).mpr ?_
  have phdrs : elfPhdrs (sampleMem (sampleFile 16)) sampleElf.elfFileBuffer = [samplePhdr 16] :=
    elfPhdrs_sampleMem 16 (.inl rfl)
  rw [phdrs]
  constructor
  · intro phdr member _ k behind inSegment _
    obtain rfl := List.mem_singleton.mp member
    exact absurd inSegment (not_lt.mpr behind)
  · intro phdr member _ k inSegment other
    obtain rfl := List.mem_singleton.mp member
    have mine : ∀ k < 16, lastMapping sampleElf.elfFileBuffer [samplePhdr 16]
        (Page.number (segmentAddr (samplePhdr 16) k)) = some (samplePhdr 16) := by decide
    exact absurd (mine k inSegment) other

/-- The byte behind the file part is not zero: it is the byte of the file that follows. -/
theorem bss_shows_file_bytes :
    FileAt (sampleMem (sampleFile 17)) sampleElf.elfFileBuffer (sampleFile 17) ∧
      (processElfFile (sampleMem (sampleFile 17)) sampleElf).1 = 0 ∧
      WellFormed (sampleMem (sampleFile 17)) sampleElf.elfFileBuffer (sampleFile 17).length ∧
      (processMapTaskElf (sampleMem (sampleFile 17))
        (processElfFile (sampleMem (sampleFile 17)) sampleElf).2 (PageMap.linear 5)).1 = 0 ∧
      ¬ SegmentsLoaded (sampleMem (sampleFile 17))
        (processMapTaskElf (sampleMem (sampleFile 17))
          (processElfFile (sampleMem (sampleFile 17)) sampleElf).2 (PageMap.linear 5)).2
        (sampleFile 17) (elfPhdrs (sampleMem (sampleFile 17)) sampleElf.elfFileBuffer) := by
  refine ⟨fileAt_sampleMem _ (by decide), by decide, wellFormed_sampleMem 17 (.inr rfl), by decide, ?_⟩
  intro loaded
  have member : samplePhdr 17 ∈ elfPhdrs (sampleMem (sampleFile 17)) sampleElf.elfFileBuffer := by
    decide
  exact absurd (loaded (samplePhdr 17) member rfl 16 (by decide)) (by decide)

end ConiferOS.Loader
