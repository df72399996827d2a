import ConiferOS.Loader.ElfSegments

/-! # Parsing an ELF file

Two questions about `process_elf_file`. Does it stay in the file? It takes the place and
the length of the program header table from the header and compares neither with the size
of the file. Does it find the range of the loadable segments? It asks only the first
program header, once for each entry of the table.
-/

namespace ConiferOS.Loader

open Lib Paging Process

/-! ## Reading the header and the table -/

/-- The two memories agree on the `size` bytes from `buffer` on. -/
def SameFile (m m' : Mem) (buffer : Word) (size : Nat) : Prop :=
  ∀ x : Word, (x - buffer).toNat < size → m x = m' x

/-- The header and the program header table lie in the first `size` bytes. -/
structure Contained (m : Mem) (buffer : Word) (size : Nat) : Prop where
  header : sizeofEhdr ≤ size
  table : (ePhoff m buffer).toNat + sizeofPhdr * (ePhnum m buffer).toNat ≤ size

/-- A parsed file lies in its buffer as it should, and no byte behind the file has a part
    in what the loader makes of it. -/
structure ParsedInside (m : Mem) (elfFile : ElfFile) (size : Nat) : Prop where
  contained : Contained m elfFile.elfFileBuffer size
  valid : ∀ m', SameFile m m' elfFile.elfFileBuffer size →
    validElfFile m' elfFile.elfFileBuffer = validElfFile m elfFile.elfFileBuffer
  pheaders : ∀ m', SameFile m m' elfFile.elfFileBuffer size →
    processElfFile m' elfFile = processElfFile m elfFile
  mapping : ∀ m', SameFile m m' elfFile.elfFileBuffer size → ∀ pages,
    processMapTaskElf m' (processElfFile m elfFile).2 pages =
      processMapTaskElf m (processElfFile m elfFile).2 pages

theorem elfGetPhdrTable_eq {m : Mem} {header : Word} (present : ePhoff m header ≠ 0) :
    elfGetPhdrTable m header = header + ePhoff m header :=
  if_pos (bne_iff_ne.mpr present)

theorem elfGetPhdr_zero (m : Mem) (header : Word) :
    elfGetPhdr m header 0 = phdrAt m (elfGetPhdrTable m header) := by
  rw [elfGetPhdr, Nat.mul_zero, BitVec.add_zero]

section

variable {m m' : Mem} {buffer : Word} {size : Nat}

theorem SameFile.byte (same : SameFile m m' buffer size) (bounded : size ≤ 2 ^ 32) {i : Nat}
    (inside : i < size) : m (buffer + BitVec.ofNat 32 i) = m' (buffer + BitVec.ofNat 32 i) :=
  same _ (by bv_omega)

theorem SameFile.load16 (same : SameFile m m' buffer size) (bounded : size ≤ 2 ^ 32) {i : Nat}
    (inside : i + 2 ≤ size) :
    m.load16 (buffer + BitVec.ofNat 32 i) = m'.load16 (buffer + BitVec.ofNat 32 i) :=
  Mem.load16_congr fun x near => same x (by bv_omega)

theorem SameFile.load32 (same : SameFile m m' buffer size) (bounded : size ≤ 2 ^ 32) {i : Nat}
    (inside : i + 4 ≤ size) :
    m.load32 (buffer + BitVec.ofNat 32 i) = m'.load32 (buffer + BitVec.ofNat 32 i) :=
  Mem.load32_congr fun x near => same x (by bv_omega)

variable (same : SameFile m m' buffer size) (bounded : size ≤ 2 ^ 32)

include same bounded

theorem SameFile.eIdent (header : sizeofEhdr ≤ size) {i : Nat} (inside : i < 16) :
    eIdent m buffer i = eIdent m' buffer i :=
  same.byte bounded (by rw [sizeofEhdr] at header; omega)

theorem SameFile.ePhoff (header : sizeofEhdr ≤ size) : ePhoff m buffer = ePhoff m' buffer :=
  same.load32 bounded (i := 28) (by rw [sizeofEhdr] at header; omega)

theorem SameFile.ePhnum (header : sizeofEhdr ≤ size) : ePhnum m buffer = ePhnum m' buffer :=
  same.load16 bounded (i := 44) (by rw [sizeofEhdr] at header; omega)

theorem SameFile.eType (header : sizeofEhdr ≤ size) : eType m buffer = eType m' buffer :=
  same.load16 bounded (i := 16) (by rw [sizeofEhdr] at header; omega)

theorem SameFile.validElfFile (header : sizeofEhdr ≤ size) :
    validElfFile m buffer = validElfFile m' buffer := by
  have signature : elfValidSignature m buffer = elfValidSignature m' buffer := by
    have bytes : (List.range elfSignature.length).map (Loader.eIdent m buffer) =
        (List.range elfSignature.length).map (Loader.eIdent m' buffer) := by
      refine List.map_congr_left fun i member => same.eIdent bounded header ?_
      have small : i < 4 := List.mem_range.mp member
      omega
    rw [elfValidSignature, elfValidSignature, bytes]
  simp only [Loader.validElfFile, signature, elfValidClass, elfValidEncoding, elfIsExecutable,
    elfHasProgramHeaderTable, same.eIdent bounded header (i := 4) (by omega),
    same.eIdent bounded header (i := 5) (by omega), same.eType bounded header,
    same.ePhoff bounded header]

theorem SameFile.phdrAt {i : Nat} (inside : i + sizeofPhdr ≤ size) :
    phdrAt m (buffer + BitVec.ofNat 32 i) = phdrAt m' (buffer + BitVec.ofNat 32 i) := by
  have field : ∀ k : Word, k.toNat + 4 ≤ 32 →
      m.load32 (buffer + BitVec.ofNat 32 i + k) = m'.load32 (buffer + BitVec.ofNat 32 i + k) := by
    intro k inHeader
    have offset : BitVec.ofNat 32 i + k = BitVec.ofNat 32 (i + k.toNat) := by
      rw [BitVec.ofNat_add, BitVec.ofNat_toNat, BitVec.setWidth_eq]
    rw [BitVec.add_assoc, offset]
    exact same.load32 bounded (by rw [sizeofPhdr] at inside; omega)
  have first : m.load32 (buffer + BitVec.ofNat 32 i) = m'.load32 (buffer + BitVec.ofNat 32 i) :=
    same.load32 bounded (by rw [sizeofPhdr] at inside; omega)
  rw [Loader.phdrAt, Loader.phdrAt, first, field 4 (by decide), field 8 (by decide),
    field 16 (by decide), field 20 (by decide), field 24 (by decide)]

/-- Entry by entry, the table is read inside the file. -/
theorem SameFile.elfGetPhdr (contained : Contained m buffer size)
    (valid : Loader.validElfFile m buffer = true) {index : Nat}
    (inTable : index < (Loader.ePhnum m buffer).toNat) :
    elfGetPhdr m buffer index = elfGetPhdr m' buffer index := by
  have here : elfGetPhdrTable m buffer = buffer + Loader.ePhoff m buffer :=
    elfGetPhdrTable_eq (ePhoff_ne_zero valid)
  have there : elfGetPhdrTable m' buffer = buffer + Loader.ePhoff m buffer := by
    rw [same.ePhoff bounded contained.header]
    rw [same.validElfFile bounded contained.header] at valid
    exact elfGetPhdrTable_eq (ePhoff_ne_zero valid)
  have address : buffer + Loader.ePhoff m buffer + BitVec.ofNat 32 (sizeofPhdr * index) =
      buffer + BitVec.ofNat 32 ((Loader.ePhoff m buffer).toNat + sizeofPhdr * index) := by
    rw [BitVec.ofNat_add, BitVec.ofNat_toNat, BitVec.setWidth_eq, BitVec.add_assoc]
  have inside : (Loader.ePhoff m buffer).toNat + sizeofPhdr * index + sizeofPhdr ≤ size := by
    have table := contained.table
    rw [sizeofPhdr] at table ⊢
    omega
  rw [Loader.elfGetPhdr, Loader.elfGetPhdr, here, there, address]
  exact same.phdrAt bounded inside

theorem SameFile.elfPhdrs (contained : Contained m buffer size)
    (valid : Loader.validElfFile m buffer = true) : elfPhdrs m buffer = elfPhdrs m' buffer := by
  rw [Loader.elfPhdrs, Loader.elfPhdrs, ← same.ePhnum bounded contained.header]
  exact List.map_congr_left fun index member =>
    same.elfGetPhdr bounded contained valid (List.mem_range.mp member)

/-- The loop looks at the table only when it has an entry. -/
theorem SameFile.processPheadersLoop (contained : Contained m buffer size)
    (valid : Loader.validElfFile m buffer = true) (elfFile : ElfFile) :
    processPheadersLoop (Loader.phdrAt m (elfGetPhdrTable m buffer))
        (Loader.ePhnum m buffer).toNat elfFile =
      processPheadersLoop (Loader.phdrAt m' (elfGetPhdrTable m' buffer))
        (Loader.ePhnum m buffer).toNat elfFile := by
  cases count : (Loader.ePhnum m buffer).toNat with
  | zero => rfl
  | succ remaining =>
      have nonempty : 0 < (Loader.ePhnum m buffer).toNat := by omega
      have first := same.elfGetPhdr bounded contained valid nonempty
      rw [elfGetPhdr_zero, elfGetPhdr_zero] at first
      rw [first]

end

theorem Contained.parsedInside {m : Mem} {elfFile : ElfFile} {size : Nat}
    (contained : Contained m elfFile.elfFileBuffer size) (bounded : size ≤ 2 ^ 32)
    (valid : validElfFile m elfFile.elfFileBuffer = true) : ParsedInside m elfFile size where
  contained := contained
  valid := fun m' same => (same.validElfFile bounded contained.header).symm
  pheaders := by
    intro m' same
    rw [processElfFile, processElfFile, elfProcessPheaders, elfProcessPheaders,
      ← same.validElfFile bounded contained.header, ← same.ePhnum bounded contained.header,
      ← same.processPheadersLoop bounded contained valid]
  mapping := by
    intro m' same pages
    rw [processMapTaskElf, processMapTaskElf, processElfFile_buffer,
      same.elfPhdrs bounded contained valid]

/-- What is accepted lies in the file exactly when the file says so itself: the loader
    does not compare the place of the table with the size of the file. -/
theorem parsed_inside_iff {m : Mem} {elfFile : ElfFile} {file : List Byte}
    (image : FileAt m elfFile.elfFileBuffer file) (allocated : elfFile.elfFileBuffer ≠ 0) :
    ((processElfFile m elfFile).1 = 0 → ParsedInside m elfFile file.length) ↔
      validElfFile m elfFile.elfFileBuffer = false ∨
        Contained m elfFile.elfFileBuffer file.length := by
  rw [processElfFile_eq_zero_iff]
  have fits := image.fits
  cases valid : validElfFile m elfFile.elfFileBuffer with
  | false => simp
  | true =>
      constructor
      · intro parsed
        exact .inr (parsed ⟨allocated, rfl⟩).contained
      · rintro (rejected | contained)
        · cases rejected
        · exact fun _ => contained.parsedInside (by omega) valid

theorem parsed_inside_iff_sample :
    ParsedInside (sampleMem (sampleFile 16)) sampleElf (sampleFile 16).length := by
  have image : FileAt (sampleMem (sampleFile 16)) sampleElf.elfFileBuffer (sampleFile 16) :=
    fileAt_sampleMem _ (by decide)
  exact (parsed_inside_iff image (by decide)).mpr (.inr ⟨by decide, by decide⟩) (by decide)

/-- A file that ends with its header is accepted, and its table is taken from behind it. -/
theorem truncated_file_accepted :
    FileAt (sampleMem ((sampleFile 16).take 52)) sampleElf.elfFileBuffer ((sampleFile 16).take 52) ∧
      (processElfFile (sampleMem ((sampleFile 16).take 52)) sampleElf).1 = 0 ∧
      ¬ ParsedInside (sampleMem ((sampleFile 16).take 52)) sampleElf
        ((sampleFile 16).take 52).length := by
  refine ⟨fileAt_sampleMem _ (by decide), by decide, fun parsed => ?_⟩
  exact absurd parsed.contained.table (by decide)

/-! ## The range of the loadable segments -/

/-- The end of the file part of a segment. -/
def endAddr (phdr : Phdr) : Nat := phdr.pVaddr.toNat + phdr.pFilesz.toNat

/-- The range from the lowest start to the highest end of a loadable segment, and where
    those two are in the buffer. -/
structure Hull (phdrs : List Phdr) (elfFile : ElfFile) : Prop where
  base : ∃ phdr ∈ phdrs, phdr.pType = ptLoad ∧
    (∀ other ∈ phdrs, other.pType = ptLoad → phdr.pVaddr.toNat ≤ other.pVaddr.toNat) ∧
    elfFile.elfVirtualAddrBase = phdr.pVaddr ∧
    elfFile.elfPhysAddrBase = elfFile.elfFileBuffer + phdr.pOffset
  top : ∃ phdr ∈ phdrs, phdr.pType = ptLoad ∧
    (∀ other ∈ phdrs, other.pType = ptLoad → endAddr other ≤ endAddr phdr) ∧
    elfFile.elfVirtualAddrEnd = phdr.pVaddr + phdr.pFilesz ∧
    elfFile.elfPhysAddrEnd = elfFile.elfFileBuffer + phdr.pOffset + phdr.pFilesz

/-- The first header of the table is loadable, starts lowest and ends highest. -/
def FirstSpans (phdrs : List Phdr) : Prop :=
  ∃ first rest, phdrs = first :: rest ∧ first.pType = ptLoad ∧
    ∀ other ∈ phdrs, other.pType = ptLoad →
      first.pVaddr.toNat ≤ other.pVaddr.toNat ∧ endAddr other ≤ endAddr first

/-- The range of one segment. -/
def rangeOf (buffer : Word) (phdr : Phdr) : ElfFile :=
  ⟨buffer, phdr.pVaddr, phdr.pVaddr + phdr.pFilesz, buffer + phdr.pOffset,
    buffer + phdr.pOffset + phdr.pFilesz⟩

/-- A new `struct elf_file` with its buffer. -/
def newElfFile (buffer : Word) : ElfFile := ⟨buffer, 0, 0, 0, 0⟩

theorem elfProcessPheader_new {buffer : Word} {phdr : Phdr} (load : phdr.pType = ptLoad) :
    (elfProcessPheader (newElfFile buffer) phdr).2 = rangeOf buffer phdr := by
  simp only [elfProcessPheader, elfProcessPheaderPtLoad, load, newElfFile, or_true, if_true,
    ne_eq, not_true_eq_false, if_false]
  rfl

theorem elfProcessPheader_rangeOf {buffer : Word} {phdr : Phdr} (load : phdr.pType = ptLoad) :
    (elfProcessPheader (rangeOf buffer phdr) phdr).2 = rangeOf buffer phdr := by
  simp only [elfProcessPheader, elfProcessPheaderPtLoad, load, rangeOf, BitVec.le_refl, true_or,
    if_true, ne_eq, not_true_eq_false, if_false]

/-- However long the table is, the result is the range of its first header. -/
theorem processPheadersLoop_eq (buffer : Word) (phdr : Phdr) :
    ∀ remaining, processPheadersLoop phdr (remaining + 1) (newElfFile buffer) =
      if phdr.pType = ptLoad then rangeOf buffer phdr else newElfFile buffer := by
  have fixed : ∀ remaining, phdr.pType = ptLoad →
      processPheadersLoop phdr remaining (rangeOf buffer phdr) = rangeOf buffer phdr := by
    intro remaining load
    induction remaining with
    | zero => rfl
    | succ remaining ih => rw [processPheadersLoop, elfProcessPheader_rangeOf load, ih]
  have skipped : ∀ remaining, phdr.pType ≠ ptLoad →
      processPheadersLoop phdr remaining (newElfFile buffer) = newElfFile buffer := by
    intro remaining other
    induction remaining with
    | zero => rfl
    | succ remaining ih => rw [processPheadersLoop, elfProcessPheader, if_neg other, ih]
  intro remaining
  split
  case isTrue load => rw [processPheadersLoop, elfProcessPheader_new load, fixed _ load]
  case isFalse other => exact skipped _ other

theorem processElfFile_accepted {m : Mem} {elfFile : ElfFile}
    (accepted : (processElfFile m elfFile).1 = 0) :
    (processElfFile m elfFile).2 =
      processPheadersLoop (phdrAt m (elfGetPhdrTable m elfFile.elfFileBuffer))
        (ePhnum m elfFile.elfFileBuffer).toNat elfFile := by
  obtain ⟨buffer, valid⟩ := (processElfFile_eq_zero_iff m elfFile).mp accepted
  rw [processElfFile, if_neg buffer, valid]
  rfl

theorem elfPhdrs_cons {m : Mem} {buffer : Word} {remaining : Nat}
    (count : (ePhnum m buffer).toNat = remaining + 1) :
    ∃ rest, elfPhdrs m buffer = phdrAt m (elfGetPhdrTable m buffer) :: rest := by
  refine ⟨(List.range remaining).map fun i => elfGetPhdr m buffer (i + 1), ?_⟩
  rw [elfPhdrs, count, List.range_succ_eq_map, List.map_cons, List.map_map]
  rw [elfGetPhdr_zero]
  rfl

theorem toNat_endAddr {phdr : Phdr} (noWrap : endAddr phdr < 2 ^ 32) :
    (phdr.pVaddr + phdr.pFilesz).toNat = endAddr phdr := by
  rw [endAddr] at noWrap ⊢
  bv_omega

theorem hull_rangeOf_iff {buffer : Word} {first : Phdr} {rest : List Phdr}
    (load : first.pType = ptLoad)
    (noWrap : ∀ phdr ∈ first :: rest, phdr.pType = ptLoad → endAddr phdr < 2 ^ 32) :
    Hull (first :: rest) (rangeOf buffer first) ↔ FirstSpans (first :: rest) := by
  constructor
  · rintro ⟨⟨low, lowIn, lowLoad, least, base, _⟩, ⟨high, highIn, highLoad, greatest, top, _⟩⟩
    refine ⟨first, rest, rfl, load, fun other member otherLoad => ⟨?_, ?_⟩⟩
    · have start : first.pVaddr = low.pVaddr := base
      rw [start]
      exact least other member otherLoad
    · have ends : (first.pVaddr + first.pFilesz).toNat = (high.pVaddr + high.pFilesz).toNat :=
        congrArg BitVec.toNat top
      rw [toNat_endAddr (noWrap first List.mem_cons_self load),
        toNat_endAddr (noWrap high highIn highLoad)] at ends
      rw [ends]
      exact greatest other member otherLoad
  · rintro ⟨found, _, table, _, spans⟩
    cases table
    refine ⟨⟨first, List.mem_cons_self, load, ?_, rfl, rfl⟩, ⟨first, List.mem_cons_self, load, ?_, rfl, rfl⟩⟩
    · exact fun other member otherLoad => (spans other member otherLoad).1
    · exact fun other member otherLoad => (spans other member otherLoad).2

/-- The recorded range is that of all loadable segments exactly when it is that of the
    first header. -/
theorem load_range_iff {m : Mem} {buffer : Word}
    (accepted : (processElfFile m (newElfFile buffer)).1 = 0)
    (loadable : ∃ phdr ∈ elfPhdrs m buffer, phdr.pType = ptLoad)
    (nonzero : ∀ phdr ∈ elfPhdrs m buffer, phdr.pType = ptLoad → phdr.pVaddr ≠ 0)
    (noWrap : ∀ phdr ∈ elfPhdrs m buffer, phdr.pType = ptLoad → endAddr phdr < 2 ^ 32) :
    Hull (elfPhdrs m buffer) (processElfFile m (newElfFile buffer)).2 ↔
      FirstSpans (elfPhdrs m buffer) := by
  obtain ⟨some, member, _⟩ := loadable
  obtain ⟨remaining, count⟩ : ∃ remaining, (ePhnum m buffer).toNat = remaining + 1 := by
    refine Nat.exists_eq_succ_of_ne_zero fun empty => ?_
    rw [elfPhdrs, empty] at member
    cases member
  obtain ⟨rest, table⟩ := elfPhdrs_cons count
  have result : (processElfFile m (newElfFile buffer)).2 =
      processPheadersLoop (phdrAt m (elfGetPhdrTable m buffer)) (ePhnum m buffer).toNat
        (newElfFile buffer) := processElfFile_accepted accepted
  rw [count, processPheadersLoop_eq] at result
  generalize phdrAt m (elfGetPhdrTable m buffer) = first at table result
  rw [table] at nonzero noWrap ⊢
  rw [result]
  split
  case isTrue load => exact hull_rangeOf_iff load noWrap
  case isFalse other =>
    refine iff_of_false ?_ ?_
    · rintro ⟨⟨low, lowIn, lowLoad, _, base, _⟩, _⟩
      exact nonzero low lowIn lowLoad base.symm
    · rintro ⟨found, _, here, load, _⟩
      cases here
      exact other load

/-- A file with two program headers, the second of type `type`. -/
def twoHeaders (type : Byte) : List Byte :=
  [0x7F, 0x45, 0x4C, 0x46, 1, 1, 1, 0, 0, 0, 0, 0, 0, 0, 0, 0,
    2, 0, 3, 0, 1, 0, 0, 0, 0, 0, 0x40, 0, 52, 0, 0, 0, 0, 0, 0, 0, 0, 0, 0, 0,
    52, 0, 32, 0, 2, 0, 40, 0, 0, 0, 0, 0,
    1, 0, 0, 0, 0, 0, 0, 0, 0, 0, 0x40, 0, 0, 0, 0x40, 0, 16, 0, 0, 0, 16, 0, 0, 0,
    6, 0, 0, 0, 0, 0x10, 0, 0,
    type, 0, 0, 0, 0, 0, 0, 0, 0, 0x20, 0x40, 0, 0, 0, 0x40, 0, 16, 0, 0, 0, 16, 0, 0, 0,
    6, 0, 0, 0, 0, 0x10, 0, 0]

theorem elfPhdrs_twoHeaders (type : Byte) (known : type = 0 ∨ type = 1) :
    elfPhdrs (sampleMem (twoHeaders type)) 0x1000000 =
      [⟨ptLoad, 0, 0x400000, 16, 16, 6⟩, ⟨type.setWidth 32, 0, 0x402000, 16, 16, 6⟩] := by
  rcases known with rfl | rfl <;> decide

theorem load_range_iff_one_segment :
    Hull (elfPhdrs (sampleMem (twoHeaders 0)) 0x1000000)
      (processElfFile (sampleMem (twoHeaders 0)) (newElfFile 0x1000000)).2 := by
  have table := elfPhdrs_twoHeaders 0 (.inl rfl)
  refine (load_range_iff (by decide) ?_ ?_ ?_).mpr ⟨_, _, table, rfl, ?_⟩
  all_goals rw [table]
  all_goals decide

/-- The second segment is not part of the recorded range. -/
theorem load_range_misses_second :
    (processElfFile (sampleMem (twoHeaders 1)) (newElfFile 0x1000000)).1 = 0 ∧
      (processElfFile (sampleMem (twoHeaders 1)) (newElfFile 0x1000000)).2.elfVirtualAddrEnd =
        0x400010 ∧
      ¬ Hull (elfPhdrs (sampleMem (twoHeaders 1)) 0x1000000)
        (processElfFile (sampleMem (twoHeaders 1)) (newElfFile 0x1000000)).2 := by
  have table := elfPhdrs_twoHeaders 1 (.inr rfl)
  refine ⟨by decide, by decide, fun hull => ?_⟩
  obtain ⟨high, member, _, greatest, top, _⟩ := hull.top
  rw [table] at member greatest
  have ends := greatest _ (List.mem_cons_of_mem _ List.mem_cons_self) rfl
  rcases List.mem_cons.mp member with rfl | later
  · exact absurd ends (by decide)
  · obtain rfl := List.mem_singleton.mp later
    exact absurd top (by decide)

end ConiferOS.Loader
