import ConiferOS.Fs.DescriptorTable
import ConiferOS.Fs.EndOfFile
import ConiferOS.Kernel.AddressSpace
import ConiferOS.Loader.ElfParsing

/-! # From the disk to the memory of a program

`process_load_data` with the file layer below it and the address space above it: an ELF file or,
if it is not one, a flat binary is read whole into a block of the kernel heap, and the block is
what the process has mapped. Reads do not get past the first cluster, so a program runs as it is
on the disk when it fits in a cluster, and does not run at all when it is longer.
-/

namespace ConiferOS.Loader

open Lib Paging Process Fs
open ConiferOS.Kernel (HeapAddress mapped_pages number_sub translate_range)

/-! ## The code -/

/-- `fread` to an address. -/
def freadAt (disk : Disk) (fat : FatVolume) (s : Files) (m : Mem) (ptr size nmemb : Word) (fd : Int) :
    Option (Word × Files × Mem) :=
  (s.fread disk fat (fun i => m (ptr + BitVec.ofNat 32 i)) size nmemb fd).map
    fun (rc, s, out) => (rc, s, fun x => out (x - ptr).toNat)

/-- What `kzalloc` does to the memory behind the pointer that it returns. -/
def kzallocAt (m : Mem) (ptr size : Word) : Mem := if ptr = 0 then m else m.fill ptr size.toNat 0

/-- What a load gets from the rest of the kernel: the blocks of its allocations, and what the two
    calls of `fopen` find. -/
structure LoadEnv where
  elfFile : Word
  elfFileBuffer : Word
  binaryExecutable : Word
  asElf : OpenEnv
  asBinary : OpenEnv

structure LoadResult where
  rc : Int
  files : Files
  mem : Mem
  executable : Option Executable

/-- The two failures between `fopen` and `process_elf_file` leave the file open. -/
def elfFileInit (disk : Disk) (fat : FatVolume) (env : LoadEnv) (s : Files) (m : Mem) :
    Option LoadResult :=
  if env.elfFile = 0 then some ⟨-enomem, s, m, none⟩
  else
    let (fd, s) := fopen s [0x72] env.asElf
    if fd < 0 then some ⟨fd, s, m, none⟩
    else
      let (rc, stat) := s.fstat fd ⟨0, 0⟩
      if rc < 0 then some ⟨rc, s, m, none⟩
      else
        match freadAt disk fat s (kzallocAt m env.elfFileBuffer stat.filesize) env.elfFileBuffer
            stat.filesize 1 fd with
        | none => none
        | some (rc, s, m) =>
            if rc ≠ 1 then some ⟨-einvarg, s, m, none⟩
            else
              let (rc, elfFile) := processElfFile m (newElfFile env.elfFileBuffer)
              if rc < 0 then some ⟨rc, (s.fclose fd).2, m, none⟩
              else
                some ⟨0, (s.fclose fd).2, m,
                  some (.elf elfFile.elfFileBuffer (elfPhdrs m elfFile.elfFileBuffer))⟩

/-- A short count of elements is not an error here. -/
def processLoadBinaryExecutable (disk : Disk) (fat : FatVolume) (env : LoadEnv) (s : Files) (m : Mem) :
    Option LoadResult :=
  let (fd, s) := fopen s [0x72] env.asBinary
  if fd < 0 then some ⟨-eio, s, m, none⟩
  else
    let (rc, stat) := s.fstat fd ⟨0, 0⟩
    if rc < 0 then some ⟨rc, (s.fclose fd).2, m, none⟩
    else if env.binaryExecutable = 0 then some ⟨-enomem, (s.fclose fd).2, m, none⟩
    else
      match freadAt disk fat s (kzallocAt m env.binaryExecutable stat.filesize) env.binaryExecutable
          stat.filesize 1 fd with
      | none => none
      | some (rc, s, m) =>
          if rc.toInt < 0 then some ⟨rc.toInt, (s.fclose fd).2, m, none⟩
          else
            some ⟨rc.toInt, (s.fclose fd).2, m, some (.binary env.binaryExecutable stat.filesize)⟩

def processLoadData (disk : Disk) (fat : FatVolume) (env : LoadEnv) (s : Files) (m : Mem) :
    Option LoadResult :=
  match elfFileInit disk fat env s m with
  | none => none
  | some result =>
      if result.rc = -eiformat then processLoadBinaryExecutable disk fat env result.files result.mem
      else some result

/-! ## One file at a time -/

/-- `fopen` gets its blocks, and finds the file of an entry. -/
structure Finds (env : OpenEnv) (s : Files) (rawEntry : FatDirectoryEntry) : Prop where
  fresh : env.Fresh s
  path : ∃ pathRoot, env.pathRoot = some pathRoot ∧ pathRoot.first = true ∧ pathRoot.driveNo = 0
  mounted : env.mounted = true
  entry : env.entry = some (.file rawEntry)

/-- The files after one was opened, read and closed again. -/
def closedAgain (s : Files) (env : OpenEnv) (rawEntry : FatDirectoryEntry) (i : Nat) : Files :=
  { s.opened env (.file rawEntry) i with fileDescriptors := s.fileDescriptors }

section Descriptor

variable {s : Files} {env : OpenEnv} {rawEntry : FatDirectoryEntry} {i : Nat}

/-- The streams may be anywhere. -/
theorem Finds.moved (finds : Finds env s rawEntry) (streams : FatStreams) :
    Finds { env with streams := streams } s rawEntry :=
  ⟨⟨finds.fresh.fileDescriptor, finds.fresh.fatFileDescriptor, finds.fresh.heap, finds.fresh.unused⟩,
    finds.path, finds.mounted, finds.entry⟩

theorem Finds.fopen_eq (finds : Finds env s rawEntry) (free : freeSlot s = some i) :
    fopen s [0x72] env = ((i : Int), s.opened env (.file rawEntry) i) := by
  obtain ⟨pathRoot, parsed, path⟩ := finds.path
  exact fopen_success finds.fresh parsed path finds.mounted finds.entry free

theorem Finds.opened_open (finds : Finds env s rawEntry) (free : freeSlot s = some i) :
    (s.opened env (.file rawEntry) i).Open i := by
  refine ⟨Int.natCast_nonneg i, by exact_mod_cast (freeSlot_eq_some_iff.mp free).1, ?_⟩
  rw [Int.toNat_natCast]
  simpa only [Files.opened, Function.update_self] using finds.fresh.fileDescriptor

theorem Finds.descriptor (finds : Finds env s rawEntry) (free : freeSlot s = some i) :
    (s.opened env (.file rawEntry) i).fileGetDescriptor i = env.fileDescriptor := by
  rw [fileGetDescriptor_of_open (finds.opened_open free), Int.toNat_natCast]
  simp only [Files.opened, Function.update_self]

theorem Finds.fstat_eq (finds : Finds env s rawEntry) (free : freeSlot s = some i) (stat : FileStat) :
    (s.opened env (.file rawEntry) i).fstat i stat = fat16Fstat ⟨.file rawEntry, 0⟩ stat := by
  simp only [Files.fstat, finds.descriptor free, if_neg finds.fresh.fileDescriptor]
  simp only [Files.opened, Function.update_self]

theorem Finds.fread_eq (finds : Finds env s rawEntry) (free : freeSlot s = some i) (disk : Disk)
    (fat : FatVolume) (out : Nat → Byte) {size : Word} (sized : size ≠ 0) :
    (s.opened env (.file rawEntry) i).fread disk fat out size 1 i =
      (fat16Fread disk fat env.streams ⟨.file rawEntry, 0⟩ size 1 out).map
        fun (rc, streams, out) =>
          (rc, s.opened { env with streams := streams } (.file rawEntry) i, out) := by
  have accepted : ¬ (size = 0 ∨ (1 : Word) = 0 ∨ (i : Int) < 0) := by
    rintro (zero | zero | negative)
    exacts [sized zero, absurd zero (by decide), absurd negative (by omega)]
  simp only [Files.fread, if_neg accepted, finds.descriptor free, if_neg finds.fresh.fileDescriptor]
  simp only [Files.opened, Function.update_self]

/-- The slot is free again. -/
theorem Finds.fclose_eq (finds : Finds env s rawEntry) (wf : s.WellFormed) (free : freeSlot s = some i) :
    ((s.opened env (.file rawEntry) i).fclose i).2 = closedAgain s env rawEntry i := by
  have inUse := finds.opened_open free
  have opened : (s.opened env (.file rawEntry) i).WellFormed := wf.opened finds.fresh
  have table : Function.update (s.opened env (.file rawEntry) i).fileDescriptors i 0 =
      s.fileDescriptors := by
    rw [Files.opened, Function.update_idem, ← (freeSlot_eq_some_iff.mp free).2.1,
      Function.update_eq_self]
  rw [Files.fclose, fileGetDescriptor_of_open inUse, if_neg inUse.2.2, opened.free inUse,
    Int.toNat_natCast, table]
  rfl

/-- The blocks that are in use have not been touched. -/
theorem Finds.again {later : OpenEnv} {laterEntry : FatDirectoryEntry} (finds : Finds env s rawEntry)
    (findsLater : Finds later s laterEntry) : Finds later (closedAgain s env rawEntry i) laterEntry where
  fresh := by
    refine ⟨findsLater.fresh.fileDescriptor, findsLater.fresh.fatFileDescriptor, findsLater.fresh.heap,
      fun j inside inUse => ?_⟩
    obtain ⟨block, data⟩ := findsLater.fresh.unused j inside inUse
    refine ⟨block, ?_⟩
    simpa only [closedAgain, Files.opened,
      Function.update_of_ne (finds.fresh.unused j inside inUse).1] using data
  path := findsLater.path
  mounted := findsLater.mounted
  entry := findsLater.entry

theorem closedAgain_wellFormed (finds : Finds env s rawEntry) (wf : s.WellFormed) :
    (closedAgain s env rawEntry i).WellFormed := by
  have kept : ∀ j < maxOpenFiles, s.fileDescriptors j ≠ 0 →
      (closedAgain s env rawEntry i).descs (s.fileDescriptors j) = s.descs (s.fileDescriptors j) :=
    fun j inside inUse => Function.update_of_ne (finds.fresh.unused j inside inUse).1 _ _
  constructor
  · intro j inside inUse
    exact (congrArg FileDescriptor.index (kept j inside inUse)).trans (wf.index j inside inUse)
  · intro j insideJ k insideK inUseJ inUseK same
    refine wf.separate j insideJ k insideK inUseJ inUseK ?_
    rw [← kept j insideJ inUseJ, ← kept k insideK inUseK]
    exact same

end Descriptor

/-! ## Reading a file whole -/

/-- The bytes of a file as its chain gives them. -/
structure Contents (disk : Disk) (fat : FatVolume) (rawEntry : FatDirectoryEntry) (file : List Byte) :
    Prop where
  length : file.length = rawEntry.filesize.toNat
  bytes : ∀ j, ∀ inside : j < file.length, fileContents disk fat rawEntry j = some file[j]

/-- The first cluster is on the part of the disk that an `int` can address. -/
structure Reachable (fat : FatVolume) (rawEntry : FatDirectoryEntry) : Prop where
  lower : 0 ≤ fat.header.clusterPos (fat16GetFirstCluster rawEntry)
  upper : fat.header.clusterPos (fat16GetFirstCluster rawEntry) + rawEntry.filesize.toNat < 2 ^ 31

section Whole

variable {disk : Disk} {fat : FatVolume} {rawEntry : FatDirectoryEntry} {file : List Byte}

/-- One element, from the start of the file. -/
theorem fat16Fread_one {size : Word} {streams after : FatStreams} {out out' : Nat → Byte} {count : Nat}
    (loop : freadLoop disk fat rawEntry size 1 0 0 streams out = some (count, after, out')) :
    fat16Fread disk fat streams ⟨.file rawEntry, 0⟩ size 1 out =
      some (BitVec.ofNat 32 count, after, out') := by
  have start : (0 : Word).toInt = 0 := rfl
  have single : (1 : Word).toNat = 1 := rfl
  simp only [fat16Fread, start, single, loop, Option.map_some]

theorem fat16Fread_whole (loaded : fat.Loaded disk) (contents : Contents disk fat rawEntry file)
    (reachable : Reachable fat rawEntry) (sized : 0 < file.length)
    (fits : (file.length : Int) ≤ clusterSizeBytes disk fat) (streams : FatStreams) (out : Nat → Byte) :
    ∃ after, fat16Fread disk fat streams ⟨.file rawEntry, 0⟩ rawEntry.filesize 1 out =
      some (1, after, fun i => file.getD i (out i)) := by
  have positive : 0 < clusterSizeBytes disk fat := by omega
  have length := contents.length
  have lower := reachable.lower
  have upper := reachable.upper
  obtain ⟨r, after, out', loop, elements⟩ := freadLoop_elements positive rawEntry
    (by omega : (rawEntry.filesize.toNat : Int) ≤ clusterSizeBytes disk fat) 0 1 0 streams out (by omega)
  have one : r = 1 := by
    have most := elements.most
    rcases elements.stops with ends | short
    · omega
    · by_contra other
      have none : r = 0 := by omega
      rw [none] at short
      omega
  subst one
  have written : out' = fun i => file.getD i (out i) := by
    funext i
    rw [elements.written i]
    by_cases inside : i < file.length
    · have byte := piece_eq loaded (fat16GetFirstCluster rawEntry) 0 rawEntry.filesize.toNat
        (by omega) (by omega) (by omega : i < rawEntry.filesize.toNat)
      have first : fileContents disk fat rawEntry i = _ :=
        fileContents_first loaded positive (by omega) (by omega) (by omega)
      rw [contents.bytes i inside, Option.some.injEq] at first
      have quotient : i / rawEntry.filesize.toNat = 0 := Nat.div_eq_of_lt (by omega)
      have remainder : i % rawEntry.filesize.toNat = i := Nat.mod_eq_of_lt (by omega)
      rw [if_pos (by omega), elementByte, quotient, remainder, Nat.zero_mul, byte, Nat.zero_add, ← first,
        List.getD_eq_getElem _ _ inside]
    · rw [if_neg (by omega), List.getD_eq_default _ _ (by omega)]
  rw [Nat.zero_mul, Nat.add_zero, Int.natCast_zero, written] at loop
  exact ⟨after, fat16Fread_one loop⟩

theorem fat16Fread_long (small : rawEntry.filesize.toNat < 2 ^ 31) (positive : 0 < clusterSizeBytes disk fat)
    (long : clusterSizeBytes disk fat < rawEntry.filesize.toNat) (streams : FatStreams) (out : Nat → Byte) :
    ∃ after out', fat16Fread disk fat streams ⟨.file rawEntry, 0⟩ rawEntry.filesize 1 out =
      some (0, after, out') := by
  obtain ⟨after, loop⟩ : ∃ after, freadLoop disk fat rawEntry rawEntry.filesize (0 + 1) 0 (0 : Nat)
      streams out = some (0, after, _) := freadLoop_long positive (by simpa using positive) long small 0 out
  exact ⟨after, _, fat16Fread_one loop⟩

end Whole

/-! ## The two loaders -/

section Loaders

variable {disk : Disk} {fat : FatVolume} {s : Files} {rawEntry : FatDirectoryEntry} {file : List Byte}
  {i : Nat}

/-- A file that fills its block leaves no trace of the `memset`. -/
theorem place_kzallocAt (m : Mem) (ptr : Word) {size : Word} (length : file.length = size.toNat) :
    (fun x => file.getD (x - ptr).toNat (kzallocAt m ptr size (ptr + BitVec.ofNat 32 (x - ptr).toNat))) =
      m.place ptr file := by
  funext x
  have back : ptr + BitVec.ofNat 32 (x - ptr).toNat = x := by bv_omega
  rw [back, Mem.place]
  by_cases inside : (x - ptr).toNat < file.length
  · rw [List.getD_eq_getElem _ _ inside, List.getD_eq_getElem _ _ inside]
  · rw [List.getD_eq_default _ _ (by omega), List.getD_eq_default _ _ (by omega), kzallocAt]
    split
    case isTrue => rfl
    case isFalse => exact Mem.fill_apply_of_le (by omega)

theorem freadAt_whole {env : OpenEnv} (m : Mem) (ptr : Word) (finds : Finds env s rawEntry)
    (free : freeSlot s = some i) (loaded : fat.Loaded disk) (contents : Contents disk fat rawEntry file)
    (reachable : Reachable fat rawEntry) (sized : 0 < file.length)
    (fits : (file.length : Int) ≤ clusterSizeBytes disk fat) :
    ∃ after, freadAt disk fat (s.opened env (.file rawEntry) i) (kzallocAt m ptr rawEntry.filesize) ptr
        rawEntry.filesize 1 i =
      some (1, s.opened { env with streams := after } (.file rawEntry) i, m.place ptr file) := by
  have length := contents.length
  have some : rawEntry.filesize ≠ 0 := by
    intro zero
    rw [zero] at length
    exact absurd length sized.ne'
  obtain ⟨after, read⟩ := fat16Fread_whole loaded contents reachable sized fits env.streams
    fun i => kzallocAt m ptr rawEntry.filesize (ptr + BitVec.ofNat 32 i)
  refine ⟨after, ?_⟩
  rw [freadAt, finds.fread_eq free disk fat _ some, read]
  simp only [Option.map_some, place_kzallocAt m ptr length]

/-- A file that is empty or longer than a cluster is not read. -/
theorem freadAt_refused {env : OpenEnv} (m : Mem) (finds : Finds env s rawEntry) (free : freeSlot s = some i)
    (positive : 0 < clusterSizeBytes disk fat) (small : rawEntry.filesize.toNat < 2 ^ 31)
    (misfit : rawEntry.filesize = 0 ∨ clusterSizeBytes disk fat < rawEntry.filesize.toNat) (ptr : Word) :
    ∃ rc after m', freadAt disk fat (s.opened env (.file rawEntry) i) m ptr rawEntry.filesize 1 i =
      some (rc, s.opened { env with streams := after } (.file rawEntry) i, m') ∧ rc ≠ 1 := by
  by_cases empty : rawEntry.filesize = 0
  · refine ⟨BitVec.ofInt 32 (-einvarg), env.streams,
      fun x => m (ptr + BitVec.ofNat 32 (x - ptr).toNat), ?_, by decide⟩
    rw [freadAt, Files.fread, if_pos (.inl empty), Option.map_some]
  · obtain ⟨after, out, read⟩ := fat16Fread_long small positive (misfit.resolve_left empty) env.streams
      fun i => m (ptr + BitVec.ofNat 32 i)
    refine ⟨0, after, fun x => out (x - ptr).toNat, ?_, by decide⟩
    rw [freadAt, finds.fread_eq free disk fat _ empty, read, Option.map_some, Option.map_some]

variable {env : LoadEnv}

/-- The format is all that `process_elf_file` looks at. -/
theorem processElfFile_rc (m : Mem) {buffer : Word} (nonnull : buffer ≠ 0) :
    (processElfFile m (newElfFile buffer)).1 = if validElfFile m buffer then 0 else -eiformat := by
  have some : (newElfFile buffer).elfFileBuffer ≠ 0 := nonnull
  rw [processElfFile, if_neg some]
  by_cases valid : validElfFile m buffer = true
  · rw [if_neg (by simpa [newElfFile] using valid), if_pos valid]
    rfl
  · rw [if_pos (by simpa [newElfFile] using valid), if_neg valid]

theorem elfFileInit_whole (m : Mem) (room : env.elfFile ≠ 0) (nonnull : env.elfFileBuffer ≠ 0)
    (finds : Finds env.asElf s rawEntry) (wf : s.WellFormed) (free : freeSlot s = some i)
    (loaded : fat.Loaded disk) (contents : Contents disk fat rawEntry file)
    (reachable : Reachable fat rawEntry) (sized : 0 < file.length)
    (fits : (file.length : Int) ≤ clusterSizeBytes disk fat) :
    ∃ after, elfFileInit disk fat env s m = some (
      if validElfFile (m.place env.elfFileBuffer file) env.elfFileBuffer then
        ⟨0, closedAgain s { env.asElf with streams := after } rawEntry i, m.place env.elfFileBuffer file,
          some (.elf env.elfFileBuffer (elfPhdrs (m.place env.elfFileBuffer file) env.elfFileBuffer))⟩
      else
        ⟨-eiformat, closedAgain s { env.asElf with streams := after } rawEntry i,
          m.place env.elfFileBuffer file, none⟩) := by
  obtain ⟨after, read⟩ := freadAt_whole m env.elfFileBuffer finds free loaded contents reachable sized fits
  have closed := (finds.moved after).fclose_eq wf free
  have result := processElfFile_rc (m.place env.elfFileBuffer file) nonnull
  have buffer : (processElfFile (m.place env.elfFileBuffer file)
      (newElfFile env.elfFileBuffer)).2.elfFileBuffer = env.elfFileBuffer := processElfFile_buffer _ _
  have fd : ¬ (i : Int) < 0 := by omega
  have one : ¬ (1 : Word) ≠ 1 := by decide
  have failed : -eiformat < 0 := by decide
  refine ⟨after, ?_⟩
  simp only [elfFileInit, if_neg room, finds.fopen_eq free, finds.fstat_eq free, fat16Fstat, read, closed,
    buffer, if_neg fd, if_neg one, lt_irrefl, if_false, result]
  cases validElfFile (m.place env.elfFileBuffer file) env.elfFileBuffer with
  | true => simp only [if_true, lt_irrefl, if_false]
  | false => simp only [Bool.false_eq_true, if_false, failed, if_true]

theorem processLoadBinaryExecutable_whole (m : Mem) (nonnull : env.binaryExecutable ≠ 0)
    (finds : Finds env.asBinary s rawEntry) (wf : s.WellFormed) (free : freeSlot s = some i)
    (loaded : fat.Loaded disk) (contents : Contents disk fat rawEntry file)
    (reachable : Reachable fat rawEntry) (sized : 0 < file.length)
    (fits : (file.length : Int) ≤ clusterSizeBytes disk fat) :
    ∃ after, processLoadBinaryExecutable disk fat env s m =
      some ⟨1, closedAgain s { env.asBinary with streams := after } rawEntry i,
        m.place env.binaryExecutable file, some (.binary env.binaryExecutable rawEntry.filesize)⟩ := by
  obtain ⟨after, read⟩ := freadAt_whole m env.binaryExecutable finds free loaded contents reachable sized
    fits
  have closed := (finds.moved after).fclose_eq wf free
  have fd : ¬ (i : Int) < 0 := by omega
  have one : (1 : Word).toInt = 1 := by decide
  have success : ¬ (1 : Int) < 0 := by decide
  refine ⟨after, ?_⟩
  simp only [processLoadBinaryExecutable, finds.fopen_eq free, finds.fstat_eq free, fat16Fstat, read, closed,
    if_neg nonnull, if_neg fd, lt_irrefl, if_false, one, if_neg success]

/-- The file stays open when it was not read. -/
theorem elfFileInit_refused (m : Mem) (room : env.elfFile ≠ 0) (finds : Finds env.asElf s rawEntry)
    (free : freeSlot s = some i) (positive : 0 < clusterSizeBytes disk fat)
    (small : rawEntry.filesize.toNat < 2 ^ 31)
    (misfit : rawEntry.filesize = 0 ∨ clusterSizeBytes disk fat < rawEntry.filesize.toNat) :
    ∃ after m', elfFileInit disk fat env s m =
      some ⟨-einvarg, s.opened { env.asElf with streams := after } (.file rawEntry) i, m', none⟩ := by
  obtain ⟨rc, after, m', read, short⟩ := freadAt_refused
    (kzallocAt m env.elfFileBuffer rawEntry.filesize) finds free positive small misfit env.elfFileBuffer
  have fd : ¬ (i : Int) < 0 := by omega
  refine ⟨after, m', ?_⟩
  simp only [elfFileInit, if_neg room, finds.fopen_eq free, finds.fstat_eq free, fat16Fstat, read,
    if_neg fd, lt_irrefl, if_false, if_pos short]

end Loaders

/-! ## What the program finds -/

/-- What a program finds of its file: all of a flat binary from the load address on, and of an ELF
    file the file part of its segments, wherever no later header maps the page. -/
def Shown (file : List Byte) (m : Mem) (pages : PageMap) : Executable → Prop
  | .elf buffer phdrs =>
      ∀ phdr ∈ phdrs, WellFormedSegment file.length phdr → ∀ k < phdr.pFilesz.toNat,
        lastMapping buffer phdrs (Page.number (segmentAddr phdr k)) = some phdr →
          m (pages.translate (segmentAddr phdr k)) = segmentByte file phdr k
  | .binary _ _ =>
      ∀ k, ∀ inside : k < file.length,
        m (pages.translate (taskLoadVirtualAddress + BitVec.ofNat 32 k)) = file[k]

section Program

variable {m : Mem} {file : List Byte} {stackAddr argBlock : Word} {pages : PageMap}

theorem fileAt_place (m : Mem) {ptr : Word} (address : HeapAddress ptr) (short : file.length < 2 ^ 31) :
    FileAt (m.place ptr file) ptr file where
  aligned := address.aligned
  fits := by
    have := address.below
    omega
  bytes := fun _ inside => Mem.place_apply m ptr (by omega) inside

theorem shown_elf {buffer : Word} {phdrs : List Phdr} (image : FileAt m buffer file)
    (mapped : 0 ≤ (processMapTaskMemory stackAddr argBlock (.elf buffer phdrs) pages).1) :
    Shown file m (processMapTaskMemory stackAddr argBlock (.elf buffer phdrs) pages).2
      (.elf buffer phdrs) := by
  intro phdr _ segment k inFile last
  have space : phdr.pVaddr.toNat + k < 2 ^ 32 := by
    have := segment.space
    have := segment.sizes
    omega
  rw [PageMap.translate, processMapTaskMemory_page mapped, Executable.entry, last]
  simp only [Option.map_some, Option.getD_some]
  rw [Page.or_and_frameMask (frame_aligned buffer phdr _) (pflags_lt phdr),
    frame_segmentAddr image.aligned segment.congruent space]
  exact image.segment_byte segment inFile

theorem shown_binary {ptr size : Word} (address : HeapAddress ptr) (length : file.length = size.toNat)
    (short : file.length < 2 ^ 31) (image : FileAt m ptr file)
    (mapped : 0 ≤ (processMapTaskMemory stackAddr argBlock (.binary ptr size) pages).1) :
    Shown file m (processMapTaskMemory stackAddr argBlock (.binary ptr size) pages).2
      (.binary ptr size) := by
  intro k inside
  have loadAligned : taskLoadVirtualAddress.toNat % 4096 = 0 := by decide
  have fits : taskLoadVirtualAddress.toNat + k < 2 ^ 32 := by
    rw [show taskLoadVirtualAddress.toNat = 0x400000 from rfl]
    omega
  have below := address.below
  have covered : ((pagingAlignAddress (ptr + BitVec.ofNat 32 size.toNat)).toNat - ptr.toNat) / 4096 =
      (size.toNat + 4095) / 4096 := mapped_pages address.aligned (by omega)
  rw [BitVec.ofNat_toNat, BitVec.setWidth_eq] at covered
  rw [translate_range loadAligned address.aligned fits (by decide : userWritable.toNat < 4096),
    image.bytes k inside]
  rw [processMapTaskMemory_page mapped, Executable.entry, covered, if_pos, Option.getD_some]
  rw [number_sub loadAligned fits]
  omega

end Program

/-! ## Loading a program -/

/-- A load gets the blocks it asks for, and both of its calls of `fopen` find the file. -/
structure LoadEnv.Serves (env : LoadEnv) (s : Files) (rawEntry : FatDirectoryEntry) : Prop where
  elfFile : env.elfFile ≠ 0
  elfFileBuffer : env.elfFileBuffer ≠ 0 ∧ HeapAddress env.elfFileBuffer
  binaryExecutable : env.binaryExecutable ≠ 0 ∧ HeapAddress env.binaryExecutable
  asElf : Finds env.asElf s rawEntry
  asBinary : Finds env.asBinary s rawEntry

/-- What a file is loaded as: the memory behind a short file is looked at, too. -/
def loadedAs (env : LoadEnv) (m : Mem) (file : List Byte) : Executable :=
  if validElfFile (m.place env.elfFileBuffer file) env.elfFileBuffer then
    .elf env.elfFileBuffer (elfPhdrs (m.place env.elfFileBuffer file) env.elfFileBuffer)
  else .binary env.binaryExecutable (BitVec.ofNat 32 file.length)

section Load

variable {disk : Disk} {fat : FatVolume} {s : Files} {rawEntry : FatDirectoryEntry} {file : List Byte}
  {i : Nat} {env : LoadEnv}

/-- A file that fits in a cluster is loaded and closed again, and the program finds it. -/
theorem processLoadData_whole (m : Mem) (serves : env.Serves s rawEntry) (wf : s.WellFormed)
    (free : freeSlot s = some i) (loaded : fat.Loaded disk) (contents : Contents disk fat rawEntry file)
    (reachable : Reachable fat rawEntry) (sized : 0 < file.length)
    (fits : (file.length : Int) ≤ clusterSizeBytes disk fat) :
    ∃ result, processLoadData disk fat env s m = some result ∧ 0 ≤ result.rc ∧
      result.files.fileDescriptors = s.fileDescriptors ∧
      result.executable = some (loadedAs env m file) ∧
      ∀ stackAddr argBlock pages,
        0 ≤ (processMapTaskMemory stackAddr argBlock (loadedAs env m file) pages).1 →
          Shown file result.mem (processMapTaskMemory stackAddr argBlock (loadedAs env m file) pages).2
            (loadedAs env m file) := by
  have length := contents.length
  have lower := reachable.lower
  have upper := reachable.upper
  have short : file.length < 2 ^ 31 := by omega
  obtain ⟨after, init⟩ := elfFileInit_whole m serves.elfFile serves.elfFileBuffer.1 serves.asElf wf free
    loaded contents reachable sized fits
  rw [processLoadData, init, loadedAs]
  by_cases valid : validElfFile (m.place env.elfFileBuffer file) env.elfFileBuffer = true
  · simp only [valid, if_true]
    rw [if_neg (by decide)]
    exact ⟨_, rfl, le_rfl, rfl, rfl, fun _ _ _ => shown_elf (fileAt_place m serves.elfFileBuffer.2 short)⟩
  · have finds : Finds env.asBinary (closedAgain s { env.asElf with streams := after } rawEntry i) rawEntry :=
      (serves.asElf.moved after).again serves.asBinary
    have still : freeSlot (closedAgain s { env.asElf with streams := after } rawEntry i) = some i :=
      (freeSlot_congr rfl).trans free
    obtain ⟨after', load⟩ := processLoadBinaryExecutable_whole (m.place env.elfFileBuffer file)
      serves.binaryExecutable.1 finds (closedAgain_wellFormed (serves.asElf.moved after) wf) still loaded
      contents reachable sized fits
    have size : BitVec.ofNat 32 file.length = rawEntry.filesize := by
      rw [length, BitVec.ofNat_toNat, BitVec.setWidth_eq]
    simp only [valid, Bool.false_eq_true, if_false, if_true, size]
    exact ⟨_, load, Int.one_nonneg, rfl, rfl, fun _ _ _ =>
      shown_binary serves.binaryExecutable.2 length short (fileAt_place _ serves.binaryExecutable.2 short)⟩

end Load

/-- A load of the file of ten zero bytes, with the blocks that the kernel heap has for it. -/
def tenBytesLoad : LoadEnv where
  elfFile := 0x1002000
  elfFileBuffer := 0x1003000
  binaryExecutable := 0x1002000
  asElf := tenBytesFound
  asBinary := tenBytesFound

def noFiles : Files := ⟨fun _ => 0, fun _ => ⟨0, 0⟩, fun _ => ⟨.directory, 0⟩, ⟨⟨0⟩, ⟨0⟩, ⟨0⟩⟩⟩

theorem tenBytesLoad_serves : tenBytesLoad.Serves noFiles ⟨0, 0, 2, 10⟩ := by
  have finds : Finds tenBytesFound noFiles ⟨0, 0, 2, 10⟩ :=
    ⟨⟨by decide, by decide, by decide, fun _ _ inUse => absurd rfl inUse⟩, ⟨_, rfl, rfl, rfl⟩, rfl, rfl⟩
  exact ⟨by decide, ⟨by decide, by decide, by decide⟩, ⟨by decide, by decide, by decide⟩, finds, finds⟩

end ConiferOS.Loader
