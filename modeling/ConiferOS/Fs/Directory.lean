import ConiferOS.Fs.EndOfFile
import ConiferOS.Fs.Names
import ConiferOS.Lib.Program

/-! # Directories and paths

The part of `fat16.c` that finds an entry: directories are read into memory, searched by
name, and freed as the walk along a path goes on. Structures are kept as values together
with the pointers to their blocks, which are what is freed. The allocator is a parameter.
-/

namespace ConiferOS.Fs

open Lib

/-! ## Memory and faults -/

/-- `kzalloc` and `kfree` on a heap of type `σ`; `none` when memory is damaged. -/
structure Allocator (σ : Type) where
  kzalloc : σ → Word → Option (Word × σ)
  kfree : σ → Word → σ

/-- What the driver cannot go on from. -/
inductive Fault where
  | damage
  | nullPointer
  /-- An access outside an array. -/
  | outside
  | endless
  | divideByZero
  deriving DecidableEq

structure DriverState (σ : Type) where
  memory : σ
  streams : FatStreams

abbrev Driver (σ : Type) := Prog Fault (DriverState σ)

section Calls

variable {σ : Type}

def Allocator.alloc (A : Allocator σ) (size : Word) : Driver σ Word := fun s =>
  match A.kzalloc s.memory size with
  | none => .error .damage
  | some (ptr, memory) => .ok (ptr, { s with memory := memory })

def Allocator.free (A : Allocator σ) (ptr : Word) : Driver σ Unit := fun s =>
  .ok ((), { s with memory := A.kfree s.memory ptr })

/-- The count is over when the loop has seen every position there is. -/
def countEntries (disk : Disk) (directoryStartSector : Int) : Driver σ Int := fun s =>
  match fat16GetTotalItemsForDirectory disk directorySlots directoryStartSector with
  | none => .error .endless
  | some (total, stream) => .ok (total, { s with streams := { s.streams with directory := stream } })

def readCluster (disk : Disk) (fat : FatVolume) (chainStartCluster offset n : Int) :
    Driver σ (Int × List Byte) := fun s =>
  match fat16ReadInternal disk fat s.streams chainStartCluster offset n with
  | none => .error .divideByZero
  | some (rc, streams, bytes) => .ok ((rc, bytes), { s with streams := streams })

end Calls

/-! ## Structures -/

def fatFileSubdirectory : Byte := 0x10

def sizeofFatDirectory : Word := 16
def sizeofFatEasyDirectoryEntry : Word := 8

/-- The fields of the 32 bytes that are read. -/
def FatDirectoryEntry.ofBytes (raw : List Byte) : FatDirectoryEntry where
  attributes := raw.getD 11 0
  highFirstCluster := halfAt raw 20
  lowFirstCluster := halfAt raw 26
  filesize := halfAt raw 30 ++ halfAt raw 28

/-- Only the entry itself is read. -/
theorem FatDirectoryEntry.ofBytes_append {raw : List Byte} (length : raw.length = 32) (behind : List Byte) :
    ofBytes (raw ++ behind) = ofBytes raw := by
  have field : ∀ i < 32, (raw ++ behind).getD i 0 = raw.getD i 0 :=
    fun i inside => List.getD_append raw behind 0 i (by omega)
  simp (disch := decide) only [ofBytes, halfAt, field]

/-- A `struct fat_directory` that was allocated, and the array that it points to. -/
structure LoadedDirectory where
  ptr : Word
  entryPtr : Word
  contents : FatDirectory

/-- The union of `struct fat_easy_directory_entry`, with the type as tag. `none` is `NULL`. -/
inductive EasyItem where
  | directory (directory : Option LoadedDirectory)
  | file (entry : Option (Word × List Byte))

structure EasyEntry where
  ptr : Word
  item : EasyItem

section Driver

variable {σ : Type} (disk : Disk) (fat : FatVolume) (A : Allocator σ)

def fat16FreeDirectory : Option LoadedDirectory → Driver σ Unit
  | none => pure ()
  | some directory => do
      if directory.entryPtr ≠ 0 then
        A.free directory.entryPtr
      A.free directory.ptr

/-- `kfree` takes `NULL` too. -/
def fat16EasyDirEntryFree (easyDirEntry : EasyEntry) : Driver σ Unit := do
  match easyDirEntry.item with
  | .directory directory => fat16FreeDirectory A directory
  | .file none => A.free 0
  | .file (some (entry, _)) => A.free entry
  A.free easyDirEntry.ptr

/-- What is left of the cleared array is zero. -/
def padTo (size : Nat) (bytes : List Byte) : List Byte := bytes ++ List.replicate (size - bytes.length) 0

theorem padTo_length {size : Nat} {bytes : List Byte} (full : bytes.length = size) :
    padTo size bytes = bytes := by
  simp [padTo, full]

/-- The part of `fat16_load_fat_directory` behind the allocations. -/
def readEntries (directory entry : Word) (cluster total directorySize : Int) :
    Driver σ (Option LoadedDirectory) := do
  let read ← readCluster disk fat cluster 0x00 directorySize
  let loaded : LoadedDirectory :=
    ⟨directory, entry, ⟨padTo (BitVec.ofInt 32 directorySize).toNat read.2, total, 0, 0⟩⟩
  if read.1 < 0 then
    fat16FreeDirectory A (some loaded)
    pure none
  else
    pure (some loaded)

def fat16LoadFatDirectory (rawEntry : List Byte) : Driver σ (Option LoadedDirectory) := do
  if (FatDirectoryEntry.ofBytes rawEntry).attributes &&& fatFileSubdirectory = 0 then
    pure none
  else
    let directory ← A.alloc sizeofFatDirectory
    if directory = 0 then
      pure none
    else
      let cluster := fat16GetFirstCluster (FatDirectoryEntry.ofBytes rawEntry)
      let total ← countEntries disk (fat16ClusterToStartSector fat cluster)
      let directorySize := int32 (total * sizeofFatDirectoryEntry)
      let entry ← A.alloc (BitVec.ofInt 32 directorySize)
      if entry = 0 then
        A.free directory
        pure none
      else
        readEntries disk fat A directory entry cluster total directorySize

/-- The size that is asked for is always that of an entry. -/
def fat16CloneRawDirEntry (rawEntry : List Byte) : Driver σ (Option (Word × List Byte)) := do
  let entryCopy ← A.alloc (BitVec.ofInt 32 sizeofFatDirectoryEntry)
  if entryCopy = 0 then
    pure none
  else
    pure (some (entryCopy, rawEntry.take 32))

def fat16GetEasyEntry (rawEntry : List Byte) : Driver σ (Option EasyEntry) := do
  let easyEntry ← A.alloc sizeofFatEasyDirectoryEntry
  if easyEntry = 0 then
    pure none
  else if (FatDirectoryEntry.ofBytes rawEntry).attributes &&& fatFileSubdirectory ≠ 0 then
    let directory ← fat16LoadFatDirectory disk fat A rawEntry
    pure (some ⟨easyEntry, .directory directory⟩)
  else
    let entry ← fat16CloneRawDirEntry A rawEntry
    pure (some ⟨easyEntry, .file entry⟩)

/-- Memory from `directory->entry[i]` on. -/
def FatDirectory.from (directory : FatDirectory) (i : Nat) : List Byte := directory.entry.drop (32 * i)

/-- The `for` loop of `fat16_find_entry_in_directory`. -/
def findEntry (directory : FatDirectory) (name : List Byte) :
    (remaining i : Nat) → Option EasyEntry → Driver σ (Option EasyEntry)
  | 0, _, entry => pure entry
  | remaining + 1, i, entry =>
      match fat16GetFilename (directory.from i) maxFilePathChars with
      | none => throw .outside
      | some tmpFilename =>
          if strnicmp (cstr tmpFilename) (cstr name) maxFilePathChars = 0 then do
            let entry ← fat16GetEasyEntry disk fat A (directory.from i)
            findEntry directory name remaining (i + 1) entry
          else findEntry directory name remaining (i + 1) entry

def fat16FindEntryInDirectory (directory : FatDirectory) (name : List Byte) :
    Driver σ (Option EasyEntry) :=
  findEntry disk fat A directory name directory.total.toNat 0 none

/-- The `while` loop of `fat16_get_directory_entry`, over the parts that are left. -/
def walkPath : Option EasyEntry → List (List Byte) → Driver σ (Option EasyEntry)
  | currPartEntry, [] => pure currPartEntry
  | none, _ :: _ => throw .nullPointer
  | some currPartEntry, part :: nextPathPart =>
      match currPartEntry.item with
      | .file _ => pure none
      | .directory none => throw .nullPointer
      | .directory (some directory) => do
          let tmpEntry ← fat16FindEntryInDirectory disk fat A directory.contents part
          fat16EasyDirEntryFree A currPartEntry
          walkPath tmpEntry nextPathPart

def fat16GetDirectoryEntry (part : List Byte) (next : List (List Byte)) : Driver σ (Option EasyEntry) := do
  let firstPartEntry ← fat16FindEntryInDirectory disk fat A fat.rootDirectory part
  match firstPartEntry with
  | none => pure none
  | some firstPartEntry => walkPath disk fat A (some firstPartEntry) next

end Driver

/-! ## Calls that return -/

section Calls

variable {σ : Type} {A : Allocator σ} {disk : Disk} {fat : FatVolume}

/-- Every request is met. -/
def Allocator.Serves (A : Allocator σ) : Prop :=
  ∀ memory size, ∃ ptr memory', A.kzalloc memory size = some (ptr, memory') ∧ ptr ≠ 0

theorem alloc_run {s : DriverState σ} {size ptr : Word} {later : σ}
    (served : A.kzalloc s.memory size = some (ptr, later)) :
    (A.alloc size).run s = .ok (ptr, { s with memory := later }) := by
  simp only [Allocator.alloc, StateT.run, served]

theorem alloc_yields (serves : A.Serves) (size : Word) (s : DriverState σ) :
    (A.alloc size).Yields s fun ptr _ => ptr ≠ 0 := by
  obtain ⟨ptr, memory, served, nonnull⟩ := serves s.memory size
  exact ⟨ptr, { s with memory := memory }, alloc_run served, nonnull⟩

theorem alloc_ensures (size : Word) (s : DriverState σ) :
    (A.alloc size).Ensures s fun ptr _ => A.Serves → ptr ≠ 0 := by
  intro ptr s' run serves
  exact (alloc_yields serves size s).ensures ptr s' run

theorem free_yields (ptr : Word) (s : DriverState σ) : (A.free ptr).Yields s fun _ _ => True :=
  ⟨(), _, rfl, trivial⟩

theorem fat16FreeDirectory_yields (directory : Option LoadedDirectory) (s : DriverState σ) :
    (fat16FreeDirectory A directory).Yields s fun _ _ => True := by
  cases directory with
  | none => exact .pure trivial
  | some directory =>
      rw [fat16FreeDirectory]
      split
      case isTrue => exact (free_yields _ s).bind fun _ s' _ => free_yields _ s'
      case isFalse => exact free_yields _ s

theorem fat16EasyDirEntryFree_yields (easyDirEntry : EasyEntry) (s : DriverState σ) :
    (fat16EasyDirEntryFree A easyDirEntry).Yields s fun _ _ => True := by
  rw [fat16EasyDirEntryFree]
  split
  · exact (fat16FreeDirectory_yields _ s).bind fun _ s' _ => free_yields _ s'
  · exact (free_yields _ s).bind fun _ s' _ => free_yields _ s'
  · exact (free_yields _ s).bind fun _ s' _ => free_yields _ s'

end Calls

/-! ## Loading a directory -/

section Loading

variable {σ : Type} (disk : Disk) (fat : FatVolume)

def IsSubdirectory (rawEntry : List Byte) : Prop :=
  (FatDirectoryEntry.ofBytes rawEntry).attributes &&& fatFileSubdirectory ≠ 0

instance (rawEntry : List Byte) : Decidable (IsSubdirectory rawEntry) := inferInstanceAs (Decidable (_ ≠ _))

/-- Where the entries of a subdirectory are. -/
def subdirectoryPos (rawEntry : List Byte) : Int :=
  fat16SectorToAbsolutePos disk
    (fat16ClusterToStartSector fat (fat16GetFirstCluster (FatDirectoryEntry.ofBytes rawEntry)))

/-- `directory_size`, when the entries end in slot `t`. -/
def subdirectorySize (rawEntry : List Byte) (t : Nat) : Int :=
  int32 (liveSlots disk (subdirectoryPos disk fat rawEntry) t * sizeofFatDirectoryEntry)

def loadedSubdirectory (rawEntry : List Byte) (t : Nat) : FatDirectory where
  entry := padTo (BitVec.ofInt 32 (subdirectorySize disk fat rawEntry t)).toNat
    (piece disk fat (fat16GetFirstCluster (FatDirectoryEntry.ofBytes rawEntry)) 0
      (subdirectorySize disk fat rawEntry t))
  total := liveSlots disk (subdirectoryPos disk fat rawEntry) t
  sector := 0
  endSector := 0

/-- The load comes to an end. -/
def LoadEnds (rawEntry : List Byte) : Prop :=
  0 < clusterSizeBytes disk fat ∧ ∃ t, EndsAt disk (subdirectoryPos disk fat rawEntry) t

/-- What it ends with. A directory of more than a cluster is not loaded. -/
def LoadsAs (rawEntry : List Byte) (contents : Option FatDirectory) : Prop :=
  0 < clusterSizeBytes disk fat ∧ ∃ t, EndsAt disk (subdirectoryPos disk fat rawEntry) t ∧
    contents = if subdirectorySize disk fat rawEntry t ≤ clusterSizeBytes disk fat then
      some (loadedSubdirectory disk fat rawEntry t) else none

variable {disk fat} {rawEntry : List Byte}

theorem LoadsAs.ends {contents : Option FatDirectory} (loads : LoadsAs disk fat rawEntry contents) :
    LoadEnds disk fat rawEntry := by
  obtain ⟨positive, t, ends, -⟩ := loads
  exact ⟨positive, t, ends⟩

theorem LoadEnds.loads (ends : LoadEnds disk fat rawEntry) :
    ∃ contents, LoadsAs disk fat rawEntry contents := by
  obtain ⟨positive, t, ends⟩ := ends
  exact ⟨_, positive, t, ends, rfl⟩

theorem LoadsAs.unique {contents contents' : Option FatDirectory}
    (loads : LoadsAs disk fat rawEntry contents) (loads' : LoadsAs disk fat rawEntry contents') :
    contents = contents' := by
  obtain ⟨-, t, ends, same⟩ := loads
  obtain ⟨-, t', ends', same'⟩ := loads'
  rw [same, same', ends.unique ends']

theorem countEntries_yields {sector : Int} {t : Nat}
    (ends : EndsAt disk (fat16SectorToAbsolutePos disk sector) t) (s : DriverState σ) :
    (countEntries disk sector).Yields s
      fun total _ => total = liveSlots disk (fat16SectorToAbsolutePos disk sector) t := by
  obtain ⟨stream, count⟩ := fat16GetTotalItemsForDirectory_ends ends
  refine ⟨_, { s with streams := { s.streams with directory := stream } }, ?_, Eq.refl _⟩
  rw [StateT.run, countEntries, count]

theorem countEntries_ensures (sector : Int) (s : DriverState σ) :
    (countEntries disk sector).Ensures s fun total _ =>
      ∃ t, EndsAt disk (fat16SectorToAbsolutePos disk sector) t ∧
        total = liveSlots disk (fat16SectorToAbsolutePos disk sector) t := by
  intro total s' run
  simp only [countEntries, StateT.run] at run
  split at run
  · cases run
  · rename_i count
    cases run
    exact fat16GetTotalItemsForDirectory_cases count

/-- A read from the start of a cluster chain succeeds when it ends in the first cluster. -/
theorem readCluster_yields (positive : 0 < clusterSizeBytes disk fat) {start : Int} (first : 0 ≤ start)
    (n : Int) (s : DriverState σ) :
    (readCluster disk fat start 0 n).Yields s fun read _ =>
      if n ≤ clusterSizeBytes disk fat then read = (0, piece disk fat start 0 n) else read.1 < 0 := by
  split
  case isTrue short =>
    obtain ⟨after, read⟩ := read_short positive first positive short s.streams
    rw [firstPiece_eq le_rfl positive short] at read
    refine ⟨_, { s with streams := after }, ?_, rfl⟩
    simp only [readCluster, StateT.run, read]
  case isFalse long =>
    obtain ⟨after, read⟩ := read_long positive first le_rfl positive (not_le.mp long) s.streams
    refine ⟨(-eio, piece disk fat start 0 (clusterSizeBytes disk fat)), { s with streams := after }, ?_, ?_⟩
    · rw [StateT.run, readCluster, read]
    · exact show -eio < 0 by decide

theorem readCluster_positive {start n : Int} {s : DriverState σ} {read : (Int × List Byte) × DriverState σ}
    (run : (readCluster disk fat start 0 n).run s = .ok read) : 0 < clusterSizeBytes disk fat := by
  by_contra zero
  have size : clusterSizeBytes disk fat = fat.header.sectorsPerCluster.toNat * 512 := rfl
  rw [StateT.run, readCluster, fat16ReadInternal_faults (by omega)] at run
  cases run

variable {A : Allocator σ}

/-- The array is filled from the first cluster, which has to be large enough. -/
theorem readEntries_yields (positive : 0 < clusterSizeBytes disk fat) (directory entry : Word)
    {cluster : Int} (first : 0 ≤ cluster) (total size : Int) (s : DriverState σ) :
    (readEntries disk fat A directory entry cluster total size).Yields s fun loaded _ =>
      loaded.map (·.contents) = if size ≤ clusterSizeBytes disk fat then
        some ⟨padTo (BitVec.ofInt 32 size).toNat (piece disk fat cluster 0 size), total, 0, 0⟩
      else none := by
  refine (readCluster_yields positive first size s).bind fun read s result => ?_
  split at result
  case isTrue short =>
    subst result
    exact .pure (if_pos short).symm
  case isFalse long =>
    simp only [if_pos result, if_neg long]
    exact (fat16FreeDirectory_yields _ s).bind fun _ _ _ => .pure rfl

theorem readEntries_ensures (directory entry : Word) {cluster : Int} (first : 0 ≤ cluster)
    (total size : Int) (s : DriverState σ) :
    (readEntries disk fat A directory entry cluster total size).Ensures s fun loaded _ =>
      0 < clusterSizeBytes disk fat ∧ loaded.map (·.contents) = if size ≤ clusterSizeBytes disk fat then
        some ⟨padTo (BitVec.ofInt 32 size).toNat (piece disk fat cluster 0 size), total, 0, 0⟩
      else none := by
  intro loaded s' run
  obtain ⟨read, s₁, reading, -⟩ := Prog.run_bind_eq_ok.mp run
  have positive := readCluster_positive reading
  exact ⟨positive, (readEntries_yields positive directory entry first total size s).ensures loaded s' run⟩

theorem fat16LoadFatDirectory_yields (serves : A.Serves) (subdirectory : IsSubdirectory rawEntry)
    {contents : Option FatDirectory} (loads : LoadsAs disk fat rawEntry contents) (s : DriverState σ) :
    (fat16LoadFatDirectory disk fat A rawEntry).Yields s
      fun directory _ => directory.map (·.contents) = contents := by
  obtain ⟨positive, t, ends, same⟩ := loads
  rw [same, fat16LoadFatDirectory, if_neg subdirectory]
  refine (alloc_yields serves _ s).bind fun directory s nonnull => ?_
  rw [if_neg nonnull]
  refine (countEntries_yields ends s).bind fun total s counted => ?_
  subst counted
  refine (alloc_yields serves _ s).bind fun entry s nonnull => ?_
  rw [if_neg nonnull]
  exact readEntries_yields positive directory entry (Int.natCast_nonneg _) _ _ s

/-- What is known of a load that returned; with room for everything, also when it failed. -/
theorem fat16LoadFatDirectory_ensures (subdirectory : IsSubdirectory rawEntry) (s : DriverState σ) :
    (fat16LoadFatDirectory disk fat A rawEntry).Ensures s fun directory _ =>
      directory.isSome ∨ A.Serves → LoadsAs disk fat rawEntry (directory.map (·.contents)) := by
  have refused : ∀ {ptr : Word}, (A.Serves → ptr ≠ 0) → ptr = 0 →
      ¬ ((none : Option LoadedDirectory).isSome ∨ A.Serves) := by
    rintro ptr served null (loaded | serves)
    · cases loaded
    · exact served serves null
  rw [fat16LoadFatDirectory, if_neg subdirectory]
  refine (alloc_ensures _ s).bind fun directory s served => ?_
  split
  case isTrue null => exact .pure fun either => absurd either (refused served null)
  case isFalse =>
    refine (countEntries_ensures _ s).bind fun total s counted => ?_
    obtain ⟨t, ends, total⟩ := counted
    subst total
    refine (alloc_ensures _ s).bind fun entry s served => ?_
    split
    case isTrue null =>
      exact .next fun _ _ => .pure fun either => absurd either (refused served null)
    case isFalse =>
      intro loaded s' run either
      obtain ⟨positive, result⟩ :=
        readEntries_ensures directory entry (Int.natCast_nonneg _) _ _ s loaded s' run
      exact ⟨positive, t, ends, result⟩

end Loading

/-! ## Searching a directory -/

/-- The name of entry `i` agrees with `name` up to case, as far as the buffer goes. -/
def FatDirectory.named (directory : FatDirectory) (name : List Byte) (i : Nat) : Bool :=
  match fat16GetFilename (directory.from i) maxFilePathChars with
  | none => false
  | some tmpFilename => strnicmp (cstr tmpFilename) (cstr name) maxFilePathChars = 0

/-- The last of the first `n` entries with a name. -/
def FatDirectory.lastNamed (directory : FatDirectory) (name : List Byte) : (n : Nat) → Option (List Byte)
  | 0 => none
  | n + 1 => if directory.named name n then some (directory.from n) else directory.lastNamed name n

theorem FatDirectory.lastNamed_named {directory : FatDirectory} {name : List Byte} {n : Nat}
    (named : directory.named name n = true) :
    directory.lastNamed name (n + 1) = some (directory.from n) :=
  if_pos named

theorem FatDirectory.lastNamed_other {directory : FatDirectory} {name : List Byte} {n : Nat}
    (other : directory.named name n = false) :
    directory.lastNamed name (n + 1) = directory.lastNamed name n :=
  if_neg (Bool.eq_false_iff.mp other)

/-- The entry that a name stands for in a directory. -/
def FatDirectory.lookup (directory : FatDirectory) (name : List Byte) : Option (List Byte) :=
  directory.lastNamed name directory.total.toNat

/-- The structure for an entry: its directory is loaded, or it is copied. -/
def EasyEntry.MadeFrom (disk : Disk) (fat : FatVolume) (rawEntry : List Byte) (easyEntry : EasyEntry) :
    Prop :=
  match easyEntry.item with
  | .directory directory =>
      IsSubdirectory rawEntry ∧ LoadsAs disk fat rawEntry (directory.map (·.contents))
  | .file entry => ¬ IsSubdirectory rawEntry ∧ ∃ ptr, entry = some (ptr, rawEntry.take 32)

/-- The structure for what was found, if something was. -/
def Made (disk : Disk) (fat : FatVolume) (found : Option (List Byte)) (entry : Option EasyEntry) : Prop :=
  match found with
  | none => entry = none
  | some rawEntry => ∃ easyEntry, entry = some easyEntry ∧ easyEntry.MadeFrom disk fat rawEntry

theorem Made.isSome_iff {disk : Disk} {fat : FatVolume} {found : Option (List Byte)}
    {entry : Option EasyEntry} (made : Made disk fat found entry) : entry.isSome ↔ found.isSome := by
  cases found with
  | none => cases made; exact Iff.rfl
  | some rawEntry =>
      obtain ⟨easyEntry, rfl, -⟩ := made
      exact iff_of_true rfl rfl

theorem Made.eq_none {disk : Disk} {fat : FatVolume} {found : Option (List Byte)}
    (made : Made disk fat found none) : found = none := by
  simpa using made.isSome_iff

/-- The first `n` names are read in the array, and what has the name can be loaded. -/
structure SearchableTo (disk : Disk) (fat : FatVolume) (directory : FatDirectory) (name : List Byte)
    (n : Nat) : Prop where
  read : ∀ i < n, (fat16GetFilename (directory.from i) maxFilePathChars).isSome
  loads : ∀ i < n, directory.named name i → IsSubdirectory (directory.from i) →
    LoadEnds disk fat (directory.from i)

def Searchable (disk : Disk) (fat : FatVolume) (directory : FatDirectory) (name : List Byte) : Prop :=
  SearchableTo disk fat directory name directory.total.toNat

section Searching

variable {σ : Type} {A : Allocator σ} {disk : Disk} {fat : FatVolume} {rawEntry : List Byte}

theorem fat16CloneRawDirEntry_yields (serves : A.Serves) (rawEntry : List Byte) (s : DriverState σ) :
    (fat16CloneRawDirEntry A rawEntry).Yields s fun entry _ =>
      ∃ ptr, entry = some (ptr, rawEntry.take 32) := by
  refine (alloc_yields serves _ s).bind fun entryCopy s nonnull => ?_
  rw [if_neg nonnull]
  exact .pure ⟨entryCopy, rfl⟩

theorem fat16GetEasyEntry_yields (serves : A.Serves)
    (loads : IsSubdirectory rawEntry → LoadEnds disk fat rawEntry) (s : DriverState σ) :
    (fat16GetEasyEntry disk fat A rawEntry).Yields s fun entry _ => Made disk fat (some rawEntry) entry := by
  refine (alloc_yields serves _ s).bind fun easyEntry s nonnull => ?_
  rw [if_neg nonnull]
  split
  case isTrue subdirectory =>
    obtain ⟨contents, loads⟩ := (loads subdirectory).loads
    refine (fat16LoadFatDirectory_yields serves subdirectory loads s).bind fun directory s loaded => ?_
    exact .pure ⟨_, rfl, subdirectory, loaded ▸ loads⟩
  case isFalse file =>
    refine (fat16CloneRawDirEntry_yields serves rawEntry s).bind fun entry s copied => ?_
    exact .pure ⟨_, rfl, file, copied⟩

theorem fat16GetEasyEntry_ensures (serves : A.Serves) (rawEntry : List Byte) (s : DriverState σ) :
    (fat16GetEasyEntry disk fat A rawEntry).Ensures s fun entry _ => Made disk fat (some rawEntry) entry := by
  refine (alloc_yields serves _ s).ensures.bind fun easyEntry s nonnull => ?_
  rw [if_neg nonnull]
  split
  case isTrue subdirectory =>
    refine (fat16LoadFatDirectory_ensures subdirectory s).bind fun directory s loaded => ?_
    exact .pure ⟨_, rfl, subdirectory, loaded (.inr serves)⟩
  case isFalse file =>
    refine (fat16CloneRawDirEntry_yields serves rawEntry s).ensures.bind fun entry s copied => ?_
    exact .pure ⟨_, rfl, file, copied⟩

theorem EasyEntry.MadeFrom.of_subdirectory {easyEntry : EasyEntry}
    (made : easyEntry.MadeFrom disk fat rawEntry) (subdirectory : IsSubdirectory rawEntry) :
    ∃ directory, easyEntry.item = .directory directory ∧
      LoadsAs disk fat rawEntry (directory.map (·.contents)) := by
  unfold MadeFrom at made
  split at made
  · rename_i directory item
    exact ⟨directory, item, made.2⟩
  · exact absurd subdirectory made.1

theorem EasyEntry.MadeFrom.of_file {easyEntry : EasyEntry} (made : easyEntry.MadeFrom disk fat rawEntry)
    (file : ¬ IsSubdirectory rawEntry) : ∃ entry, easyEntry.item = .file entry := by
  unfold MadeFrom at made
  split at made
  · exact absurd made.1 file
  · rename_i entry item
    exact ⟨entry, item⟩

variable {directory : FatDirectory} {name : List Byte}

/-! One round of the loop, by what it sees of entry `i`. -/

theorem findEntry_unread {i : Nat} (unread : fat16GetFilename (directory.from i) maxFilePathChars = none)
    (remaining : Nat) (entry : Option EasyEntry) :
    findEntry disk fat A directory name (remaining + 1) i entry = throw .outside := by
  rw [findEntry, unread]

theorem findEntry_named {i : Nat} (named : directory.named name i = true) (remaining : Nat)
    (entry : Option EasyEntry) :
    findEntry disk fat A directory name (remaining + 1) i entry =
      fat16GetEasyEntry disk fat A (directory.from i) >>=
        findEntry disk fat A directory name remaining (i + 1) := by
  unfold FatDirectory.named at named
  split at named
  · cases named
  · rename_i tmpFilename read
    rw [findEntry, read]
    exact if_pos (of_decide_eq_true named)

theorem findEntry_other {i : Nat} (read : (fat16GetFilename (directory.from i) maxFilePathChars).isSome)
    (other : directory.named name i = false) (remaining : Nat) (entry : Option EasyEntry) :
    findEntry disk fat A directory name (remaining + 1) i entry =
      findEntry disk fat A directory name remaining (i + 1) entry := by
  obtain ⟨tmpFilename, read⟩ := Option.isSome_iff_exists.mp read
  rw [FatDirectory.named, read] at other
  rw [findEntry, read]
  exact if_neg (of_decide_eq_false other)

theorem SearchableTo.succ {n : Nat} (searchable : SearchableTo disk fat directory name n)
    (read : (fat16GetFilename (directory.from n) maxFilePathChars).isSome)
    (loads : directory.named name n → IsSubdirectory (directory.from n) →
      LoadEnds disk fat (directory.from n)) :
    SearchableTo disk fat directory name (n + 1) := by
  constructor
  · intro i bound
    rcases Nat.lt_succ_iff_lt_or_eq.mp bound with before | rfl
    · exact searchable.read i before
    · exact read
  · intro i bound
    rcases Nat.lt_succ_iff_lt_or_eq.mp bound with before | rfl
    · exact searchable.loads i before
    · exact loads

/-- Induction on the entries left; the last match before `i` is at hand. -/
theorem findEntry_yields (serves : A.Serves) {remaining i : Nat} {entry : Option EasyEntry}
    (searchable : SearchableTo disk fat directory name (i + remaining))
    (made : Made disk fat (directory.lastNamed name i) entry) (s : DriverState σ) :
    (findEntry disk fat A directory name remaining i entry).Yields s fun entry _ =>
      Made disk fat (directory.lastNamed name (i + remaining)) entry := by
  induction remaining generalizing i entry s with
  | zero => exact .pure made
  | succ remaining ih =>
      have next : i + (remaining + 1) = i + 1 + remaining := by omega
      rw [next] at searchable ⊢
      cases named : directory.named name i with
      | true =>
          rw [findEntry_named named]
          refine (fat16GetEasyEntry_yields serves (searchable.loads i (by omega) named) s).bind ?_
          intro entry s made
          exact ih searchable (FatDirectory.lastNamed_named named ▸ made) s
      | false =>
          rw [findEntry_other (searchable.read i (by omega)) named]
          exact ih searchable (FatDirectory.lastNamed_other named ▸ made) s

/-- A search that is through has read every name. -/
theorem findEntry_ensures (serves : A.Serves) (remaining : Nat) {i : Nat} {entry : Option EasyEntry}
    (searchable : SearchableTo disk fat directory name i)
    (made : Made disk fat (directory.lastNamed name i) entry) (s : DriverState σ) :
    (findEntry disk fat A directory name remaining i entry).Ensures s fun entry _ =>
      SearchableTo disk fat directory name (i + remaining) ∧
        Made disk fat (directory.lastNamed name (i + remaining)) entry := by
  induction remaining generalizing i entry s with
  | zero => exact .pure ⟨searchable, made⟩
  | succ remaining ih =>
      have next : i + (remaining + 1) = i + 1 + remaining := by omega
      rw [next]
      cases read : fat16GetFilename (directory.from i) maxFilePathChars with
      | none =>
          rw [findEntry_unread read]
          exact .throw _
      | some tmpFilename =>
          have read : (fat16GetFilename (directory.from i) maxFilePathChars).isSome := by rw [read]; rfl
          cases named : directory.named name i with
          | true =>
              rw [findEntry_named named]
              refine (fat16GetEasyEntry_ensures serves (directory.from i) s).bind fun entry s made => ?_
              have loads : IsSubdirectory (directory.from i) → LoadEnds disk fat (directory.from i) := by
                intro subdirectory
                obtain ⟨easyEntry, -, made⟩ := made
                obtain ⟨inner, -, loads⟩ := made.of_subdirectory subdirectory
                exact loads.ends
              exact ih (searchable.succ read fun _ => loads) (FatDirectory.lastNamed_named named ▸ made) s
          | false =>
              rw [findEntry_other read named]
              have searchable := searchable.succ read fun same => by simp [named] at same
              exact ih searchable (FatDirectory.lastNamed_other named ▸ made) s

theorem find_yields (serves : A.Serves) (searchable : Searchable disk fat directory name)
    (s : DriverState σ) :
    (fat16FindEntryInDirectory disk fat A directory name).Yields s fun entry _ =>
      Made disk fat (directory.lookup name) entry := by
  have whole := findEntry_yields serves (i := 0) (by rwa [Nat.zero_add]) (rfl : Made disk fat none none) s
  rwa [Nat.zero_add] at whole

theorem find_ensures (serves : A.Serves) (directory : FatDirectory) (name : List Byte) (s : DriverState σ) :
    (fat16FindEntryInDirectory disk fat A directory name).Ensures s fun entry _ =>
      Searchable disk fat directory name ∧ Made disk fat (directory.lookup name) entry := by
  have start : SearchableTo disk fat directory name 0 := ⟨fun i bound => by omega, fun i bound => by omega⟩
  have whole := findEntry_ensures serves directory.total.toNat start
    (rfl : Made disk fat none none) s
  rwa [Nat.zero_add] at whole

end Searching

end ConiferOS.Fs
