import ConiferOS.Fs.PathWalk

/-! # Lookup among deleted entries

The count of a directory leaves deleted entries out, but as many raw entries are loaded
and searched, deleted or not. So each deleted entry pushes a live one out of the array, as
long as there are live ones behind it, and is itself found under what is left of its name.
-/

namespace ConiferOS.Fs

open Lib

/-! ## Directories on the disk -/

def Deleted (rawEntry : List Byte) : Prop := rawEntry.headD 0 = 0xE5

instance (rawEntry : List Byte) : Decidable (Deleted rawEntry) := inferInstanceAs (Decidable (_ = _))

/-- Entries of 32 bytes that lie on the disk from byte `pos` on, where an `int` can point,
    and the zero behind them. -/
structure StoredAt (disk : Disk) (pos : Nat) (entries : List (List Byte)) : Prop where
  length : ∀ e ∈ entries, e.length = 32
  begun : ∀ e ∈ entries, e.headD 0 ≠ 0
  bytes : diskBytes disk pos (32 * entries.length) = entries.flatten
  ended : diskByte disk (pos + 32 * entries.length) = 0
  fits : pos + 32 * entries.length + 32 ≤ 2 ^ 31

/-- The entries that are in use. -/
def liveCount (entries : List (List Byte)) : Nat := entries.countP fun e => ¬ Deleted e

/-- Memory from entry `j` on, if all of the directory were there. -/
def entriesFrom (entries : List (List Byte)) (j : Nat) : List Byte := (entries.drop j).flatten ++ [0]

section Stored

variable {disk : Disk} {pos : Nat} {entries : List (List Byte)}

theorem flatten_drop (length : ∀ e ∈ entries, e.length = 32) (i : Nat) :
    entries.flatten.drop (32 * i) = (entries.drop i).flatten := by
  induction entries generalizing i with
  | nil => simp
  | cons e entries ih =>
      obtain ⟨here, others⟩ := List.forall_mem_cons.mp length
      cases i with
      | zero => rfl
      | succ i =>
          have skip : 32 * (i + 1) = e.length + 32 * i := by omega
          rw [List.flatten_cons, skip, ← List.drop_drop, List.drop_left, ih others, List.drop_succ_cons]

theorem flatten_length (length : ∀ e ∈ entries, e.length = 32) :
    entries.flatten.length = 32 * entries.length := by
  induction entries with
  | nil => rfl
  | cons e entries ih =>
      obtain ⟨here, others⟩ := List.forall_mem_cons.mp length
      rw [List.flatten_cons, List.length_append, here, ih others, List.length_cons]
      omega

theorem diskBytes_drop (disk : Disk) (pos k n : Nat) :
    (diskBytes disk pos (k + n)).drop k = diskBytes disk (pos + k) n := by
  have length : (diskBytes disk pos k).length = k := by simp [diskBytes]
  rw [diskBytes_add, List.drop_left' length]

theorem diskBytes_headD (disk : Disk) (pos n : Nat) :
    (diskBytes disk pos (n + 1)).headD 0 = diskByte disk pos := by
  simp [diskBytes, List.range_succ_eq_map]

namespace StoredAt

theorem mark (stored : StoredAt disk pos entries) {i : Nat} {e : List Byte} (here : entries[i]? = some e) :
    slotMark disk pos i = e.headD 0 := by
  obtain ⟨inside, rfl⟩ := List.getElem?_eq_some_iff.mp here
  have fits := stored.fits
  have size : 32 * entries.length = 32 * i + (32 * (entries.length - i) - 1 + 1) := by omega
  have bytes := congrArg (List.drop (32 * i)) stored.bytes
  rw [flatten_drop stored.length, size, diskBytes_drop, List.drop_eq_getElem_cons inside,
    List.flatten_cons] at bytes
  have first := congrArg (List.headD · 0) bytes
  have long := stored.length _ (List.getElem_mem inside)
  rw [slotMark_eq disk pos i (by omega), ← diskBytes_headD, first]
  cases entry : entries[i] with
  | nil => rw [entry] at long; cases long
  | cons c e => rfl

theorem endsAt (stored : StoredAt disk pos entries) : EndsAt disk pos entries.length := by
  constructor
  · rw [slotMark_eq disk pos entries.length stored.fits]
    exact stored.ended
  · intro i before
    rw [stored.mark (List.getElem?_eq_getElem before)]
    exact stored.begun _ (List.getElem_mem before)

theorem marks (stored : StoredAt disk pos entries) :
    (List.range entries.length).map (slotMark disk pos) = entries.map (·.headD 0) := by
  apply List.ext_getElem
  · simp
  · intro i inside inside'
    have here : i < entries.length := by simpa using inside
    simpa using stored.mark (List.getElem?_eq_getElem here)

theorem liveSlots_eq (stored : StoredAt disk pos entries) :
    liveSlots disk pos entries.length = liveCount entries := by
  have count := congrArg (List.countP fun c => decide (c ≠ 0xE5)) stored.marks
  rw [List.countP_map, List.countP_map] at count
  exact count

/-- The directory with its end. -/
theorem bytes_ended (stored : StoredAt disk pos entries) :
    diskBytes disk pos (32 * entries.length + 1) = entries.flatten ++ [0] := by
  rw [diskBytes_add, stored.bytes, ← stored.ended]
  rfl

end StoredAt

end Stored

/-! ## Directories in memory -/

/-- A directory that one of the two functions has loaded from byte `pos` on. -/
inductive LoadedFrom (disk : Disk) (fat : FatVolume) (pos : Nat) : FatDirectory → Prop where
  | root {fuel served directory stream}
      (load : fat16GetRootDirectory disk fuel served fat.header = some (.ok directory, stream))
      (place : rootPos disk fat.header = pos) : LoadedFrom disk fat pos directory
  | subdirectory {σ : Type} {A : Allocator σ} {rawEntry s loaded s'}
      (load : (fat16LoadFatDirectory disk fat A rawEntry).run s = .ok (some loaded, s'))
      (place : subdirectoryPos disk fat rawEntry = pos) : LoadedFrom disk fat pos loaded.contents

/-- How much of the directory is in memory: as many entries are searched as are in use, and
    the array is cut off, or goes on behind the end. -/
structure Holds (directory : FatDirectory) (entries : List (List Byte)) : Prop where
  total : directory.total = liveCount entries
  whole : 32 ∣ directory.entry.length
  agrees : directory.entry <+: entriesFrom entries 0 ∨ entriesFrom entries 0 <+: directory.entry

section Loaded

variable {disk : Disk} {fat : FatVolume} {pos : Nat} {entries : List (List Byte)} {directory : FatDirectory}

theorem liveCount_le (entries : List (List Byte)) : liveCount entries ≤ entries.length :=
  List.countP_le_length

/-- A read from the start of the directory. -/
theorem StoredAt.read_agrees (stored : StoredAt disk pos entries) (total : Nat) :
    (diskStreamRead disk ⟨pos⟩ total).2.2 <+: entriesFrom entries 0 ∨
      entriesFrom entries 0 <+: (diskStreamRead disk ⟨pos⟩ total).2.2 := by
  have fits := stored.fits
  have bytes := stored.bytes_ended
  rw [entriesFrom, List.drop_zero]
  rcases Nat.le_total total (32 * entries.length + 1) with short | long
  · left
    rw [diskStreamRead_eq disk pos total (by omega), ← bytes, ← diskBytes_take disk pos short]
    exact List.take_prefix _ _
  · right
    rw [← bytes, ← diskStreamRead_take disk pos total long (by omega)]
    exact List.take_prefix _ _

theorem holds_root (stored : StoredAt disk pos entries) {fuel : Nat} {served : Bool} {stream : DiskStream}
    (load : fat16GetRootDirectory disk fuel served fat.header = some (.ok directory, stream))
    (place : rootPos disk fat.header = pos) : Holds directory entries := by
  obtain ⟨t, ends, rfl⟩ := fat16GetRootDirectory_cases load
  have length : (loadedRoot disk fat.header t).entry.length = 32 * fat.header.rootDirEntries.toNat :=
    loadedRoot_length t
  rw [place] at ends
  obtain rfl := ends.unique stored.endsAt
  refine ⟨?_, ⟨_, length⟩, ?_⟩
  · rw [loadedRoot, place, stored.liveSlots_eq]
  · have size : rootDirSize fat.header = ((32 * fat.header.rootDirEntries.toNat : Nat) : Int) := by
      simp only [rootDirSize, sizeofFatDirectoryEntry]
      omega
    rw [loadedRoot, place, size]
    exact stored.read_agrees _

theorem holds_subdirectory (stored : StoredAt disk pos entries) {rawEntry : List Byte}
    (loads : LoadsAs disk fat rawEntry (some directory)) (place : subdirectoryPos disk fat rawEntry = pos) :
    Holds directory entries := by
  obtain ⟨positive, t, ends, loaded⟩ := loads
  rw [place] at ends
  obtain rfl := ends.unique stored.endsAt
  have fits := stored.fits
  have most := liveCount_le entries
  have size : subdirectorySize disk fat rawEntry entries.length =
      ((32 * liveCount entries : Nat) : Int) := by
    rw [subdirectorySize, place, stored.liveSlots_eq, sizeofFatDirectoryEntry, int32_of_mem] <;> omega
  split at loaded
  case isTrue =>
    cases loaded
    have start : int32 (fat16ClusterToStartSector fat (fat16GetFirstCluster (.ofBytes rawEntry)) *
        disk.sectorSize + 0) = pos := by
      rw [Int.add_zero]
      exact place
    have room : (BitVec.ofInt 32 ((32 * liveCount entries : Nat) : Int)).toNat = 32 * liveCount entries := by
      rw [BitVec.ofInt_natCast, BitVec.toNat_ofNat]
      omega
    have array : (loadedSubdirectory disk fat rawEntry entries.length).entry =
        (diskStreamRead disk ⟨pos⟩ ((32 * liveCount entries : Nat) : Int)).2.2 := by
      have full : (piece disk fat (fat16GetFirstCluster (.ofBytes rawEntry)) 0
          ((32 * liveCount entries : Nat) : Int)).length = 32 * liveCount entries := piece_length ..
      rw [loadedSubdirectory, size, room, padTo_length full, piece, start]
    have whole : (loadedSubdirectory disk fat rawEntry entries.length).entry.length =
        32 * liveCount entries := by
      rw [array, diskStreamRead_length, Int.toNat_natCast]
    refine ⟨?_, ⟨_, whole⟩, array ▸ stored.read_agrees _⟩
    rw [loadedSubdirectory, place, stored.liveSlots_eq]
  case isFalse => cases loaded

theorem LoadedFrom.holds (loaded : LoadedFrom disk fat pos directory) (stored : StoredAt disk pos entries) :
    Holds directory entries := by
  cases loaded with
  | root load place => exact holds_root stored load place
  | @subdirectory σ A rawEntry s loaded s' load place =>
      by_cases subdirectory : IsSubdirectory rawEntry
      · have loads := fat16LoadFatDirectory_ensures subdirectory s (some loaded) s' load (.inl rfl)
        exact holds_subdirectory stored loads place
      · rw [fat16LoadFatDirectory, if_pos (not_not.mp subdirectory)] at load
        cases load

end Loaded

/-! ## Where deleted entries do not matter -/

/-- No live entry behind a deleted one. -/
def Packed (entries : List (List Byte)) : Prop := entries.Pairwise fun e f => Deleted e → Deleted f

section Packed

variable {entries : List (List Byte)}

theorem liveCount_cons (e : List Byte) (entries : List (List Byte)) :
    liveCount (e :: entries) = liveCount entries + if Deleted e then 0 else 1 := by
  rw [liveCount, List.countP_cons, liveCount]
  by_cases deleted : Deleted e <;> simp [deleted]

theorem deleted_of_liveCount_zero (none : liveCount entries = 0) : ∀ e ∈ entries, Deleted e := by
  simpa using List.countP_eq_zero.mp none

/-- The entries that are searched are the live ones. -/
theorem Packed.lt_liveCount_iff (packed : Packed entries) {i : Nat} {e : List Byte}
    (here : entries[i]? = some e) : i < liveCount entries ↔ ¬ Deleted e := by
  induction entries generalizing i with
  | nil => cases here
  | cons f entries ih =>
      obtain ⟨first, others⟩ := List.pairwise_cons.mp packed
      rw [liveCount_cons]
      by_cases deleted : Deleted f
      · have none : liveCount entries = 0 := by
          rw [liveCount, List.countP_eq_zero]
          intro e mem
          simpa using first e mem deleted
        have dead : Deleted e := by
          rcases List.mem_cons.mp (List.mem_of_getElem? here) with rfl | mem
          · exact deleted
          · exact first e mem deleted
        simp [none, deleted, dead]
      · rw [if_neg deleted]
        cases i with
        | zero =>
            cases here
            simpa using deleted
        | succ i => simpa using ih others here

theorem packed_of_first (first : ∀ i < liveCount entries, ∀ e, entries[i]? = some e → ¬ Deleted e) :
    Packed entries := by
  induction entries with
  | nil => exact .nil
  | cons f entries ih =>
      rw [liveCount_cons] at first
      by_cases deleted : Deleted f
      · have none : liveCount entries = 0 := by
          by_contra some
          exact first 0 (by omega) f rfl deleted
        exact .cons (fun e mem _ => deleted_of_liveCount_zero none e mem) (ih fun i bound => by omega)
      · rw [if_neg deleted] at first
        refine .cons (fun e _ dead => absurd dead deleted) (ih fun i bound e here => ?_)
        exact first (i + 1) (by omega) e here

end Packed

/-! ## Entries and names in the array -/

section Array

variable {disk : Disk} {fat : FatVolume} {entries : List (List Byte)} {directory : FatDirectory}
  {e rest : List Byte} {i : Nat}

theorem isSubdirectory_append (length : e.length = 32) (rest : List Byte) :
    IsSubdirectory (e ++ rest) ↔ IsSubdirectory e := by
  rw [IsSubdirectory, IsSubdirectory, FatDirectoryEntry.ofBytes_append length]

theorem subdirectoryPos_append (length : e.length = 32) (rest : List Byte) :
    subdirectoryPos disk fat (e ++ rest) = subdirectoryPos disk fat e := by
  rw [subdirectoryPos, subdirectoryPos, FatDirectoryEntry.ofBytes_append length]

theorem loadEnds_append (length : e.length = 32) (rest : List Byte) :
    LoadEnds disk fat (e ++ rest) ↔ LoadEnds disk fat e := by
  rw [LoadEnds, LoadEnds, subdirectoryPos_append length]

theorem loadsAs_append (length : e.length = 32) (rest : List Byte) (contents : Option FatDirectory) :
    LoadsAs disk fat (e ++ rest) contents ↔ LoadsAs disk fat e contents := by
  have size : subdirectorySize disk fat (e ++ rest) = subdirectorySize disk fat e := by
    funext t
    rw [subdirectorySize, subdirectorySize, subdirectoryPos_append length]
  have loaded : loadedSubdirectory disk fat (e ++ rest) = loadedSubdirectory disk fat e := by
    funext t
    rw [loadedSubdirectory, loadedSubdirectory, size, subdirectoryPos_append length,
      FatDirectoryEntry.ofBytes_append length]
  rw [LoadsAs, LoadsAs, size, loaded, subdirectoryPos_append length]

theorem madeFrom_append (length : e.length = 32) (rest : List Byte) (easyEntry : EasyEntry) :
    easyEntry.MadeFrom disk fat (e ++ rest) ↔ easyEntry.MadeFrom disk fat e := by
  have copy : (e ++ rest).take 32 = e.take 32 := List.take_append_of_le_length length.ge
  obtain ⟨ptr, item⟩ := easyEntry
  cases item with
  | directory directory => exact and_congr (isSubdirectory_append length rest) (loadsAs_append length rest _)
  | file entry =>
      rw [EasyEntry.MadeFrom, EasyEntry.MadeFrom]
      simp only [isSubdirectory_append length rest, copy]

theorem entriesFrom_drop (length : ∀ e ∈ entries, e.length = 32) (inside : i ≤ entries.length) :
    (entriesFrom entries 0).drop (32 * i) = entriesFrom entries i := by
  have long := flatten_length length
  rw [entriesFrom, List.drop_zero, List.drop_append_of_le_length (by omega), flatten_drop length, entriesFrom]

theorem entriesFrom_eq (here : entries[i]? = some e) :
    entriesFrom entries i = e ++ entriesFrom entries (i + 1) := by
  obtain ⟨inside, rfl⟩ := List.getElem?_eq_some_iff.mp here
  rw [entriesFrom, List.drop_eq_getElem_cons inside, List.flatten_cons, List.append_assoc, entriesFrom]

namespace Holds

theorem agrees_from (holds : Holds directory entries) (length : ∀ e ∈ entries, e.length = 32)
    (inside : i ≤ entries.length) :
    directory.from i <+: entriesFrom entries i ∨ entriesFrom entries i <+: directory.from i := by
  rw [← entriesFrom_drop length inside, FatDirectory.from]
  exact holds.agrees.imp (·.drop _) (·.drop _)

/-- An entry is in the array as a whole or not at all. -/
theorem from_eq (holds : Holds directory entries) (length : ∀ e ∈ entries, e.length = 32)
    (here : entries[i]? = some e) (read : directory.from i ≠ []) : ∃ rest, directory.from i = e ++ rest := by
  obtain ⟨inside, -⟩ := List.getElem?_eq_some_iff.mp here
  have long := length e (List.mem_of_getElem? here)
  have prefixed : e <+: entriesFrom entries i := ⟨_, (entriesFrom_eq here).symm⟩
  have begins : e <+: directory.from i := by
    rcases holds.agrees_from length inside.le with cut | past
    · refine List.prefix_of_prefix_length_le prefixed cut ?_
      have some_bytes := List.length_pos_iff.mpr read
      obtain ⟨k, whole⟩ := holds.whole
      rw [FatDirectory.from, List.length_drop] at some_bytes ⊢
      omega
    · exact prefixed.trans past
  obtain ⟨rest, same⟩ := begins
  exact ⟨rest, same.symm⟩

/-- A name that can be read in the array is the one on the disk. -/
theorem written (holds : Holds directory entries) (length : ∀ e ∈ entries, e.length = 32)
    (here : entries[i]? = some e) {maxlen : Nat} {text : List Byte}
    (read : writtenName (directory.from i) maxlen = some text) :
    writtenName (entriesFrom entries i) maxlen = some text := by
  obtain ⟨inside, -⟩ := List.getElem?_eq_some_iff.mp here
  have long := length e (List.mem_of_getElem? here)
  rcases holds.agrees_from length inside.le with ⟨more, cut⟩ | ⟨more, past⟩
  · rw [← cut]
    exact writtenName_eq_some.mpr ((writtenName_eq_some.mp read).append more)
  · rw [← past, entriesFrom, List.append_assoc] at read
    rw [← read]
    refine writtenName_zero ?_ [] more maxlen
    rw [flatten_length fun e mem => length e (List.mem_of_mem_drop mem), List.length_drop]
    omega

end Holds

theorem ne_nil_of_written {input text : List Byte} {maxlen : Nat}
    (read : writtenName input maxlen = some text) : input ≠ [] := by
  rintro rfl
  cases read

/-- Names are compared as far as the buffer goes. -/
theorem named_iff_take {text name : List Byte}
    (read : writtenName (directory.from i) maxFilePathChars = some text) (clean : 0 ∉ name) :
    directory.named name i = true ↔
      (text.map tolower).take maxFilePathChars = (name.map tolower).take maxFilePathChars := by
  have nonzero := (writtenName_eq_some.mp read).zero_notMem
  rw [FatDirectory.named, fat16GetFilename, read, Option.map_some]
  simp only [cstr_append_zeros, decide_eq_true_eq]
  exact strnicmp_eq_zero_iff nonzero clean maxFilePathChars

/-- Those that leave room for a zero in it are compared as a whole. -/
theorem named_iff {text name : List Byte} (read : writtenName (directory.from i) maxFilePathChars = some text)
    (short : text.length < maxFilePathChars) (clean : 0 ∉ name) :
    directory.named name i = true ↔ text.map tolower = name.map tolower := by
  have all : (text.map tolower).take maxFilePathChars = text.map tolower :=
    List.take_of_length_le (by simpa using short.le)
  rw [named_iff_take read clean, all]
  constructor
  · intro same
    have length := congrArg List.length same
    rw [List.length_map, List.length_take, List.length_map] at length
    rwa [List.take_of_length_le (by rw [List.length_map]; omega)] at same
  · intro same
    rw [← same, all]

theorem lastNamed_some {name found : List Byte} {n : Nat} (last : directory.lastNamed name n = some found) :
    ∃ i < n, directory.named name i = true ∧ found = directory.from i := by
  induction n with
  | zero => cases last
  | succ n ih =>
      rw [FatDirectory.lastNamed] at last
      split at last
      case isTrue named =>
        cases last
        exact ⟨n, by omega, named, rfl⟩
      case isFalse =>
        obtain ⟨i, before, named⟩ := ih last
        exact ⟨i, by omega, named⟩

theorem lastNamed_isSome {name : List Byte} {n : Nat} (before : i < n)
    (named : directory.named name i = true) : (directory.lastNamed name n).isSome := by
  induction n with
  | zero => omega
  | succ n ih =>
      rw [FatDirectory.lastNamed]
      split
      case isTrue => rfl
      case isFalse other =>
        rcases Nat.lt_succ_iff_lt_or_eq.mp before with earlier | rfl
        · exact ih earlier
        · exact absurd named other

end Array

/-! ## Exact lookups -/

/-- An entry in use with a name, among the entries on the disk. -/
def HasName (entries : List (List Byte)) (name rawEntry : List Byte) : Prop :=
  ∃ j text, entries[j]? = some rawEntry ∧ ¬ Deleted rawEntry ∧
    writtenName (entriesFrom entries j) maxFilePathChars = some text ∧ text.map tolower = name.map tolower

/-- With room for what is allocated, a lookup finds something when there is an entry with the
    name, and then what it finds is one. -/
def LookupExact (disk : Disk) (fat : FatVolume) (directory : FatDirectory) (entries : List (List Byte))
    (name : List Byte) : Prop :=
  ∀ (σ : Type) (A : Allocator σ), A.Serves → ∀ s : DriverState σ,
    (fat16FindEntryInDirectory disk fat A directory name).Yields s fun entry _ =>
      (entry.isSome ↔ ∃ rawEntry, HasName entries name rawEntry) ∧
        ∀ easyEntry, entry = some easyEntry →
          ∃ rawEntry, HasName entries name rawEntry ∧ easyEntry.MadeFrom disk fat rawEntry

/-- No live entry is behind a deleted one, the names that are searched end in the array and
    in the buffer, and the directories in it can be loaded. -/
structure Orderly (disk : Disk) (fat : FatVolume) (directory : FatDirectory) (entries : List (List Byte)) :
    Prop where
  packed : Packed entries
  names : ∀ i < liveCount entries, ∃ text,
    writtenName (directory.from i) maxFilePathChars = some text ∧ text.length < maxFilePathChars
  loads : ∀ e ∈ entries, ¬ Deleted e → IsSubdirectory e → LoadEnds disk fat e

section Exact

variable {disk : Disk} {fat : FatVolume} {pos : Nat} {directory : FatDirectory} {entries : List (List Byte)}

theorem getElem?_of_lt_liveCount {i : Nat} (bound : i < liveCount entries) : ∃ e, entries[i]? = some e :=
  ⟨_, List.getElem?_eq_getElem (bound.trans_le (liveCount_le entries))⟩

namespace Orderly

theorem searchable (orderly : Orderly disk fat directory entries) (holds : Holds directory entries)
    (length : ∀ e ∈ entries, e.length = 32) (name : List Byte) : Searchable disk fat directory name := by
  rw [Searchable, holds.total, Int.toNat_natCast]
  constructor
  · intro i bound
    obtain ⟨text, read, -⟩ := orderly.names i bound
    rw [fat16GetFilename, read]
    rfl
  · intro i bound _ subdirectory
    obtain ⟨text, read, -⟩ := orderly.names i bound
    obtain ⟨e, here⟩ := getElem?_of_lt_liveCount bound
    have member := List.mem_of_getElem? here
    obtain ⟨rest, same⟩ := holds.from_eq length here (ne_nil_of_written read)
    rw [same] at subdirectory ⊢
    rw [isSubdirectory_append (length e member)] at subdirectory
    rw [loadEnds_append (length e member)]
    exact orderly.loads e member ((orderly.packed.lt_liveCount_iff here).mp bound) subdirectory

/-- The entries that are searched are those in use, under their names. -/
theorem hasName_iff (orderly : Orderly disk fat directory entries) (holds : Holds directory entries)
    (length : ∀ e ∈ entries, e.length = 32) {name : List Byte} (clean : 0 ∉ name) {rawEntry : List Byte} :
    HasName entries name rawEntry ↔
      ∃ i < liveCount entries, directory.named name i = true ∧ entries[i]? = some rawEntry := by
  constructor
  · rintro ⟨j, text, here, live, written, same⟩
    have bound := (orderly.packed.lt_liveCount_iff here).mpr live
    obtain ⟨text', read, short⟩ := orderly.names j bound
    cases written.symm.trans (holds.written length here read)
    exact ⟨j, bound, (named_iff read short clean).mpr same, here⟩
  · rintro ⟨i, bound, named, here⟩
    obtain ⟨text, read, short⟩ := orderly.names i bound
    exact ⟨i, text, here, (orderly.packed.lt_liveCount_iff here).mp bound, holds.written length here read,
      (named_iff read short clean).mp named⟩

theorem exact (orderly : Orderly disk fat directory entries) (holds : Holds directory entries)
    (length : ∀ e ∈ entries, e.length = 32) {name : List Byte} (clean : 0 ∉ name) :
    LookupExact disk fat directory entries name := by
  intro σ A serves s
  obtain ⟨entry, s', run, made⟩ := find_yields serves (orderly.searchable holds length name) s
  refine ⟨entry, s', run, ?_⟩
  rw [FatDirectory.lookup, holds.total, Int.toNat_natCast] at made
  have result : ∀ easyEntry, entry = some easyEntry →
      ∃ rawEntry, HasName entries name rawEntry ∧ easyEntry.MadeFrom disk fat rawEntry := by
    rintro easyEntry rfl
    obtain ⟨found, last⟩ := Option.isSome_iff_exists.mp (made.isSome_iff.mp rfl)
    rw [last] at made
    obtain ⟨_, same, made⟩ := made
    cases same
    obtain ⟨i, bound, named, rfl⟩ := lastNamed_some last
    obtain ⟨text, read, -⟩ := orderly.names i bound
    obtain ⟨e, here⟩ := getElem?_of_lt_liveCount bound
    obtain ⟨rest, same⟩ := holds.from_eq length here (ne_nil_of_written read)
    rw [same, madeFrom_append (length e (List.mem_of_getElem? here))] at made
    exact ⟨e, (orderly.hasName_iff holds length clean).mpr ⟨i, bound, named, here⟩, made⟩
  refine ⟨⟨fun some => ?_, ?_⟩, result⟩
  · obtain ⟨easyEntry, found⟩ := Option.isSome_iff_exists.mp some
    obtain ⟨rawEntry, hasName, -⟩ := result easyEntry found
    exact ⟨rawEntry, hasName⟩
  · rintro ⟨rawEntry, hasName⟩
    obtain ⟨i, bound, named, -⟩ := (orderly.hasName_iff holds length clean).mp hasName
    exact made.isSome_iff.mpr (lastNamed_isSome bound named)

end Orderly

theorem headD_append {e : List Byte} (nonempty : e ≠ []) (rest : List Byte) :
    (e ++ rest).headD 0 = e.headD 0 := by
  cases e with
  | nil => exact absurd rfl nonempty
  | cons c e => rfl

theorem tolower_deleted {c : Byte} (same : tolower c = tolower 0xE5) : c = 0xE5 := by
  revert c
  decide

/-- Names that agree up to case both begin with the mark, or neither does. -/
theorem deleted_of_same {text text' : List Byte} (mark : text.headD 0 = 0xE5)
    (same : text'.map tolower = text.map tolower) : text'.headD 0 = 0xE5 := by
  cases text with
  | nil => exact absurd mark (by decide)
  | cons c text =>
      cases text' with
      | nil => cases same
      | cons c' text' =>
          obtain rfl : c = 0xE5 := mark
          exact tolower_deleted (List.cons.inj same).1

namespace LookupExact

variable {name : List Byte}

theorem searchable (exact : LookupExact disk fat directory entries name) :
    Searchable disk fat directory name := by
  obtain ⟨entry, s', run, -⟩ := exact Unit plentiful plentiful_serves ⟨(), freshStreams⟩
  exact (find_ensures plentiful_serves directory name _ entry s' run).1

theorem hasName (exact : LookupExact disk fat directory entries name) (holds : Holds directory entries)
    {i : Nat} (bound : i < liveCount entries) (named : directory.named name i = true) :
    ∃ rawEntry, HasName entries name rawEntry := by
  obtain ⟨entry, s', run, found, -⟩ := exact Unit plentiful plentiful_serves ⟨(), freshStreams⟩
  obtain ⟨-, made⟩ := find_ensures plentiful_serves directory name _ entry s' run
  rw [FatDirectory.lookup, holds.total, Int.toNat_natCast] at made
  exact found.mp (made.isSome_iff.mpr (lastNamed_isSome bound named))

end LookupExact

section Necessary

variable (holds : Holds directory entries)
  (exact : ∀ name, 0 ∉ name → LookupExact disk fat directory entries name)
include holds exact

/-- A name that fills the buffer would also be found under a longer one. -/
theorem names_of_exact {i : Nat} (bound : i < liveCount entries) :
    ∃ text, writtenName (directory.from i) maxFilePathChars = some text ∧ text.length < maxFilePathChars := by
  have searchable := (exact [] List.not_mem_nil).searchable
  rw [Searchable, holds.total, Int.toNat_natCast] at searchable
  obtain ⟨buffer, filename⟩ := Option.isSome_iff_exists.mp (searchable.read i bound)
  obtain ⟨text, read, -⟩ := Option.map_eq_some_iff.mp filename
  have parts := writtenName_eq_some.mp read
  refine ⟨text, read, lt_of_le_of_ne parts.length_le fun full => ?_⟩
  have clean : (0 : Byte) ∉ text ++ [0x41] := by
    rw [List.mem_append, not_or]
    exact ⟨parts.zero_notMem, by decide⟩
  have named : directory.named (text ++ [0x41]) i = true := by
    rw [named_iff_take read clean, List.map_append, List.take_append_of_le_length (by simp [full])]
  obtain ⟨rawEntry, j, text', here, -, written, same⟩ := (exact _ clean).hasName holds bound named
  have short := (writtenName_eq_some.mp written).length_le
  have long := congrArg List.length same
  simp only [List.length_map, List.length_append, List.length_singleton] at long
  omega

variable (length : ∀ e ∈ entries, e.length = 32)
include length

/-- A deleted entry would be found under its name. -/
theorem packed_of_exact : Packed entries := by
  refine packed_of_first fun i bound e here deleted => ?_
  obtain ⟨text, read, -⟩ := names_of_exact holds exact bound
  have parts := writtenName_eq_some.mp read
  have named : directory.named text i = true := (named_iff_take read parts.zero_notMem).mpr rfl
  obtain ⟨rest, same⟩ := holds.from_eq length here (ne_nil_of_written read)
  have nonempty : ∀ {f : List Byte}, f ∈ entries → f ≠ [] := by
    rintro f member rfl
    cases length [] member
  have mark : text.headD 0 = 0xE5 := by
    rw [parts.deleted_iff, same, headD_append (nonempty (List.mem_of_getElem? here))]
    exact deleted
  obtain ⟨rawEntry, j, text', there, live, written, agrees⟩ :=
    (exact text parts.zero_notMem).hasName holds bound named
  apply live
  have mark' := (writtenName_eq_some.mp written).deleted_iff.mp (deleted_of_same mark agrees)
  rwa [entriesFrom_eq there, headD_append (nonempty (List.mem_of_getElem? there))] at mark'

theorem orderly_of_exact : Orderly disk fat directory entries where
  packed := packed_of_exact holds exact length
  names := fun i bound => names_of_exact holds exact bound
  loads := by
    intro e member live subdirectory
    obtain ⟨i, here⟩ := List.getElem?_of_mem member
    have bound := ((packed_of_exact holds exact length).lt_liveCount_iff here).mpr live
    obtain ⟨text, read, -⟩ := names_of_exact holds exact bound
    have clean := (writtenName_eq_some.mp read).zero_notMem
    have searchable := (exact text clean).searchable
    rw [Searchable, holds.total, Int.toNat_natCast] at searchable
    obtain ⟨rest, same⟩ := holds.from_eq length here (ne_nil_of_written read)
    have loads := searchable.loads i bound ((named_iff_take read clean).mpr rfl)
    rw [same, isSubdirectory_append (length e member), loadEnds_append (length e member)] at loads
    exact loads subdirectory

end Necessary

/-- Every name is looked up exactly in a directory that is orderly, and in no other. -/
theorem lookup_exact_iff (stored : StoredAt disk pos entries) (loaded : LoadedFrom disk fat pos directory) :
    (∀ name, 0 ∉ name → LookupExact disk fat directory entries name) ↔
      Orderly disk fat directory entries := by
  have holds := loaded.holds stored
  constructor
  · exact fun exact => orderly_of_exact holds exact stored.length
  · exact fun orderly name clean => orderly.exact holds stored.length clean

end Exact

/-! ## A file behind a deleted one -/

/-- A file with a name of one character. -/
def fileEntry (c : Byte) : List Byte := c :: List.replicate 10 0x20 ++ 0x20 :: List.replicate 20 0

def deletedEntries : List (List Byte) := [fileEntry 0xE5, fileEntry 0x42]

def deletedDisk : Disk := ⟨fun lba i => if lba = 17 then deletedEntries.flatten.getD i 0 else 0, fun _ => 0⟩

def deletedVolume : FatVolume := ⟨blankHeader 16, loadedRoot deletedDisk (blankHeader 16) 2⟩

/-- The root directory is loaded from sector 17. -/
theorem loadedFrom_sixteen {disk : Disk} {entries : List (List Byte)}
    (stored : StoredAt disk (17 * 512) entries) :
    LoadedFrom disk ⟨blankHeader 16, loadedRoot disk (blankHeader 16) entries.length⟩ (17 * 512)
      (loadedRoot disk (blankHeader 16) entries.length) := by
  have ends := stored.endsAt
  rw [← rootPos_sixteen disk] at ends
  obtain ⟨stream, load⟩ := fat16GetRootDirectory_ends ends
  exact .root load (rootPos_sixteen disk)

theorem from_ne_nil_sixteen (disk : Disk) (t : Nat) : (loadedRoot disk (blankHeader 16) t).from 0 ≠ [] := by
  have length : (loadedRoot disk (blankHeader 16) t).entry.length = 32 * 16 := loadedRoot_length t
  intro none
  rw [FatDirectory.from, Nat.mul_zero, List.drop_zero] at none
  rw [none] at length
  cases length

theorem deletedEntries_stored : StoredAt deletedDisk (17 * 512) deletedEntries where
  length := by decide
  begun := by decide
  bytes := by decide
  ended := by decide
  fits := by decide

/-- Only the deleted entry is searched for the file. -/
theorem lookup_missed_behind_deleted :
    StoredAt deletedDisk (17 * 512) deletedEntries ∧
      LoadedFrom deletedDisk deletedVolume (17 * 512) deletedVolume.rootDirectory ∧
      ¬ LookupExact deletedDisk deletedVolume deletedVolume.rootDirectory deletedEntries [0x42] := by
  have stored := deletedEntries_stored
  have loaded : LoadedFrom deletedDisk deletedVolume (17 * 512) deletedVolume.rootDirectory :=
    loadedFrom_sixteen stored
  have holds := loaded.holds stored
  refine ⟨stored, loaded, fun exact => ?_⟩
  have file : HasName deletedEntries [0x42] (fileEntry 0x42) :=
    ⟨1, [0x42], rfl, by decide, by decide, rfl⟩
  obtain ⟨rest, first⟩ := holds.from_eq stored.length (i := 0) rfl (from_ne_nil_sixteen deletedDisk 2)
  have name : writtenName (fileEntry 0xE5) maxFilePathChars = some [0xE5] := by decide
  have read := (writtenName_eq_some.mp name).append rest
  rw [← first, ← writtenName_eq_some] at read
  have other : ¬ deletedVolume.rootDirectory.named [0x42] 0 = true := by
    rw [named_iff read (by decide) (by decide)]
    decide
  have absent : deletedVolume.rootDirectory.lookup [0x42] = none := by
    have total : deletedVolume.rootDirectory.total.toNat = 1 := by
      rw [holds.total]
      rfl
    rw [FatDirectory.lookup, total, FatDirectory.lastNamed, if_neg other]
    rfl
  obtain ⟨entry, s', run, found, -⟩ := exact Unit plentiful plentiful_serves ⟨(), freshStreams⟩
  obtain ⟨-, made⟩ := find_ensures plentiful_serves _ _ _ entry s' run
  rw [absent] at made
  cases made
  exact absurd (found.mpr ⟨_, file⟩) (by decide)

theorem folderEntry_stored : StoredAt folderDisk (17 * 512) [folderEntry] where
  length := by decide
  begun := by decide
  bytes := by decide
  ended := by decide
  fits := by decide

/-- The directory `A`, which is alone in the root directory. -/
theorem lookup_exact_iff_folder :
    StoredAt folderDisk (17 * 512) [folderEntry] ∧
      LoadedFrom folderDisk folderVolume (17 * 512) folderVolume.rootDirectory ∧
      LookupExact folderDisk folderVolume folderVolume.rootDirectory [folderEntry] [0x41] := by
  have stored := folderEntry_stored
  have loaded : LoadedFrom folderDisk folderVolume (17 * 512) folderVolume.rootDirectory :=
    loadedFrom_sixteen stored
  obtain ⟨rest, first⟩ := folderVolume_from
  have orderly : Orderly folderDisk folderVolume folderVolume.rootDirectory [folderEntry] := by
    refine ⟨List.pairwise_singleton _ _, ?_, ?_⟩
    · intro i bound
      obtain rfl : i = 0 := Nat.lt_one_iff.mp bound
      have name : writtenName folderEntry maxFilePathChars = some [0x41] := by decide
      refine ⟨[0x41], ?_, by decide⟩
      rw [first, writtenName_eq_some]
      exact (writtenName_eq_some.mp name).append rest
    · intro e member _ _
      obtain rfl := List.mem_singleton.mp member
      have ends := folderEntry_ends []
      rw [List.append_nil] at ends
      exact ⟨by decide, 0, ends⟩
  exact ⟨stored, loaded, (lookup_exact_iff stored loaded).mpr orderly [0x41] (by decide)⟩

end ConiferOS.Fs
