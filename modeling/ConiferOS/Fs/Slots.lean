import ConiferOS.Fs.SectorStream

/-! # The slots of a directory

`fat16_get_total_items_for_directory` reads entries of 32 bytes until one starts with a
zero, and counts those that are not marked as deleted. Nothing else ends the loop, least
of all the size of the directory. Positions are of type `int` and wrap around, so after
`2^27` entries the loop is back where it began.
-/

namespace ConiferOS.Fs

/-! ## Slots -/

/-- Number of slots after which the positions repeat. -/
def directorySlots : Nat := 2 ^ 27

/-- What the loop reads as entry `i` of a directory that starts at byte `pos`. -/
def slot (disk : Disk) (pos : Int) (i : Nat) : List Byte :=
  (diskStreamRead disk ⟨int32 (pos + 32 * i)⟩ sizeofFatDirectoryEntry).2.2

/-- The first byte of the file name: zero ends the directory, `0xE5` is a deleted entry. -/
def slotMark (disk : Disk) (pos : Int) (i : Nat) : Byte := (slot disk pos i).headD 0

/-- Slot `t` is the first that starts with a zero. -/
def EndsAt (disk : Disk) (pos : Int) (t : Nat) : Prop :=
  slotMark disk pos t = 0 ∧ ∀ i < t, slotMark disk pos i ≠ 0

/-- The slots before `t` that are not deleted. -/
def liveSlots (disk : Disk) (pos : Int) (t : Nat) : Nat :=
  (List.range t).countP fun i => slotMark disk pos i ≠ 0xE5

section Counting

variable {disk : Disk} {pos : Int} {t fuel : Nat}

/-- The slot at a position that is an `int` is there on the disk. -/
theorem slot_eq (disk : Disk) (pos i : Nat) (fits : pos + 32 * i + 32 ≤ 2 ^ 31) :
    slot disk pos i = diskBytes disk (pos + 32 * i) 32 := by
  have place : int32 ((pos : Int) + 32 * i) = ((pos + 32 * i : Nat) : Int) := by
    rw [int32_of_mem] <;> omega
  have size : sizeofFatDirectoryEntry = ((32 : Nat) : Int) := rfl
  rw [slot, place, size, diskStreamRead_eq disk _ _ fits]

theorem slotMark_eq (disk : Disk) (pos i : Nat) (fits : pos + 32 * i + 32 ≤ 2 ^ 31) :
    slotMark disk pos i = diskByte disk (pos + 32 * i) := by
  rw [slotMark, slot_eq disk pos i fits]
  rfl

theorem slotMark_wraps (i : Nat) : slotMark disk pos (i + directorySlots) = slotMark disk pos i := by
  have same : int32 (pos + 32 * (i + directorySlots : Nat)) = int32 (pos + 32 * i) := by
    have ahead : pos + 32 * ((i + directorySlots : Nat) : Int) = pos + 32 * i + ((2 ^ 32 : Nat) : Int) := by
      unfold directorySlots
      push_cast
      ring
    rw [int32, ahead, Int.add_bmod_right, int32]
  rw [slotMark, slot, same, slotMark, slot]

theorem EndsAt.lt (ends : EndsAt disk pos t) : t < directorySlots := by
  by_contra beyond
  have back : t - directorySlots + directorySlots = t := by omega
  have earlier : t - directorySlots < t := by
    have : 0 < directorySlots := by decide
    omega
  refine ends.2 _ earlier ?_
  rw [← slotMark_wraps, back]
  exact ends.1

theorem EndsAt.unique {t' : Nat} (ends : EndsAt disk pos t) (ends' : EndsAt disk pos t') : t = t' := by
  rcases Nat.lt_trichotomy t t' with before | same | after
  · exact absurd ends.1 (ends'.2 t before)
  · exact same
  · exact absurd ends'.1 (ends.2 t' after)

theorem exists_endsAt (zero : slotMark disk pos t = 0) : ∃ t' ≤ t, EndsAt disk pos t' := by
  induction t using Nat.strong_induction_on with
  | _ t ih =>
      by_cases earlier : ∃ i < t, slotMark disk pos i = 0
      · obtain ⟨i, before, marked⟩ := earlier
        obtain ⟨t', le, ends⟩ := ih i before marked
        exact ⟨t', by omega, ends⟩
      · exact ⟨t, le_rfl, zero, fun i before marked => earlier ⟨i, before, marked⟩⟩

theorem liveSlots_succ (t : Nat) :
    liveSlots disk pos (t + 1) = liveSlots disk pos t + if slotMark disk pos t = 0xE5 then 0 else 1 := by
  rw [liveSlots, liveSlots, List.range_succ, List.countP_append]
  by_cases deleted : slotMark disk pos t = 0xE5 <;> simp [deleted]

/-- One round of the loop. -/
theorem countItems_succ (fuel i : Nat) (count : Int) :
    countItems disk (fuel + 1) ⟨int32 (pos + 32 * i)⟩ count =
      if slotMark disk pos i = 0 then some (count, ⟨int32 (pos + 32 * (i + 1 : Nat))⟩)
      else if slotMark disk pos i = 0xE5 then
        countItems disk fuel ⟨int32 (pos + 32 * (i + 1 : Nat))⟩ count
      else countItems disk fuel ⟨int32 (pos + 32 * (i + 1 : Nat))⟩ (count + 1) := by
  have next : (diskStreamRead disk ⟨int32 (pos + 32 * i)⟩ sizeofFatDirectoryEntry).2.1 =
      ⟨int32 (pos + 32 * (i + 1 : Nat))⟩ := by
    rw [diskStreamRead_pos, int32_add_int32, sizeofFatDirectoryEntry]
    congr 2
    push_cast
    ring
  rw [countItems]
  simp only [diskStreamRead_rc, lt_irrefl, if_false, next]
  rfl

/-- Induction on the slots that are left; `i` of them have been read. -/
theorem countItems_from (ends : EndsAt disk pos t) {i : Nat} (left : i ≤ t) (enough : t < i + fuel) :
    countItems disk fuel ⟨int32 (pos + 32 * i)⟩ (liveSlots disk pos i) =
      some ((liveSlots disk pos t : Int), ⟨int32 (pos + 32 * (t + 1 : Nat))⟩) := by
  induction fuel generalizing i with
  | zero => omega
  | succ fuel ih =>
      rw [countItems_succ]
      rcases left.lt_or_eq with before | rfl
      · have later := ih (i := i + 1) before (by omega)
        rw [if_neg (ends.2 i before)]
        split
        case isTrue deleted =>
          rw [liveSlots_succ, if_pos deleted] at later
          exact later
        case isFalse live =>
          rw [liveSlots_succ, if_neg live] at later
          exact later
      · rw [if_pos ends.1]

theorem countItems_ends (ends : EndsAt disk pos t) (enough : t < fuel) :
    countItems disk fuel ⟨int32 pos⟩ 0 =
      some ((liveSlots disk pos t : Int), ⟨int32 (pos + 32 * (t + 1 : Nat))⟩) := by
  have whole := countItems_from ends (Nat.zero_le t) (enough.trans_eq (Nat.zero_add fuel).symm)
  simpa [liveSlots] using whole

/-- A loop that is through has found an end. -/
theorem zero_of_countItems {i : Nat} {count : Int} {result : Int × DiskStream}
    (run : countItems disk fuel ⟨int32 (pos + 32 * i)⟩ count = some result) :
    ∃ t < i + fuel, slotMark disk pos t = 0 := by
  induction fuel generalizing i count with
  | zero => cases run
  | succ fuel ih =>
      have later : ∀ {count : Int},
          countItems disk fuel ⟨int32 (pos + 32 * (i + 1 : Nat))⟩ count = some result →
          ∃ t < i + (fuel + 1), slotMark disk pos t = 0 := by
        intro count run
        obtain ⟨t, bound, zero⟩ := ih run
        exact ⟨t, by omega, zero⟩
      rw [countItems_succ] at run
      split at run
      case isTrue zero => exact ⟨i, by omega, zero⟩
      case isFalse =>
        split at run
        case isTrue => exact later run
        case isFalse => exact later run

theorem countItems_cases {result : Int × DiskStream}
    (run : countItems disk fuel ⟨int32 pos⟩ 0 = some result) :
    ∃ t, EndsAt disk pos t ∧ result.1 = liveSlots disk pos t := by
  have start : int32 pos = int32 (pos + 32 * (0 : Nat)) := by simp
  obtain ⟨t, bound, zero⟩ := zero_of_countItems (i := 0) (start ▸ run)
  obtain ⟨t', le, ends⟩ := exists_endsAt zero
  rw [countItems_ends ends (by omega)] at run
  cases run
  exact ⟨t', ends, rfl⟩

end Counting

section Total

variable {disk : Disk} {sector : Int} {t : Nat}

/-- The position of a sector is an `int` already. -/
theorem int32_fat16SectorToAbsolutePos (disk : Disk) (sector : Int) :
    int32 (fat16SectorToAbsolutePos disk sector) = fat16SectorToAbsolutePos disk sector :=
  int32_of_mem (int32_mem _).1 (int32_mem _).2

theorem fat16GetTotalItemsForDirectory_ends
    (ends : EndsAt disk (fat16SectorToAbsolutePos disk sector) t) :
    ∃ stream, fat16GetTotalItemsForDirectory disk directorySlots sector =
      some ((liveSlots disk (fat16SectorToAbsolutePos disk sector) t : Int), stream) := by
  have count := countItems_ends ends ends.lt
  rw [int32_fat16SectorToAbsolutePos] at count
  rw [fat16GetTotalItemsForDirectory_eq, count]
  exact ⟨_, rfl⟩

theorem fat16GetTotalItemsForDirectory_cases {fuel : Nat} {total : Int} {stream : DiskStream}
    (run : fat16GetTotalItemsForDirectory disk fuel sector = some (total, stream)) :
    ∃ t, EndsAt disk (fat16SectorToAbsolutePos disk sector) t ∧
      total = liveSlots disk (fat16SectorToAbsolutePos disk sector) t := by
  rw [fat16GetTotalItemsForDirectory_eq, ← int32_fat16SectorToAbsolutePos] at run
  exact countItems_cases run

end Total

/-! ## The root directory -/

section Root

variable {disk : Disk} {header : FatHeader}

/-- The byte position that the driver computes for the root directory. -/
def rootPos (disk : Disk) (header : FatHeader) : Int :=
  fat16SectorToAbsolutePos disk (rootDirSector header)

/-- The root directory as it is loaded when its entries end in slot `t`. -/
def loadedRoot (disk : Disk) (header : FatHeader) (t : Nat) : FatDirectory where
  entry := (diskStreamRead disk ⟨rootPos disk header⟩ (rootDirSize header)).2.2
  total := liveSlots disk (rootPos disk header) t
  sector := rootDirSector header
  endSector := rootDirSector header + (rootDirSize header).tdiv disk.sectorSize

theorem fat16GetRootDirectory_ends {t : Nat} (ends : EndsAt disk (rootPos disk header) t) :
    ∃ stream, fat16GetRootDirectory disk directorySlots true header =
      some (.ok (loadedRoot disk header t), stream) := by
  obtain ⟨stream, count⟩ := fat16GetTotalItemsForDirectory_ends ends
  obtain ⟨after, entry, read⟩ := diskStreamRead_cases disk ⟨rootPos disk header⟩ (rootDirSize header)
  refine ⟨after, ?_⟩
  rw [rootPos] at read
  simp only [fat16GetRootDirectory, loadedRoot, rootPos, count, diskStreamSeek, read, pure, bind,
    Option.bind_some, Bool.not_true, lt_irrefl, if_false]
  rfl

theorem fat16GetRootDirectory_cases {fuel : Nat} {served : Bool} {root : FatDirectory}
    {stream : DiskStream}
    (load : fat16GetRootDirectory disk fuel served header = some (.ok root, stream)) :
    ∃ t, EndsAt disk (rootPos disk header) t ∧ root = loadedRoot disk header t := by
  simp only [fat16GetRootDirectory, bind, Option.bind_eq_some_iff] at load
  obtain ⟨⟨items, after⟩, count, load⟩ := load
  obtain ⟨t, ends, rfl⟩ := fat16GetTotalItemsForDirectory_cases count
  refine ⟨t, ends, ?_⟩
  cases served with
  | false => simp [pure] at load
  | true =>
      simp [pure, diskStreamSeek] at load
      exact load.1.symm

theorem loadedRoot_length (t : Nat) :
    (loadedRoot disk header t).entry.length = 32 * header.rootDirEntries.toNat := by
  simp only [loadedRoot, diskStreamRead_length, rootDirSize, sizeofFatDirectoryEntry]
  omega

/-- The root directory is loaded, and every index below the stored count is one of an
    entry that was allocated and read. -/
def RootScanInside (disk : Disk) (header : FatHeader) : Prop :=
  ∃ root stream, fat16GetRootDirectory disk directorySlots true header = some (.ok root, stream) ∧
    0 ≤ root.total ∧ root.total ≤ header.rootDirEntries.toNat ∧
    ∀ i : Nat, i < root.total → 32 * i + 32 ≤ root.entry.length

end Root

/-- The first two slots behind the FATs of `blankHeader` are in use. -/
def twoEntriesDisk : Disk := ⟨fun lba i => if lba = 17 ∧ i < 64 then 0x41 else 0, fun _ => 0⟩

theorem twoEntriesDisk_slotMark {i : Nat} (bound : i < 16) :
    slotMark twoEntriesDisk (17 * 512) i = if i < 2 then 0x41 else 0 := by
  have mark := slotMark_eq twoEntriesDisk (17 * 512) i (by omega)
  refine mark.trans ?_
  interval_cases i <;> rfl

end ConiferOS.Fs
