import ConiferOS.Fs.Fat16

/-! # Disk regions

A volume is the reserved sectors, the copies of the FAT, the root directory and the
clusters, in this order. `end_sector` of the root directory, where cluster 2 starts,
rounds the directory's size down to whole sectors.
-/

namespace ConiferOS.Fs

/-- The root directory is the one the driver loaded for this header. -/
def FatVolume.Loaded (disk : Disk) (fat : FatVolume) : Prop :=
  ∃ fuel served stream,
    fat16GetRootDirectory disk fuel served fat.header = some (.ok fat.rootDirectory, stream)

namespace FatVolume

variable {disk : Disk} {fat : FatVolume}

def InCluster (fat : FatVolume) (cluster sector : Int) : Prop :=
  fat16ClusterToStartSector fat cluster ≤ sector ∧
    sector < fat16ClusterToStartSector fat cluster + fat.header.sectorsPerCluster.toNat

def InReserved (fat : FatVolume) (sector : Int) : Prop :=
  0 ≤ sector ∧ sector < fat.header.reservedSectors.toNat

def InFat (fat : FatVolume) (copy : Nat) (sector : Int) : Prop :=
  copy < fat.header.fatCopies.toNat ∧
    fat16GetFirstFatSector fat + copy * fat.header.sectorsPerFat.toNat ≤ sector ∧
    sector < fat16GetFirstFatSector fat + (copy + 1) * fat.header.sectorsPerFat.toNat

/-- The sector holds a byte of the root directory. -/
def InRootDirectory (disk : Disk) (fat : FatVolume) (sector : Int) : Prop :=
  ∃ byte : Int, 0 ≤ byte ∧ byte < rootDirSize fat.header ∧
    sector = fat.rootDirectory.sector + byte / disk.sectorSize

structure RegionsDisjoint (disk : Disk) (fat : FatVolume) : Prop where
  clusters : ∀ c ≥ 2, ∀ d ≥ 2, c ≠ d → ∀ sector, ¬ (fat.InCluster c sector ∧ fat.InCluster d sector)
  reserved : ∀ c ≥ 2, ∀ sector, ¬ (fat.InCluster c sector ∧ fat.InReserved sector)
  fats : ∀ c ≥ 2, ∀ copy sector, ¬ (fat.InCluster c sector ∧ fat.InFat copy sector)
  root : ∀ c ≥ 2, ∀ sector, ¬ (fat.InCluster c sector ∧ fat.InRootDirectory disk sector)

/-- Where the root directory starts and where the clusters start. -/
theorem Loaded.extent (loaded : fat.Loaded disk) :
    fat.rootDirectory.sector = rootDirSector fat.header ∧
      fat.rootDirectory.endSector =
        rootDirSector fat.header + fat.header.rootDirEntries.toNat * 32 / 512 := by
  obtain ⟨fuel, served, stream, load⟩ := loaded
  simp only [fat16GetRootDirectory, bind, Option.bind_eq_some_iff] at load
  obtain ⟨⟨items, after⟩, -, load⟩ := load
  cases served with
  | false => simp [pure] at load
  | true =>
      simp [pure, diskStreamSeek] at load
      rw [← load.1]
      have size : 0 ≤ rootDirSize fat.header := by
        unfold rootDirSize sizeofFatDirectoryEntry
        omega
      refine ⟨rfl, ?_⟩
      simp only [Int.tdiv_eq_ediv_of_nonneg size]
      rfl

theorem endSector_le_start (fat : FatVolume) {c : Int} (data : c ≥ 2) :
    fat.rootDirectory.endSector ≤ fat16ClusterToStartSector fat c := by
  have ahead : 0 ≤ (c - 2) * (fat.header.sectorsPerCluster.toNat : Int) :=
    Int.mul_nonneg (by omega) (Int.natCast_nonneg _)
  unfold fat16ClusterToStartSector
  omega

theorem start_add_le_start (fat : FatVolume) {c d : Int} (before : c < d) :
    fat16ClusterToStartSector fat c + fat.header.sectorsPerCluster.toNat ≤
      fat16ClusterToStartSector fat d := by
  have apart : (c - 2 + 1) * (fat.header.sectorsPerCluster.toNat : Int) ≤
      (d - 2) * fat.header.sectorsPerCluster.toNat :=
    Int.mul_le_mul_of_nonneg_right (by omega) (Int.natCast_nonneg _)
  rw [Int.add_mul, Int.one_mul] at apart
  unfold fat16ClusterToStartSector
  omega

theorem InFat.before_root {copy : Nat} {sector : Int} (fats : fat.InFat copy sector) :
    sector < rootDirSector fat.header := by
  obtain ⟨bound, -, upper⟩ := fats
  have copies : ((copy : Int) + 1) * fat.header.sectorsPerFat.toNat ≤
      fat.header.fatCopies.toNat * fat.header.sectorsPerFat.toNat :=
    Int.mul_le_mul_of_nonneg_right (by omega) (Int.natCast_nonneg _)
  unfold rootDirSector
  unfold fat16GetFirstFatSector at upper
  omega

/-- Only a root directory that fills whole sectors keeps out of cluster 2. -/
theorem regions_disjoint_iff (loaded : fat.Loaded disk)
    (clustered : 1 ≤ fat.header.sectorsPerCluster.toNat) :
    fat.RegionsDisjoint disk ↔ fat.header.rootDirEntries.toNat % 16 = 0 := by
  obtain ⟨start, stop⟩ := loaded.extent
  have reserved : (fat.header.reservedSectors.toNat : Int) ≤ rootDirSector fat.header := by
    have fats : 0 ≤ (fat.header.fatCopies.toNat : Int) * fat.header.sectorsPerFat.toNat :=
      Int.mul_nonneg (Int.natCast_nonneg _) (Int.natCast_nonneg _)
    unfold rootDirSector
    omega
  constructor
  · intro disjoint
    by_contra ragged
    refine disjoint.root 2 le_rfl fat.rootDirectory.endSector ⟨?_, ?_⟩
    · unfold InCluster fat16ClusterToStartSector
      omega
    · refine ⟨fat.header.rootDirEntries.toNat * 32 / 512 * 512, by omega, ?_, ?_⟩
      · unfold rootDirSize sizeofFatDirectoryEntry
        omega
      · unfold Disk.sectorSize diskSectorSize
        omega
  · intro whole
    refine ⟨fun c _ d _ distinct sector both => ?_, fun c data sector both => ?_,
      fun c data copy sector both => ?_, fun c data sector both => ?_⟩
    · obtain ⟨⟨lowerC, upperC⟩, lowerD, upperD⟩ := both
      rcases Int.lt_or_gt_of_ne distinct with before | after
      · have := start_add_le_start fat before
        omega
      · have := start_add_le_start fat after
        omega
    · obtain ⟨⟨lower, -⟩, -, upper⟩ := both
      have := endSector_le_start fat data
      omega
    · obtain ⟨⟨lower, -⟩, fats⟩ := both
      have := endSector_le_start fat data
      have := fats.before_root
      omega
    · obtain ⟨⟨lower, -⟩, byte, -, inside, rfl⟩ := both
      have := endSector_le_start fat data
      unfold rootDirSize sizeofFatDirectoryEntry at inside
      unfold Disk.sectorSize diskSectorSize at lower
      omega

end FatVolume

/-- The volume that is mounted when the root directory has no entries. -/
def emptyVolume (disk : Disk) (header : FatHeader) : FatVolume where
  header := header
  rootDirectory :=
    { entry := (diskStreamRead disk ⟨fat16SectorToAbsolutePos disk (rootDirSector header)⟩
        (rootDirSize header)).2.2
      total := 0
      sector := rootDirSector header
      endSector := rootDirSector header + (rootDirSize header).tdiv disk.sectorSize }

theorem countItems_empty {disk : Disk} {stream after : DiskStream} {entry : List Byte}
    (read : diskStreamRead disk stream sizeofFatDirectoryEntry = (0, after, entry))
    (empty : entry.headD 0 = 0) : countItems disk 1 stream 0 = some (0, after) := by
  simp only [countItems, read, empty, lt_irrefl, if_false, if_true]

theorem fat16GetTotalItemsForDirectory_eq (disk : Disk) (fuel : Nat) (sector : Int) :
    fat16GetTotalItemsForDirectory disk fuel sector =
      countItems disk fuel ⟨fat16SectorToAbsolutePos disk sector⟩ 0 := by
  rw [fat16GetTotalItemsForDirectory]
  generalize fat16SectorToAbsolutePos disk sector = pos
  simp only [diskStreamSeek, lt_irrefl, if_false]

theorem emptyVolume_loaded {disk : Disk} {header : FatHeader}
    (empty : (diskStreamRead disk ⟨fat16SectorToAbsolutePos disk (rootDirSector header)⟩
      sizeofFatDirectoryEntry).2.2.headD 0 = 0) : (emptyVolume disk header).Loaded disk := by
  obtain ⟨after, entry, one⟩ := diskStreamRead_cases disk
    ⟨fat16SectorToAbsolutePos disk (rootDirSector header)⟩ sizeofFatDirectoryEntry
  obtain ⟨behind, rootDir, all⟩ := diskStreamRead_cases disk
    ⟨fat16SectorToAbsolutePos disk (rootDirSector header)⟩ (rootDirSize header)
  rw [one] at empty
  have items := countItems_empty one empty
  rw [← fat16GetTotalItemsForDirectory_eq] at items
  refine ⟨1, true, behind, ?_⟩
  simp only [fat16GetRootDirectory, emptyVolume, items, diskStreamSeek, all, pure, bind,
    Option.bind_some, Bool.not_true, lt_irrefl, if_false]
  rfl

/-- A disk of zeros. -/
def blankDisk : Disk := ⟨fun _ _ => 0, fun _ => 0⟩

def blankHeader (entries : BitVec 16) : FatHeader := ⟨1, 1, 2, entries, 8⟩

/-- A volume on the disk of zeros with `entries` root directory entries. -/
def blankVolume (entries : BitVec 16) : FatVolume where
  header := blankHeader entries
  rootDirectory :=
    { entry := (diskStreamRead blankDisk ⟨17 * 512⟩ (rootDirSize (blankHeader entries))).2.2
      total := 0
      sector := 17
      endSector := 17 + (rootDirSize (blankHeader entries)).tdiv 512 }

theorem blankVolume_loaded (entries : BitVec 16) : (blankVolume entries).Loaded blankDisk := by
  have sector : rootDirSector (blankHeader entries) = 17 := rfl
  have position : fat16SectorToAbsolutePos blankDisk 17 = 17 * 512 :=
    int32_of_mem (by decide) (by decide)
  have volume : blankVolume entries = emptyVolume blankDisk (blankHeader entries) := by
    simp only [blankVolume, emptyVolume, sector, position]
    rfl
  rw [volume]
  apply emptyVolume_loaded
  rw [sector, position, diskStreamRead]
  rfl

/-- With one root directory entry, cluster 2 starts on the sector that holds it. -/
theorem regions_overlap_one_entry :
    (blankVolume 1).Loaded blankDisk ∧ 1 ≤ (blankVolume 1).header.sectorsPerCluster.toNat ∧
      ¬ (blankVolume 1).RegionsDisjoint blankDisk := by
  refine ⟨blankVolume_loaded 1, by decide, fun disjoint => ?_⟩
  exact disjoint.root 2 le_rfl 17 ⟨by unfold FatVolume.InCluster; decide, 0, by decide, by decide, rfl⟩

theorem regions_disjoint_iff_sixteen_entries : (blankVolume 16).RegionsDisjoint blankDisk :=
  (FatVolume.regions_disjoint_iff (blankVolume_loaded 16) (by decide)).mpr rfl

end ConiferOS.Fs
