import ConiferOS.Fs.ClusterChain
import ConiferOS.Fs.Slots

/-! # Accepting a volume

`fat16_resolve` looks at one byte of the boot sector, the extended boot signature, and
takes the geometry as it is. What the reader then does with it: the cluster size is a
divisor, and cluster numbers are multiplied up to byte positions of type `int`.
-/

namespace ConiferOS.Fs

/-! ## The boot sector -/

/-- `sizeof(struct fat_header)`. -/
def sizeofFatHeader : Int := 62

/-- A little-endian field of two bytes. -/
def halfAt (raw : List Byte) (i : Nat) : BitVec 16 := raw.getD (i + 1) 0 ++ raw.getD i 0

def FatHeader.ofBytes (raw : List Byte) : FatHeader where
  sectorsPerCluster := raw.getD 13 0
  reservedSectors := halfAt raw 14
  fatCopies := raw.getD 16 0
  rootDirEntries := halfAt raw 17
  sectorsPerFat := halfAt raw 22

/-- `none` when the root directory has no end. The driver's own structures are allocated;
    `served` says whether there is room for the entries of the root directory. -/
def fat16Resolve (disk : Disk) (served : Bool) : Option (Except Int FatVolume) :=
  let (rc, _, raw) := diskStreamRead disk ⟨0⟩ sizeofFatHeader
  if rc < 0 then some (.error rc)
  else if raw.getD 38 0 ≠ 0x29 then some (.error (-efsnotus))
  else (fat16GetRootDirectory disk directorySlots served (FatHeader.ofBytes raw)).map
    fun (loaded, _) => loaded.map fun rootDirectory => ⟨FatHeader.ofBytes raw, rootDirectory⟩

section Accepted

variable {disk : Disk} {served : Bool} {fat : FatVolume}

theorem bootSector_read (disk : Disk) :
    ∃ stream, diskStreamRead disk ⟨0⟩ sizeofFatHeader = (0, stream, diskBytes disk 0 62) := by
  have size : sizeofFatHeader = ((62 : Nat) : Int) := rfl
  have start : (0 : Int) = ((0 : Nat) : Int) := rfl
  rw [size, start]
  exact ⟨_, diskStreamRead_eq disk 0 62 (by decide)⟩

theorem fat16Resolve_eq (disk : Disk) (served : Bool) :
    fat16Resolve disk served =
      if diskByte disk 38 ≠ 0x29 then some (.error (-efsnotus))
      else (fat16GetRootDirectory disk directorySlots served
          (FatHeader.ofBytes (diskBytes disk 0 62))).map
        fun (loaded, _) => loaded.map fun root => ⟨FatHeader.ofBytes (diskBytes disk 0 62), root⟩ := by
  obtain ⟨stream, read⟩ := bootSector_read disk
  have signature : (diskBytes disk 0 62).getD 38 0 = diskByte disk 38 := rfl
  simp only [fat16Resolve, read, lt_irrefl, if_false, signature]

/-- An accepted volume has the header of the boot sector and the loaded root directory. -/
theorem fat16Resolve_accepted (resolved : fat16Resolve disk served = some (.ok fat)) :
    fat.header = FatHeader.ofBytes (diskBytes disk 0 62) ∧ fat.Loaded disk := by
  rw [fat16Resolve_eq] at resolved
  split at resolved
  case isTrue => cases resolved
  case isFalse =>
    obtain ⟨⟨loaded, stream⟩, load, result⟩ := Option.map_eq_some_iff.mp resolved
    cases loaded with
    | error rc => cases result
    | ok root =>
        cases result
        exact ⟨rfl, directorySlots, served, stream, load⟩

theorem fat16Resolve_ends {t : Nat} (signed : diskByte disk 38 = 0x29)
    (ends : EndsAt disk (rootPos disk (FatHeader.ofBytes (diskBytes disk 0 62))) t) :
    fat16Resolve disk true = some (.ok ⟨FatHeader.ofBytes (diskBytes disk 0 62),
      loadedRoot disk (FatHeader.ofBytes (diskBytes disk 0 62)) t⟩) := by
  obtain ⟨stream, load⟩ := fat16GetRootDirectory_ends ends
  rw [fat16Resolve_eq, if_neg (not_not.mpr signed), load]
  rfl

end Accepted

/-! ## Division by zero -/

section Returning

variable {disk : Disk} {served : Bool} {fat : FatVolume}

/-- Induction on the bytes left: every piece is a cluster long. -/
theorem fat16ReadInternal_returns (nonzero : clusterSizeBytes disk fat ≠ 0) (streams : FatStreams)
    (start offset n : Int) : (fat16ReadInternal disk fat streams start offset n).isSome := by
  induction size : n.toNat using Nat.strong_induction_on generalizing streams offset n with
  | _ size ih =>
      obtain ⟨⟨cluster, after⟩, chain⟩ :
          ∃ found, fat16GetClusterInChain disk fat streams start offset = some found :=
        ⟨_, if_neg nonzero⟩
      have positive := clusterSizeBytes_pos_of_chain chain
      rw [fat16ReadInternal_eq n chain]
      split_ifs with failed more
      · rfl
      · obtain ⟨piece, long⟩ := bytesToRead_of_more more
        rw [Option.isSome_map]
        exact ih _ (by omega) _ _ _ rfl
      · rfl

/-- Every lookup in a chain and every read along one come back. -/
def ReaderReturns (disk : Disk) (fat : FatVolume) : Prop :=
  ∀ (streams : FatStreams) (start offset n : Int), 0 ≤ offset → 0 ≤ n →
    (fat16GetClusterInChain disk fat streams start offset).isSome ∧
      (fat16ReadInternal disk fat streams start offset n).isSome

/-- On an accepted volume the reader divides by zero exactly when byte 13 of the boot
    sector, the number of sectors in a cluster, is zero. -/
theorem reader_returns_iff (resolved : fat16Resolve disk served = some (.ok fat)) :
    ReaderReturns disk fat ↔ diskByte disk 13 ≠ 0 := by
  have field : fat.header.sectorsPerCluster = diskByte disk 13 := by
    rw [(fat16Resolve_accepted resolved).1]
    rfl
  have divisor : diskByte disk 13 ≠ 0 ↔ clusterSizeBytes disk fat ≠ 0 := by
    rw [← field, Ne, Ne, clusterSizeBytes_eq_zero_iff]
  rw [divisor]
  constructor
  · intro returns zero
    have chain := (returns freshStreams 0 0 0 le_rfl le_rfl).1
    rw [fat16GetClusterInChain, if_pos zero] at chain
    cases chain
  · intro nonzero streams start offset n _ _
    refine ⟨?_, fat16ReadInternal_returns nonzero streams start offset n⟩
    rw [fat16GetClusterInChain, if_neg nonzero]
    rfl

end Returning

/-- A disk with the given boot sector and zeros behind it. -/
def bootDisk (boot : List Byte) : Disk :=
  ⟨fun lba i => if lba = 0 then boot.getD i 0 else 0, fun _ => 0⟩

/-- Only the signature is set. -/
def unformatted : List Byte := List.replicate 38 0 ++ [0x29]

theorem unformatted_resolved :
    ∃ fat, fat16Resolve (bootDisk unformatted) true = some (.ok fat) ∧
      fat.header.sectorsPerCluster = 0 := by
  have ends : EndsAt (bootDisk unformatted)
      (rootPos (bootDisk unformatted) (FatHeader.ofBytes (diskBytes (bootDisk unformatted) 0 62))) 0 := by
    refine ⟨?_, fun i before => absurd before (Nat.not_lt_zero i)⟩
    have place : rootPos (bootDisk unformatted)
        (FatHeader.ofBytes (diskBytes (bootDisk unformatted) 0 62)) = 0 := by decide
    rw [place]
    exact (slotMark_eq (bootDisk unformatted) 0 0 (by decide)).trans (by decide)
  exact ⟨_, fat16Resolve_ends (by decide) ends, by decide⟩

/-- A signed boot sector of zeros is accepted, and the first lookup divides by zero. -/
theorem reader_faults_unformatted :
    ∃ fat, fat16Resolve (bootDisk unformatted) true = some (.ok fat) ∧
      fat16GetClusterInChain (bootDisk unformatted) fat freshStreams 2 0 = none ∧
      fat16ReadInternal (bootDisk unformatted) fat freshStreams 2 0 1 = none := by
  obtain ⟨fat, resolved, empty⟩ := unformatted_resolved
  have zero := (clusterSizeBytes_eq_zero_iff (bootDisk unformatted) fat).mpr empty
  exact ⟨fat, resolved, if_pos zero, fat16ReadInternal_faults zero _ _ _ _⟩

/-- The boot sector that `boot.asm` assembles, as far as the driver reads it. -/
def coniferBoot : List Byte :=
  [0xEB, 0x3C, 0x90, 0x43, 0x4F, 0x4E, 0x49, 0x46, 0x45, 0x52, 0x20, 0x00, 0x02, 0x80, 0xA1, 0x0F,
   0x02, 0x40, 0x00, 0x00, 0x00, 0xF8, 0x00, 0x01, 0x20, 0x00, 0x40, 0x00, 0x00, 0x00, 0x00, 0x00,
   0x94, 0x35, 0x77, 0x00, 0x80, 0x00, 0x29, 0x05, 0xD1, 0x00, 0x00, 0x43, 0x4F, 0x4E, 0x49, 0x46,
   0x45, 0x52, 0x4F, 0x53, 0x20, 0x20, 0x46, 0x41, 0x54, 0x31, 0x36, 0x20, 0x20, 0x20]

def coniferHeader : FatHeader := ⟨0x80, 0x0FA1, 2, 0x40, 0x100⟩

/-- The volume on a freshly formatted disk. -/
def coniferVolume : FatVolume := ⟨coniferHeader, loadedRoot (bootDisk coniferBoot) coniferHeader 0⟩

theorem coniferVolume_resolved :
    fat16Resolve (bootDisk coniferBoot) true = some (.ok coniferVolume) := by
  have header : FatHeader.ofBytes (diskBytes (bootDisk coniferBoot) 0 62) = coniferHeader := rfl
  have sector : rootDirSector coniferHeader = 4513 := rfl
  have place : rootPos (bootDisk coniferBoot) coniferHeader = ((4513 * 512 : Nat) : Int) := by
    rw [rootPos, sector]
    exact int32_of_mem (by decide) (by decide)
  have ends : EndsAt (bootDisk coniferBoot) (rootPos (bootDisk coniferBoot) coniferHeader) 0 := by
    refine ⟨?_, fun i before => absurd before (Nat.not_lt_zero i)⟩
    rw [place, slotMark_eq (bootDisk coniferBoot) (4513 * 512) 0 (by decide)]
    decide
  rw [← header] at ends
  rw [fat16Resolve_ends (by decide) ends, header]
  rfl

theorem reader_returns_iff_conifer : ReaderReturns (bootDisk coniferBoot) coniferVolume :=
  (reader_returns_iff coniferVolume_resolved).mpr (by decide)

/-! ## Byte positions -/

/-- The position that `fat16_read_internal` seeks to. -/
def readPosition (disk : Disk) (fat : FatVolume) (startCluster offsetFromCluster : Int) : Int :=
  int32 (fat16ClusterToStartSector fat startCluster * disk.sectorSize + offsetFromCluster)

/-- A byte of a data cluster. -/
structure InVolume (disk : Disk) (fat : FatVolume) (cluster offset : Int) : Prop where
  first : 2 ≤ cluster
  last : cluster ≤ 0xFFEF
  nonneg : 0 ≤ offset
  inside : offset < clusterSizeBytes disk fat

/-- What is promised of the positions for a byte of a cluster. -/
structure PositionsExact (disk : Disk) (fat : FatVolume) (cluster offset : Int) : Prop where
  read : readPosition disk fat cluster offset = fat.header.clusterPos cluster + offset
  nonneg : 0 ≤ readPosition disk fat cluster offset
  bytes : ∀ (streams : FatStreams) (n : Int), n ≤ clusterSizeBytes disk fat →
    ∃ after, fat16ReadInternal disk fat streams cluster offset n =
      some (0, after, (diskStreamRead disk ⟨fat.header.clusterPos cluster + offset⟩ n).2.2)
  directory : fat16SectorToAbsolutePos disk (fat16ClusterToStartSector fat cluster) =
    fat.header.clusterPos cluster
  root : fat16SectorToAbsolutePos disk (rootDirSector fat.header) = rootDirSector fat.header * 512
  apart : ∀ other offset', InVolume disk fat other offset' → other ≠ cluster →
    readPosition disk fat other offset' ≠ readPosition disk fat cluster offset

section Positions

variable {disk : Disk} {served : Bool} {fat : FatVolume} {cluster other offset offset' : Int}

theorem int32_eq_self_iff (x : Int) : int32 x = x ↔ -2 ^ 31 ≤ x ∧ x < 2 ^ 31 := by
  constructor
  · intro same
    rw [← same]
    exact int32_mem x
  · exact fun mem => int32_of_mem mem.1 mem.2

theorem emod_of_int32_eq {x y : Int} (same : int32 x = int32 y) : x % 2 ^ 32 = y % 2 ^ 32 := by
  have remainder : ∀ z, int32 z % 2 ^ 32 = z % 2 ^ 32 := fun z => Int.bmod_emod
  rw [← remainder x, ← remainder y, same]

/-- Two bytes of different clusters are less than `2^32` apart. -/
theorem clusterPos_apart (header : FatHeader) (small : header.sectorsPerCluster.toNat ≤ 128)
    (before : cluster < other) (first : 2 ≤ cluster) (last : other ≤ 0xFFEF) :
    header.sectorsPerCluster.toNat * 512 ≤ header.clusterPos other - header.clusterPos cluster ∧
      header.clusterPos other - header.clusterPos cluster ≤ 65517 * 65536 := by
  have apart : header.clusterPos other - header.clusterPos cluster =
      (other - cluster) * (header.sectorsPerCluster.toNat * 512) := by
    unfold FatHeader.clusterPos
    ring
  rw [apart]
  constructor
  · calc (header.sectorsPerCluster.toNat * 512 : Int)
        = 1 * (header.sectorsPerCluster.toNat * 512) := (one_mul _).symm
      _ ≤ (other - cluster) * (header.sectorsPerCluster.toNat * 512) :=
        Int.mul_le_mul_of_nonneg_right (by omega) (by omega)
  · exact Int.mul_le_mul (by omega) (by omega) (by omega) (by omega)

theorem readPosition_injective (loaded : fat.Loaded disk)
    (small : fat.header.sectorsPerCluster.toNat ≤ 128) (here : InVolume disk fat cluster offset)
    (there : InVolume disk fat other offset') (before : cluster < other) :
    readPosition disk fat cluster offset ≠ readPosition disk fat other offset' := by
  intro same
  obtain ⟨least, most⟩ := clusterPos_apart fat.header small before here.first there.last
  have size : clusterSizeBytes disk fat = fat.header.sectorsPerCluster.toNat * 512 := rfl
  have inside := here.inside
  have inside' := there.inside
  have nonneg := here.nonneg
  have nonneg' := there.nonneg
  have wrapped := emod_of_int32_eq same
  rw [loaded.clusterPos, loaded.clusterPos] at wrapped
  omega

/-- On an accepted volume the positions for a byte of a cluster are right exactly when the
    byte is in the first 2 GB of the disk. -/
theorem positions_exact_iff (resolved : fat16Resolve disk served = some (.ok fat))
    (small : fat.header.sectorsPerCluster.toNat ≤ 128) (here : InVolume disk fat cluster offset) :
    PositionsExact disk fat cluster offset ↔ fat.header.clusterPos cluster + offset < 2 ^ 31 := by
  have loaded := (fat16Resolve_accepted resolved).2
  have place := loaded.clusterPos cluster
  have size : clusterSizeBytes disk fat = fat.header.sectorsPerCluster.toNat * 512 := rfl
  have first := here.first
  have nonneg := here.nonneg
  have inside := here.inside
  constructor
  · intro kept
    have read := kept.read
    rw [readPosition, place, int32_eq_self_iff] at read
    exact read.2
  · intro near
    have fats : 0 ≤ rootDirSector fat.header := by
      unfold rootDirSector
      positivity
    have ahead : 0 ≤ (cluster - 2) * (fat.header.sectorsPerCluster.toNat : Int) :=
      Int.mul_nonneg (by omega) (Int.natCast_nonneg _)
    have rootBefore : rootDirSector fat.header * 512 ≤ fat.header.clusterPos cluster := by
      unfold FatHeader.clusterPos
      omega
    have exact' : readPosition disk fat cluster offset = fat.header.clusterPos cluster + offset := by
      rw [readPosition, place]
      exact int32_of_mem (by omega) (by omega)
    refine ⟨exact', by omega, fun streams n short => ?_, ?_, ?_, fun other offset' there distinct => ?_⟩
    · rw [← exact']
      exact fat16ReadInternal_piece (by omega) (by omega) nonneg inside short
    · rw [fat16SectorToAbsolutePos, place]
      exact int32_of_mem (by omega) (by omega)
    · exact int32_of_mem (by unfold Disk.sectorSize diskSectorSize; omega)
        (by unfold Disk.sectorSize diskSectorSize; omega)
    · rcases lt_or_gt_of_ne distinct with before | after
      · exact readPosition_injective loaded small there here before
      · exact (readPosition_injective loaded small here there after).symm

end Positions

/-- Cluster `0x8000` of the project's own volume starts past 2 GB, and is read from a
    negative position. -/
theorem positions_wrap_conifer :
    fat16Resolve (bootDisk coniferBoot) true = some (.ok coniferVolume) ∧
      coniferVolume.header.sectorsPerCluster.toNat ≤ 128 ∧
      InVolume (bootDisk coniferBoot) coniferVolume 0x8000 0 ∧
      readPosition (bootDisk coniferBoot) coniferVolume 0x8000 0 = -2145302016 ∧
      ¬ PositionsExact (bootDisk coniferBoot) coniferVolume 0x8000 0 := by
  have place : readPosition (bootDisk coniferBoot) coniferVolume 0x8000 0 = -2145302016 := by decide
  refine ⟨coniferVolume_resolved, by decide, ⟨by decide, by decide, le_rfl, by decide⟩, place,
    fun kept => ?_⟩
  have nonneg := kept.nonneg
  rw [place] at nonneg
  exact absurd nonneg (by decide)

theorem positions_exact_iff_conifer :
    InVolume (bootDisk coniferBoot) coniferVolume 2 0 ∧
      PositionsExact (bootDisk coniferBoot) coniferVolume 2 0 := by
  have here : InVolume (bootDisk coniferBoot) coniferVolume 2 0 :=
    ⟨by decide, by decide, le_rfl, by decide⟩
  exact ⟨here, (positions_exact_iff coniferVolume_resolved (by decide) here).mpr (by decide)⟩

end ConiferOS.Fs
