import ConiferOS.Fs.Independence
import ConiferOS.Fs.SectorStream

/-! # Following a chain

What a lookup in a chain and a read along it promise, and when the driver keeps the
promise. A lookup never gets past the first cluster, since no entry of the FAT is seen.
A read is cut into pieces of a cluster's size that start where the request starts, so one
piece can run over the end of its cluster.
-/

namespace ConiferOS.Fs

/-! ## Lookups -/

/-- The `k`-th cluster of a chain, `-EIO` past its end. -/
def chainResult (disk : Disk) (fat : FatVolume) (first k : Nat) : Int :=
  match clusterChain disk fat first k with
  | some cluster => cluster
  | none => -eio

def FollowsChain (disk : Disk) (fat : FatVolume) (streams : FatStreams) (first : Nat)
    (offset : Int) : Prop :=
  ∃ after, fat16GetClusterInChain disk fat streams first offset =
    some (chainResult disk fat first (offset / clusterSizeBytes disk fat).toNat, after)

section Lookup

variable {disk : Disk} {fat : FatVolume}

theorem clusterSizeBytes_pos (disk : Disk) (clustered : 1 ≤ fat.header.sectorsPerCluster.toNat) :
    0 < clusterSizeBytes disk fat := by
  unfold clusterSizeBytes Disk.sectorSize diskSectorSize
  omega

/-- A lookup is right in the first cluster, and past it where the chain has ended. -/
theorem cluster_in_chain_iff (disk : Disk) (fat : FatVolume) (streams : FatStreams)
    (clustered : 1 ≤ fat.header.sectorsPerCluster.toNat) (first : Nat) {offset : Int}
    (nonneg : 0 ≤ offset) :
    FollowsChain disk fat streams first offset ↔
      offset < clusterSizeBytes disk fat ∨
        clusterChain disk fat first (offset / clusterSizeBytes disk fat).toNat = none := by
  have positive := clusterSizeBytes_pos disk clustered
  obtain ⟨cluster, after, lookup, here, away⟩ :=
    fat16GetClusterInChain_eq positive first offset streams
  have returned : FollowsChain disk fat streams first offset ↔
      cluster = chainResult disk fat first (offset / clusterSizeBytes disk fat).toNat := by
    rw [FollowsChain, lookup]
    simp
  rw [returned]
  rcases lt_or_ge offset (clusterSizeBytes disk fat) with inside | past
  · have start : (offset / clusterSizeBytes disk fat).toNat = 0 := by
      rw [Int.ediv_eq_zero_of_lt nonneg inside]
      rfl
    rw [here inside, start]
    exact iff_of_true rfl (.inl inside)
  · rw [away past, chainResult]
    cases chain : clusterChain disk fat first (offset / clusterSizeBytes disk fat).toNat with
    | none => simp
    | some next =>
        refine iff_of_false ?_ (by simp [past])
        simp only [eio]
        omega

end Lookup

/-- Cluster 3 comes after cluster 2 in the FAT of this disk. -/
def twoClusterDisk : Disk := ⟨fun lba i => if lba = 1 ∧ i = 4 then 3 else 0, fun _ => 0⟩

def freshStreams : FatStreams := ⟨⟨0⟩, ⟨0⟩, ⟨0⟩⟩

/-- The second cluster of a chain of two is not found. -/
theorem second_cluster_not_found :
    1 ≤ (blankVolume 16).header.sectorsPerCluster.toNat ∧
      ¬ FollowsChain twoClusterDisk (blankVolume 16) freshStreams 2 512 := by
  refine ⟨by decide, fun follows => ?_⟩
  obtain ⟨after, lookup⟩ := follows
  have positive : 0 < clusterSizeBytes twoClusterDisk (blankVolume 16) := by decide
  obtain ⟨cluster, after', lookup', -, away⟩ :=
    fat16GetClusterInChain_eq positive (2 : Nat) 512 freshStreams
  rw [lookup', away (by decide)] at lookup
  obtain ⟨returned, -⟩ := Prod.mk.inj (Option.some.inj lookup)
  have second : (512 / clusterSizeBytes twoClusterDisk (blankVolume 16)).toNat = 1 := by decide
  have chain : clusterChain twoClusterDisk (blankVolume 16) 2 1 = some 3 := by decide
  rw [second, chainResult, chain] at returned
  exact absurd returned (by decide)

/-- Past the only cluster of a chain, the lookup is right. -/
theorem cluster_in_chain_iff_ended : FollowsChain blankDisk (blankVolume 16) freshStreams 2 512 :=
  (cluster_in_chain_iff blankDisk (blankVolume 16) freshStreams (by decide) 2 (by decide)).mpr
    (.inr (by decide))

/-! ## Reads -/

/-- A byte of the area that a cluster takes on the disk. -/
def clusterByte (disk : Disk) (fat : FatVolume) (cluster i : Int) : Option Byte :=
  let pos := fat16ClusterToStartSector fat cluster * disk.sectorSize + i
  if pos < 0 then none else some (diskByte disk pos.toNat)

/-- What a read along a chain promises. -/
structure ReadsChain (disk : Disk) (fat : FatVolume) (streams : FatStreams) (start offset n : Int) :
    Prop where
  returns :
    (∃ rc after bytes,
      fat16ReadInternal disk fat streams start offset n = some (rc, after, bytes) ∧ 0 ≤ rc) ↔
    ∀ j, offset ≤ j → j < offset + n →
      ∃ cluster after, fat16GetClusterInChain disk fat streams start j = some (cluster, after) ∧
        0 ≤ cluster
  contents : ∀ rc after bytes,
    fat16ReadInternal disk fat streams start offset n = some (rc, after, bytes) → 0 ≤ rc →
      ∀ k : Nat, k < n → ∃ cluster after byte,
        fat16GetClusterInChain disk fat streams start (offset + k) = some (cluster, after) ∧
          bytes[k]? = some byte ∧
          clusterByte disk fat cluster ((offset + k) % clusterSizeBytes disk fat) = some byte

section Reads

variable {disk : Disk} {fat : FatVolume} {streams : FatStreams} {start offset n : Int}

theorem chain_succeeds_iff (positive : 0 < clusterSizeBytes disk fat) (first : 0 ≤ start) (j : Int) :
    (∃ cluster after, fat16GetClusterInChain disk fat streams start j = some (cluster, after) ∧
      0 ≤ cluster) ↔ j < clusterSizeBytes disk fat := by
  obtain ⟨cluster, after, lookup, here, away⟩ := fat16GetClusterInChain_eq positive start j streams
  rw [lookup]
  constructor
  · rintro ⟨found, after', same, succeeds⟩
    cases same
    by_contra past
    rw [away (not_lt.mp past)] at succeeds
    exact absurd succeeds (by decide)
  · intro inside
    exact ⟨cluster, after, rfl, by rwa [here inside]⟩

/-- A read that is one piece of the first cluster, or starts in it and runs past it. -/
theorem fat16ReadInternal_piece (positive : 0 < clusterSizeBytes disk fat) (first : 0 ≤ start)
    (nonneg : 0 ≤ offset) (inside : offset < clusterSizeBytes disk fat)
    (short : n ≤ clusterSizeBytes disk fat) :
    ∃ after, fat16ReadInternal disk fat streams start offset n = some (0, after,
      (diskStreamRead disk
        ⟨int32 (fat16ClusterToStartSector fat start * disk.sectorSize + offset)⟩ n).2.2) := by
  obtain ⟨cluster, after, lookup, here, -⟩ := fat16GetClusterInChain_eq positive start offset streams
  have piece : bytesToRead (clusterSizeBytes disk fat) n = n := if_neg (not_lt.mpr short)
  have within : offset.tmod (clusterSizeBytes disk fat) = offset := Int.tmod_eq_of_lt nonneg inside
  rw [fat16ReadInternal_eq n lookup, here inside, if_neg (not_lt.mpr first), firstPiece, piece, within,
    if_neg (by omega)]
  exact ⟨_, rfl⟩

/-- A read of more than a cluster, or past the first one, fails, and so does its chain. -/
theorem ReadsChain.of_leaves (positive : 0 < clusterSizeBytes disk fat) (first : 0 ≤ start)
    (nonneg : 0 ≤ offset) (counted : 1 ≤ n)
    (leaves : clusterSizeBytes disk fat ≤ offset ∨ clusterSizeBytes disk fat < n) :
    ReadsChain disk fat streams start offset n := by
  obtain ⟨rc, after, bytes, read, fails⟩ :=
    fat16ReadInternal_fails_iff positive first offset n (by omega) streams
  have failed : rc < 0 := by
    refine fails.mpr ?_
    rcases leaves with past | long
    · exact leavesFirstCluster_past past
    · exact ⟨1, .inr (by simpa using long), by simpa using nonneg⟩
  rw [← Int.not_le] at failed
  constructor
  · rw [read]
    refine iff_of_false ?_ fun succeeds => ?_
    · rintro ⟨rc', after', bytes', same, ok⟩
      cases same
      exact failed ok
    · have last := (chain_succeeds_iff positive first (offset + n - 1)).mp
        (succeeds (offset + n - 1) (by omega) (by omega))
      omega
  · intro rc' after' bytes' same ok
    rw [read] at same
    cases same
    exact absurd ok failed

/-- A read that stays in the first cluster delivers the bytes of the cluster. -/
theorem ReadsChain.of_inside (positive : 0 < clusterSizeBytes disk fat) (first : 0 ≤ start)
    (nonneg : 0 ≤ offset) (counted : 1 ≤ n) (inside : offset + n ≤ clusterSizeBytes disk fat)
    (lower : 0 ≤ fat16ClusterToStartSector fat start * disk.sectorSize + offset)
    (upper : fat16ClusterToStartSector fat start * disk.sectorSize + offset + n ≤ 2 ^ 31) :
    ReadsChain disk fat streams start offset n := by
  have short : n ≤ clusterSizeBytes disk fat := by omega
  have stays : offset < clusterSizeBytes disk fat := by omega
  obtain ⟨after, read⟩ : ∃ after, fat16ReadInternal disk fat streams start offset n = _ :=
    fat16ReadInternal_piece positive first nonneg stays short
  obtain ⟨pos, atPos⟩ := Int.eq_ofNat_of_zero_le lower
  obtain ⟨count, rfl⟩ := Int.eq_ofNat_of_zero_le (by omega : 0 ≤ n)
  rw [atPos] at upper read
  rw [int32_of_mem (by omega) (by omega), diskStreamRead_eq disk pos count (by omega)] at read
  constructor
  · refine iff_of_true ⟨_, _, _, read, le_rfl⟩ fun j _ above => ?_
    exact (chain_succeeds_iff positive first j).mpr (by omega)
  · intro rc after' bytes same _ k bound
    rw [read] at same
    cases same
    have within : offset + k < clusterSizeBytes disk fat := by omega
    obtain ⟨cluster, found, lookup, here, -⟩ :=
      fat16GetClusterInChain_eq positive start (offset + k) streams
    have place : fat16ClusterToStartSector fat start * disk.sectorSize + (offset + k) =
        ((pos + k : Nat) : Int) := by
      push_cast
      omega
    refine ⟨cluster, found, diskByte disk (pos + k), lookup, ?_, ?_⟩
    · have counted : k < count := by omega
      simp [diskBytes, counted]
    · rw [here within, clusterByte, Int.emod_eq_of_lt (by omega) within]
      simp only [place]
      rw [if_neg (by omega), Int.toNat_natCast]

/-- A byte that was delivered is the one of the first cluster. -/
theorem ReadsChain.byte (kept : ReadsChain disk fat streams start offset n)
    (positive : 0 < clusterSizeBytes disk fat) (nonneg : 0 ≤ offset) {rc : Int} {after : FatStreams}
    {bytes : List Byte}
    (read : fat16ReadInternal disk fat streams start offset n = some (rc, after, bytes))
    (ok : 0 ≤ rc) {k : Nat} (bound : k < n) (inside : offset + k < clusterSizeBytes disk fat) :
    ∃ byte ∈ bytes, clusterByte disk fat start (offset + k) = some byte := by
  obtain ⟨cluster, found, byte, lookup, delivered, place⟩ := kept.contents rc after bytes read ok k bound
  obtain ⟨cluster', found', lookup', here, -⟩ :=
    fat16GetClusterInChain_eq positive start (offset + k) streams
  rw [lookup] at lookup'
  cases lookup'
  rw [here inside, Int.emod_eq_of_lt (by omega) inside] at place
  exact ⟨byte, List.mem_of_getElem? delivered, place⟩

end Reads

/-! ## Which reads keep the promise -/

/-- Where a cluster starts, in bytes. -/
def FatHeader.clusterPos (header : FatHeader) (cluster : Int) : Int :=
  (rootDirSector header + header.rootDirEntries.toNat * 32 / 512 +
    (cluster - 2) * header.sectorsPerCluster.toNat) * 512

/-- The request starts past the first cluster or is longer than a cluster, or it ends in
    the first cluster, at positions that are an `int`. -/
def FatHeader.ReadInside (header : FatHeader) (start offset n : Int) : Prop :=
  let clusterSize : Int := header.sectorsPerCluster.toNat * 512
  clusterSize ≤ offset ∨ clusterSize < n ∨
    offset + n ≤ clusterSize ∧ 0 ≤ header.clusterPos start + offset ∧
      header.clusterPos start + offset + n ≤ 2 ^ 31

instance (header : FatHeader) (start offset n : Int) : Decidable (header.ReadInside start offset n) :=
  inferInstanceAs (Decidable (_ ∨ _ ∨ _ ∧ _ ∧ _))

theorem FatVolume.Loaded.clusterPos {disk : Disk} {fat : FatVolume} (loaded : fat.Loaded disk)
    (cluster : Int) :
    fat16ClusterToStartSector fat cluster * disk.sectorSize = fat.header.clusterPos cluster := by
  rw [fat16ClusterToStartSector, loaded.extent.2]
  rfl

/-- Cluster numbers are 16 bits wide, so a volume ends before sector `2^26`. -/
theorem FatHeader.clusterPos_lt (header : FatHeader) {cluster : Int} (narrow : cluster < 2 ^ 16) :
    header.clusterPos cluster + header.sectorsPerCluster.toNat * 512 < 2 ^ 35 := by
  have perCluster := header.sectorsPerCluster.isLt
  have reserved := header.reservedSectors.isLt
  have copies := header.fatCopies.isLt
  have perFat := header.sectorsPerFat.isLt
  have entries := header.rootDirEntries.isLt
  have fats : (header.fatCopies.toNat : Int) * header.sectorsPerFat.toNat ≤ 255 * 65535 :=
    Int.mul_le_mul (by omega) (by omega) (by omega) (by omega)
  have clusters : (cluster - 2) * header.sectorsPerCluster.toNat ≤ 65533 * 255 := by
    rcases le_or_gt 2 cluster with data | low
    · exact Int.mul_le_mul (by omega) (by omega) (by omega) (by omega)
    · have := Int.mul_nonpos_of_nonpos_of_nonneg (by omega : cluster - 2 ≤ 0)
        (Int.natCast_nonneg header.sectorsPerCluster.toNat)
      omega
  unfold clusterPos rootDirSector
  omega

/-- The sectors that no `int` position leads to hold ones, and all others hold zeros. -/
def farDisk : Disk :=
  ⟨fun lba _ => if 2 ^ 22 ≤ lba.toNat ∧ lba.toNat < 2 ^ 31 then 1 else 0, fun _ => 0⟩

/-- An `int` position leads to one of the first or of the last sectors. -/
theorem farDisk_block {pos : Int} (lower : -2 ^ 31 ≤ pos) (upper : pos < 2 ^ 31) (i : Int) :
    (diskReadBlock farDisk (BitVec.ofInt 32 (pos.tdiv diskSectorSize))).2 i = 0 := by
  have above : (-2 ^ 31 : Int).tdiv diskSectorSize ≤ pos.tdiv diskSectorSize :=
    Int.tdiv_le_tdiv (by decide) lower
  have below : pos.tdiv diskSectorSize ≤ (2 ^ 31 - 1 : Int).tdiv diskSectorSize :=
    Int.tdiv_le_tdiv (by decide) (by omega)
  have first : (-2 ^ 31 : Int).tdiv diskSectorSize = -2 ^ 22 := by decide
  have last : (2 ^ 31 - 1 : Int).tdiv diskSectorSize = 2 ^ 22 - 1 := by decide
  have near : ¬ (2 ^ 22 ≤ (BitVec.ofInt 32 (pos.tdiv diskSectorSize)).toNat ∧
      (BitVec.ofInt 32 (pos.tdiv diskSectorSize)).toNat < 2 ^ 31) := by
    rw [BitVec.toNat_ofInt]
    omega
  simp only [diskReadBlock, farDisk, if_neg near, ite_self]

theorem eq_zero_of_mem_copyOut {buf : Int → Byte} (zero : ∀ i, buf i = 0) {first last : Int} :
    ∀ byte ∈ copyOut buf first last, byte = 0 := by
  intro byte member
  rw [copyOut_eq] at member
  obtain ⟨k, -, rfl⟩ := List.mem_map.mp member
  exact zero _

theorem farDisk_read (stream : DiskStream) (total : Int) (lower : -2 ^ 31 ≤ stream.pos)
    (upper : stream.pos < 2 ^ 31) : ∀ byte ∈ (diskStreamRead farDisk stream total).2.2, byte = 0 := by
  fun_induction diskStreamRead farDisk stream total with
  | case1 stream total sector rc buf block failed =>
      intro byte member
      cases member
  | case2 stream total sector offset rc buf block ok more rest ih =>
      have zero : ∀ i, buf i = 0 := by
        intro i
        have := farDisk_block lower upper i
        rwa [block] at this
      intro byte member
      rcases List.mem_append.mp member with here | later
      · exact eq_zero_of_mem_copyOut zero byte here
      · exact ih (int32_mem _).1 (int32_mem _).2 byte later
  | case3 stream total sector offset rc buf block ok within =>
      have zero : ∀ i, buf i = 0 := by
        intro i
        have := farDisk_block lower upper i
        rwa [block] at this
      exact eq_zero_of_mem_copyOut zero

theorem diskByte_farDisk {pos : Nat} (narrow : pos < 2 ^ 35) :
    diskByte farDisk pos = if 2 ^ 31 ≤ pos then 1 else 0 := by
  have sector : (BitVec.ofNat 32 (pos / 512)).toNat = pos / 512 := by
    rw [BitVec.toNat_ofNat]
    omega
  have far : 2 ^ 22 ≤ pos / 512 ∧ pos / 512 < 2 ^ 31 ↔ 2 ^ 31 ≤ pos := by omega
  simp only [diskByte, farDisk, sector, far]

theorem farDisk_byte {pos : Nat} (far : 2 ^ 31 ≤ pos) (narrow : pos < 2 ^ 35) :
    diskByte farDisk pos = 1 := by
  rw [diskByte_farDisk narrow, if_pos far]

theorem farDisk_entry (pos : Int) (lower : -2 ^ 31 ≤ pos) (upper : pos < 2 ^ 31) :
    (diskStreamRead farDisk ⟨pos⟩ sizeofFatDirectoryEntry).2.2.headD 0 = 0 := by
  have zero := farDisk_read ⟨pos⟩ sizeofFatDirectoryEntry lower upper
  generalize (diskStreamRead farDisk ⟨pos⟩ sizeofFatDirectoryEntry).2.2 = entry at zero ⊢
  cases entry with
  | nil => rfl
  | cons byte rest => exact zero byte List.mem_cons_self

theorem farDisk_loaded (header : FatHeader) : (emptyVolume farDisk header).Loaded farDisk := by
  have position : -2 ^ 31 ≤ fat16SectorToAbsolutePos farDisk (rootDirSector header) ∧
      fat16SectorToAbsolutePos farDisk (rootDirSector header) < 2 ^ 31 := by
    rw [fat16SectorToAbsolutePos]
    exact int32_mem _
  exact emptyVolume_loaded (farDisk_entry _ position.1 position.2)

/-- The far disk tells reads that are not inside. -/
theorem ReadsChain.readInside {header : FatHeader} (clustered : 1 ≤ header.sectorsPerCluster.toNat)
    {start : Nat} (narrow : start < 2 ^ 16) {offset n : Int} (nonneg : 0 ≤ offset) (counted : 1 ≤ n)
    (kept : ReadsChain farDisk (emptyVolume farDisk header) freshStreams start offset n) :
    header.ReadInside start offset n := by
  have first : (0 : Int) ≤ start := Int.natCast_nonneg start
  have place : fat16ClusterToStartSector (emptyVolume farDisk header) start * farDisk.sectorSize =
      header.clusterPos start := (farDisk_loaded header).clusterPos start
  have positive : 0 < clusterSizeBytes farDisk (emptyVolume farDisk header) :=
    clusterSizeBytes_pos farDisk clustered
  have size : clusterSizeBytes farDisk (emptyVolume farDisk header) =
      header.sectorsPerCluster.toNat * 512 := rfl
  have bound : header.clusterPos start + _ < _ := header.clusterPos_lt (by omega)
  by_contra outside
  simp only [FatHeader.ReadInside, not_or, not_and, not_le, not_lt] at outside
  obtain ⟨inside, short, outside⟩ := outside
  rw [← size] at inside short outside bound
  obtain ⟨after, read⟩ : ∃ after, fat16ReadInternal farDisk (emptyVolume farDisk header)
      freshStreams start offset n = _ :=
    fat16ReadInternal_piece positive first nonneg inside short
  have ends : offset + n ≤ clusterSizeBytes farDisk (emptyVolume farDisk header) := by
    have last := kept.returns.mp ⟨_, _, _, read, le_rfl⟩ (offset + n - 1) (by omega) (by omega)
    have := (chain_succeeds_iff positive first _).mp last
    omega
  rw [place] at read
  rcases Int.lt_or_le (header.clusterPos start + offset) 0 with before | lower
  · -- The first byte would lie before the disk.
    obtain ⟨byte, -, here⟩ := kept.byte positive nonneg read le_rfl (k := 0) (by omega) (by omega)
    rw [clusterByte, place, if_pos (by omega)] at here
    cases here
  · -- Some byte lies where no position leads.
    have past := outside ends lower
    obtain ⟨k, count⟩ : ∃ k : Nat, (k : Int) = max 0 (2 ^ 31 - (header.clusterPos start + offset)) :=
      ⟨(max 0 (2 ^ 31 - (header.clusterPos start + offset))).toNat, by omega⟩
    obtain ⟨byte, member, here⟩ := kept.byte positive nonneg read le_rfl (k := k) (by omega) (by omega)
    have zero := farDisk_read _ n (int32_mem _).1 (int32_mem _).2 byte member
    rw [clusterByte, place, if_neg (by omega), farDisk_byte (by omega) (by omega), zero] at here
    exact absurd here (by decide)

/-- A read keeps the promise on every disk with its header exactly when it is inside. -/
theorem reads_chain_iff (header : FatHeader) (clustered : 1 ≤ header.sectorsPerCluster.toNat)
    (start : Nat) (narrow : start < 2 ^ 16) {offset n : Int} (nonneg : 0 ≤ offset) (counted : 1 ≤ n) :
    (∀ disk fat streams, fat.header = header → fat.Loaded disk →
      ReadsChain disk fat streams start offset n) ↔ header.ReadInside start offset n := by
  have first : (0 : Int) ≤ start := Int.natCast_nonneg start
  constructor
  · intro promise
    have kept := promise farDisk (emptyVolume farDisk header) freshStreams rfl (farDisk_loaded header)
    exact kept.readInside clustered narrow nonneg counted
  · intro inside disk fat streams same loaded
    subst same
    have positive := clusterSizeBytes_pos disk clustered
    have size : clusterSizeBytes disk fat = fat.header.sectorsPerCluster.toNat * 512 := rfl
    have place := loaded.clusterPos start
    rcases inside with past | long | ⟨ends, lower, upper⟩
    · exact .of_leaves positive first nonneg counted (.inl past)
    · exact .of_leaves positive first nonneg counted (.inr long)
    · exact .of_inside positive first nonneg counted ends (by rwa [place]) (by rwa [place])

/-- Two bytes over the end of the only cluster are delivered. -/
theorem read_past_cluster :
    (blankVolume 16).Loaded blankDisk ∧ 1 ≤ (blankVolume 16).header.sectorsPerCluster.toNat ∧
      ¬ ReadsChain blankDisk (blankVolume 16) freshStreams 2 511 2 := by
  refine ⟨blankVolume_loaded 16, by decide, fun kept => ?_⟩
  have positive : 0 < clusterSizeBytes blankDisk (blankVolume 16) := by decide
  obtain ⟨after, read⟩ : ∃ after, fat16ReadInternal blankDisk (blankVolume 16) freshStreams 2 511 2 = _ :=
    fat16ReadInternal_piece positive (by decide) (by decide) (by decide) (by decide)
  have last := kept.returns.mp ⟨_, _, _, read, le_rfl⟩ 512 (by decide) (by decide)
  exact absurd ((chain_succeeds_iff positive (by decide) 512).mp last) (by decide)

/-- The first sector of a file is read as it is, on every disk. -/
theorem reads_chain_iff_sector : (blankHeader 16).ReadInside (2 : Nat) 0 512 ∧
    ∀ disk fat streams, fat.header = blankHeader 16 → fat.Loaded disk →
      ReadsChain disk fat streams (2 : Nat) 0 512 := by
  have inside : (blankHeader 16).ReadInside (2 : Nat) 0 512 := by decide
  exact ⟨inside,
    (reads_chain_iff (blankHeader 16) (by decide) 2 (by decide) (by decide) (by decide)).mpr inside⟩

end ConiferOS.Fs
