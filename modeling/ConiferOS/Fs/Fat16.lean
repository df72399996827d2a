import ConiferOS.Fs.Disk

/-! # FAT16

`fat16.c`: the geometry that the boot sector's header fixes, the cluster chain, and
reads and seeks on an open file. Cluster numbers are 16 bits wide, so sector numbers
are exact; byte positions are cut back to `int`. A volume without sectors in a
cluster makes the kernel divide by zero, which is `none`.
-/

namespace ConiferOS.Fs

def fat16FatEntrySize : Int := 2
def fat16BadSector : Int := 0xFFF7
def fatFileReadOnly : Byte := 0x01

/-- The header fields the driver reads. -/
structure FatHeader where
  sectorsPerCluster : BitVec 8
  reservedSectors : BitVec 16
  fatCopies : BitVec 8
  rootDirEntries : BitVec 16
  sectorsPerFat : BitVec 16

structure FatDirectoryEntry where
  attributes : Byte
  highFirstCluster : BitVec 16
  lowFirstCluster : BitVec 16
  filesize : Word

/-- `sizeof(struct fat_directory_entry)`. -/
def sizeofFatDirectoryEntry : Int := 32

structure FatDirectory where
  entry : List Byte
  total : Int
  sector : Int
  endSector : Int

/-- The part of `struct fat_private` that is fixed once a volume is resolved. -/
structure FatVolume where
  header : FatHeader
  rootDirectory : FatDirectory

/-- The streams of `struct fat_private` that all open files share. -/
structure FatStreams where
  clusterRead : DiskStream
  fatRead : DiskStream
  directory : DiskStream

def fat16SectorToAbsolutePos (disk : Disk) (sector : Int) : Int := int32 (sector * disk.sectorSize)

/-! ## The root directory -/

/-- The `while (1)` of `fat16_get_total_items_for_directory`, `none` when it is not
    through after `fuel` entries. -/
def countItems (disk : Disk) : (fuel : Nat) → DiskStream → (count : Int) →
    Option (Int × DiskStream)
  | 0, _, _ => none
  | fuel + 1, stream, count =>
      let (rc, stream, entry) := diskStreamRead disk stream sizeofFatDirectoryEntry
      if rc < 0 then some (rc, stream)
      else if entry.headD 0 = 0x00 then some (count, stream)
      else if entry.headD 0 = 0xE5 then countItems disk fuel stream count
      else countItems disk fuel stream (count + 1)

def fat16GetTotalItemsForDirectory (disk : Disk) (fuel : Nat) (directoryStartSector : Int) :
    Option (Int × DiskStream) :=
  let (rc, stream) := diskStreamSeek (fat16SectorToAbsolutePos disk directoryStartSector)
  if rc < 0 then some (rc, stream) else countItems disk fuel stream 0

def rootDirSector (header : FatHeader) : Int :=
  header.fatCopies.toNat * header.sectorsPerFat.toNat + header.reservedSectors.toNat

def rootDirSize (header : FatHeader) : Int :=
  header.rootDirEntries.toNat * sizeofFatDirectoryEntry

/-- The rounded `root_dir_total_sectors` of the source is computed and not used. `served`
    says whether `kzalloc` found room for the entries. -/
def fat16GetRootDirectory (disk : Disk) (fuel : Nat) (served : Bool) (header : FatHeader) :
    Option (Except Int FatDirectory × DiskStream) := do
  let (rootDirTotalItems, stream) ←
    fat16GetTotalItemsForDirectory disk fuel (rootDirSector header)
  if !served then return (.error (-enomem), stream)
  let (rc, stream) := diskStreamSeek (fat16SectorToAbsolutePos disk (rootDirSector header))
  if rc < 0 then return (.error rc, stream)
  let (rc, stream, rootDir) := diskStreamRead disk stream (rootDirSize header)
  if rc < 0 then return (.error rc, stream)
  return (.ok
    { entry := rootDir
      total := rootDirTotalItems
      sector := rootDirSector header
      endSector := rootDirSector header + (rootDirSize header).tdiv disk.sectorSize }, stream)

/-! ## Clusters -/

def fat16ClusterToStartSector (fat : FatVolume) (cluster : Int) : Int :=
  fat.rootDirectory.endSector + (cluster - 2) * fat.header.sectorsPerCluster.toNat

def fat16GetFirstCluster (rawEntry : FatDirectoryEntry) : Int :=
  (rawEntry.lowFirstCluster ||| rawEntry.highFirstCluster).toNat

def fat16GetFirstFatSector (fat : FatVolume) : Int := fat.header.reservedSectors.toNat

def clusterSizeBytes (disk : Disk) (fat : FatVolume) : Int :=
  fat.header.sectorsPerCluster.toNat * disk.sectorSize

/-- The `uint16_t` that is returned is the return code of the read: the assignment
    replaces the entry that was read into the same variable. -/
def fat16GetFatEntry (disk : Disk) (fat : FatVolume) (streams : FatStreams) (cluster : Int) :
    Int × FatStreams :=
  let fatTablePositionBytes := fat16GetFirstFatSector fat * disk.sectorSize
  let seek := diskStreamSeek (int32 (fatTablePositionBytes + cluster * fat16FatEntrySize))
  if seek.1 < 0 then (seek.1 % 2 ^ 16, { streams with fatRead := seek.2 })
  else
    let read := diskStreamRead disk seek.2 fat16FatEntrySize
    (read.1 % 2 ^ 16, { streams with fatRead := read.2.1 })

/-- The `for` loop of `fat16_get_cluster_in_chain`. -/
def followChain (disk : Disk) (fat : FatVolume) : (clustersAhead : Nat) → FatStreams →
    (cluster : Int) → Int × FatStreams
  | 0, streams, cluster => (cluster, streams)
  | clustersAhead + 1, streams, cluster =>
      let next := fat16GetFatEntry disk fat streams cluster
      if 0xFFF8 ≤ next.1 ∧ next.1 ≤ 0xFFFF then (-eio, next.2)
      else if next.1 = fat16BadSector then (-eio, next.2)
      else if 0xFFF0 ≤ next.1 ∧ next.1 ≤ 0xFFF6 then (-eio, next.2)
      else if next.1 = 0x0000 then (-eio, next.2)
      else followChain disk fat clustersAhead next.2 next.1

def fat16GetClusterInChain (disk : Disk) (fat : FatVolume) (streams : FatStreams)
    (chainStartCluster offset : Int) : Option (Int × FatStreams) :=
  if clusterSizeBytes disk fat = 0 then none
  else some (followChain disk fat (offset.tdiv (clusterSizeBytes disk fat)).toNat streams
    chainStartCluster)

theorem clusterSizeBytes_pos_of_chain {disk : Disk} {fat : FatVolume} {streams : FatStreams}
    {chainStartCluster offset : Int} {found : Int × FatStreams}
    (chain : fat16GetClusterInChain disk fat streams chainStartCluster offset = some found) :
    0 < clusterSizeBytes disk fat := by
  have nonneg : 0 ≤ clusterSizeBytes disk fat :=
    Int.mul_nonneg (Int.natCast_nonneg _) (show 0 ≤ diskSectorSize by decide)
  have nonzero : clusterSizeBytes disk fat ≠ 0 := by
    intro zero
    rw [fat16GetClusterInChain, if_pos zero] at chain
    cases chain
  omega

/-! ## Reading -/

def bytesToRead (clusterSize n : Int) : Int := if clusterSize < n then clusterSize else n

theorem bytesToRead_of_more {clusterSize n : Int} (more : 0 < n - bytesToRead clusterSize n) :
    bytesToRead clusterSize n = clusterSize ∧ clusterSize < n := by
  unfold bytesToRead at *
  split at more
  case isTrue long => exact ⟨if_pos long, long⟩
  case isFalse => omega

/-- The return code, the streams, and the bytes written to consecutive places. -/
def fat16ReadInternal (disk : Disk) (fat : FatVolume) (streams : FatStreams)
    (chainStartCluster offset n : Int) : Option (Int × FatStreams × List Byte) :=
  match _chain : fat16GetClusterInChain disk fat streams chainStartCluster offset with
  | none => none
  | some (startCluster, streams) =>
      if startCluster < 0 then some (startCluster, streams, [])
      else
        let offsetFromCluster := offset.tmod (clusterSizeBytes disk fat)
        let startSector := fat16ClusterToStartSector fat startCluster
        let seek := diskStreamSeek (int32 (startSector * disk.sectorSize + offsetFromCluster))
        if seek.1 < 0 then some (seek.1, { streams with clusterRead := seek.2 }, [])
        else
          let read := diskStreamRead disk seek.2 (bytesToRead (clusterSizeBytes disk fat) n)
          let streams := { streams with clusterRead := read.2.1 }
          if read.1 < 0 then some (read.1, streams, read.2.2)
          else if 0 < n - bytesToRead (clusterSizeBytes disk fat) n then
            match fat16ReadInternal disk fat streams chainStartCluster
                (int32 (offset + bytesToRead (clusterSizeBytes disk fat) n))
                (n - bytesToRead (clusterSizeBytes disk fat) n) with
            | none => none
            | some (rc, streams, rest) => some (rc, streams, read.2.2 ++ rest)
          else some (read.1, streams, read.2.2)
termination_by n.toNat
decreasing_by
  rename_i more
  have positive := clusterSizeBytes_pos_of_chain _chain
  have piece := bytesToRead_of_more more
  omega

/-! ## Open files -/

inductive FileSeekMode where
  | seekSet
  | seekCur
  | seekEnd
  | other

/-- What `struct fat_easy_directory_entry` holds for an open file or directory. -/
inductive FatEasyDirectoryEntry where
  | directory
  | file (rawEntry : FatDirectoryEntry)

structure FatFileDescriptor where
  easyDirectoryEntry : FatEasyDirectoryEntry
  pos : Word

/-- Bytes go to consecutive places of the caller's buffer. -/
def writeOut (out : Nat → Byte) (start : Nat) (bytes : List Byte) : Nat → Byte :=
  fun i => if start ≤ i then bytes.getD (i - start) (out i) else out i

/-- The `for` loop of `fat16_fread`. -/
def freadLoop (disk : Disk) (fat : FatVolume) (rawEntry : FatDirectoryEntry) (size : Word) :
    (remaining count : Nat) → (offset : Int) → FatStreams → (out : Nat → Byte) →
      Option (Nat × FatStreams × (Nat → Byte))
  | 0, count, _, streams, out => some (count, streams, out)
  | remaining + 1, count, offset, streams, out =>
      match fat16ReadInternal disk fat streams (fat16GetFirstCluster rawEntry) offset
          size.toInt with
      | none => none
      | some (rc, streams, bytes) =>
          let out := writeOut out (count * size.toNat) bytes
          if rc < 0 then some (count, streams, out)
          else freadLoop disk fat rawEntry size remaining (count + 1)
            (int32 (offset + size.toInt)) streams out

def fat16Fread (disk : Disk) (fat : FatVolume) (streams : FatStreams) (desc : FatFileDescriptor)
    (size nmemb : Word) (out : Nat → Byte) : Option (Word × FatStreams × (Nat → Byte)) :=
  match desc.easyDirectoryEntry with
  | .directory => some (BitVec.ofInt 32 (-einvarg), streams, out)
  | .file rawEntry =>
      (freadLoop disk fat rawEntry size nmemb.toNat 0 desc.pos.toInt streams out).map
        fun (count, rest) => (BitVec.ofNat 32 count, rest)

def fat16Fseek (desc : FatFileDescriptor) (offset : Word) (whence : FileSeekMode) :
    Int × FatFileDescriptor :=
  match desc.easyDirectoryEntry with
  | .directory => (-einvarg, desc)
  | .file rawEntry =>
      if rawEntry.filesize.toNat ≤ offset.toNat then (-eio, desc)
      else match whence with
        | .seekSet => (0, { desc with pos := offset })
        | .seekCur => (0, { desc with pos := desc.pos + offset })
        | .seekEnd => (-eunimp, desc)
        | .other => (-einvarg, desc)

structure FileStat where
  flags : Word
  filesize : Word

def fileStatReadOnly : Word := 0b00000001

def fat16Fstat (desc : FatFileDescriptor) (stat : FileStat) : Int × FileStat :=
  match desc.easyDirectoryEntry with
  | .directory => (-einvarg, stat)
  | .file rawEntry =>
      (0, { filesize := rawEntry.filesize
            flags := if rawEntry.attributes &&& fatFileReadOnly = 0 then 0 else fileStatReadOnly })

end ConiferOS.Fs
