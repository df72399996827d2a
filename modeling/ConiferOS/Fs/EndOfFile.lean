import ConiferOS.Fs.Resolve

/-! # Reading to the end of a file

`fat16_fread` never looks at the size of the file. What stops it is the end of the first
cluster, which the chain does not get past; so it keeps to a file only where the request
or the cluster happens to end in it.
-/

namespace ConiferOS.Fs

/-- Byte `j` of a file; nothing lies before the start of the disk. -/
def fileContents (disk : Disk) (fat : FatVolume) (rawEntry : FatDirectoryEntry) (j : Nat) :
    Option Byte :=
  if rawEntry.filesize.toNat ≤ j then none
  else
    let clusterSize := (clusterSizeBytes disk fat).toNat
    (clusterChain disk fat (fat16GetFirstCluster rawEntry).toNat (j / clusterSize)).bind
      fun cluster => clusterByte disk fat cluster (j % clusterSize : Nat)

/-- Only whole elements of the file are counted, and only bytes of the file are written. -/
def StopsAtEnd (disk : Disk) (fat : FatVolume) (streams : FatStreams) (rawEntry : FatDirectoryEntry)
    (pos size nmemb : Word) : Prop :=
  ∀ out, ∃ r after out',
    fat16Fread disk fat streams ⟨.file rawEntry, pos⟩ size nmemb out = some (r, after, out') ∧
      pos.toNat + r.toNat * size.toNat ≤ rawEntry.filesize.toNat ∧
      ∀ i, out' i ≠ out i → fileContents disk fat rawEntry (pos.toNat + i) = some (out' i)

/-! ## Single reads -/

section Reads

variable {disk : Disk} {fat : FatVolume} {start offset n : Int}

/-- The bytes from an offset in the first cluster on. -/
def piece (disk : Disk) (fat : FatVolume) (start offset n : Int) : List Byte :=
  (diskStreamRead disk ⟨int32 (fat16ClusterToStartSector fat start * disk.sectorSize + offset)⟩ n).2.2

theorem piece_length (disk : Disk) (fat : FatVolume) (start offset n : Int) :
    (piece disk fat start offset n).length = n.toNat :=
  diskStreamRead_length ..

theorem read_past (positive : 0 < clusterSizeBytes disk fat) (past : clusterSizeBytes disk fat ≤ offset)
    (start n : Int) (streams : FatStreams) :
    ∃ after, fat16ReadInternal disk fat streams start offset n = some (-eio, after, []) := by
  obtain ⟨cluster, after, lookup, -, away⟩ := fat16GetClusterInChain_eq positive start offset streams
  rw [fat16ReadInternal_eq n lookup, away past]
  exact ⟨after, if_pos (by decide)⟩

theorem read_short (positive : 0 < clusterSizeBytes disk fat) (first : 0 ≤ start)
    (inside : offset < clusterSizeBytes disk fat) (short : n ≤ clusterSizeBytes disk fat)
    (streams : FatStreams) :
    ∃ after, fat16ReadInternal disk fat streams start offset n =
      some (0, after, (firstPiece disk fat start offset n).2.2) := by
  obtain ⟨cluster, after, lookup, here, -⟩ := fat16GetClusterInChain_eq positive start offset streams
  have whole : bytesToRead (clusterSizeBytes disk fat) n = n := if_neg (not_lt.mpr short)
  rw [fat16ReadInternal_eq n lookup, here inside, if_neg (not_lt.mpr first), whole, if_neg (by omega)]
  exact ⟨_, rfl⟩

theorem firstPiece_eq (nonneg : 0 ≤ offset) (inside : offset < clusterSizeBytes disk fat)
    (short : n ≤ clusterSizeBytes disk fat) :
    (firstPiece disk fat start offset n).2.2 = piece disk fat start offset n := by
  rw [firstPiece, bytesToRead, if_neg (not_lt.mpr short), Int.tmod_eq_of_lt nonneg inside]
  rfl

/-- A request of more than a cluster fails after one cluster's worth has been written. -/
theorem read_long (positive : 0 < clusterSizeBytes disk fat) (first : 0 ≤ start) (nonneg : 0 ≤ offset)
    (inside : offset < clusterSizeBytes disk fat) (long : clusterSizeBytes disk fat < n)
    (streams : FatStreams) :
    ∃ after, fat16ReadInternal disk fat streams start offset n =
      some (-eio, after, piece disk fat start offset (clusterSizeBytes disk fat)) := by
  obtain ⟨cluster, after, lookup, here, -⟩ := fat16GetClusterInChain_eq positive start offset streams
  have most := clusterSizeBytes_le disk fat
  have one : bytesToRead (clusterSizeBytes disk fat) n = clusterSizeBytes disk fat := if_pos long
  have next : int32 (offset + clusterSizeBytes disk fat) = offset + clusterSizeBytes disk fat :=
    int32_of_mem (by omega) (by omega)
  rw [fat16ReadInternal_eq n lookup, here inside, if_neg (not_lt.mpr first), one, if_pos (by omega), next]
  obtain ⟨after', rest⟩ := read_past positive (by omega : _ ≤ offset + clusterSizeBytes disk fat) start
    (n - clusterSizeBytes disk fat)
    { after with clusterRead := (firstPiece disk fat start offset n).2.1 }
  rw [rest, Option.map_some, List.append_nil, firstPiece, one, Int.tmod_eq_of_lt nonneg inside]
  exact ⟨after', rfl⟩

end Reads

/-! ## The loop over elements -/

section Loop

variable {disk : Disk} {fat : FatVolume}

theorem writeOut_nil (out : Nat → Byte) (first : Nat) : writeOut out first [] = out := by
  funext i
  simp [writeOut]

/-- Where the bytes of an element go. -/
theorem writeOut_element (out : Nat → Byte) (count : Nat) {size : Nat} {bytes : List Byte}
    (length : bytes.length = size) (i : Nat) :
    writeOut out (count * size) bytes i =
      if count * size ≤ i ∧ i < (count + 1) * size then bytes.getD (i % size) 0 else out i := by
  have next : (count + 1) * size = count * size + size := Nat.succ_mul count size
  unfold writeOut
  by_cases above : count * size ≤ i
  · rw [if_pos above]
    by_cases below : i < (count + 1) * size
    · have place : i % size = i - count * size := by
        obtain ⟨k, rfl⟩ := Nat.exists_eq_add_of_le above
        rw [Nat.add_comm, Nat.add_mul_mod_self_right, Nat.mod_eq_of_lt (by omega)]
        omega
      have inside : i - count * size < bytes.length := by omega
      rw [if_pos ⟨above, below⟩, place, List.getD_eq_getElem _ _ inside, List.getD_eq_getElem _ _ inside]
    · rw [if_neg fun both => below both.2, List.getD_eq_default _ _ (by omega)]
  · rw [if_neg above, if_neg fun both => above both.1]

/-- Byte `i` of the elements that are read from `pos` on. -/
def elementByte (disk : Disk) (fat : FatVolume) (start : Int) (pos size i : Nat) : Byte :=
  (piece disk fat start (pos + i / size * size : Nat) size).getD (i % size) 0

/-- How far elements that fit in a cluster are read: to the end of the request, or until
    one would start past the cluster. -/
structure ElementsRead (disk : Disk) (fat : FatVolume) (start : Int) (pos size : Nat) (out out' : Nat → Byte)
    (count remaining r : Nat) : Prop where
  least : count ≤ r
  most : r ≤ count + remaining
  stops : r = count + remaining ∨ clusterSizeBytes disk fat ≤ (pos + r * size : Nat)
  started : ∀ k, count ≤ k → k < r → ((pos + k * size : Nat) : Int) < clusterSizeBytes disk fat
  written : ∀ i, out' i =
    if count * size ≤ i ∧ i < r * size then elementByte disk fat start pos size i else out i

theorem ElementsRead.step {start : Int} {pos size count remaining r : Nat} {out out' : Nat → Byte}
    (inside : ((pos + count * size : Nat) : Int) < clusterSizeBytes disk fat)
    (later : ElementsRead disk fat start pos size
      (writeOut out (count * size) (piece disk fat start (pos + count * size : Nat) size)) out'
      (count + 1) remaining r) :
    ElementsRead disk fat start pos size out out' count (remaining + 1) r where
  least := by have := later.least; omega
  most := by have := later.most; omega
  stops := by
    have := later.stops
    omega
  started := by
    intro k least most
    rcases least.eq_or_lt with rfl | more
    · exact inside
    · exact later.started k more most
  written := by
    intro i
    have next : (count + 1) * size = count * size + size := Nat.succ_mul count size
    have last : (count + 1) * size ≤ r * size := Nat.mul_le_mul_right size later.least
    rw [later.written i, writeOut_element _ _ (by simp [piece_length]) i]
    by_cases here : count * size ≤ i ∧ i < (count + 1) * size
    · have element : i / size = count := Nat.div_eq_of_lt_le here.1 here.2
      rw [if_neg (by omega), if_pos here, if_pos (by omega), elementByte, element]
    · rw [if_neg here]
      by_cases more : (count + 1) * size ≤ i ∧ i < r * size
      · rw [if_pos more, if_pos (by omega)]
      · rw [if_neg more, if_neg (by omega)]

theorem size_toInt {size : Word} (small : size.toNat < 2 ^ 31) : size.toInt = size.toNat := by
  rw [BitVec.toInt_eq_toNat_cond, if_pos (by omega)]

/-- Induction on the elements that are left. -/
theorem freadLoop_elements (positive : 0 < clusterSizeBytes disk fat) (rawEntry : FatDirectoryEntry)
    {size : Word} (short : (size.toNat : Int) ≤ clusterSizeBytes disk fat) (pos : Nat) :
    ∀ (remaining count : Nat) (streams : FatStreams) (out : Nat → Byte),
      pos + count * size.toNat < 2 ^ 30 →
      ∃ r after out', freadLoop disk fat rawEntry size remaining count (pos + count * size.toNat : Nat)
          streams out = some (r, after, out') ∧
        ElementsRead disk fat (fat16GetFirstCluster rawEntry) pos size.toNat out out' count remaining r := by
  have most := clusterSizeBytes_le disk fat
  have first : 0 ≤ fat16GetFirstCluster rawEntry := Int.natCast_nonneg _
  have signed : size.toInt = size.toNat := size_toInt (by omega)
  intro remaining
  induction remaining with
  | zero =>
      intro count streams out _
      exact ⟨count, streams, out, rfl, le_rfl, le_rfl, .inl rfl, fun k least most => by omega,
        fun i => (if_neg (by omega)).symm⟩
  | succ remaining ih =>
      intro count streams out bounded
      have next : (count + 1) * size.toNat = count * size.toNat + size.toNat := Nat.succ_mul ..
      rw [freadLoop, signed]
      by_cases inside : ((pos + count * size.toNat : Nat) : Int) < clusterSizeBytes disk fat
      · obtain ⟨after, read⟩ := read_short positive first inside short streams
        rw [firstPiece_eq (Int.natCast_nonneg _) inside short] at read
        have ahead : int32 (((pos + count * size.toNat : Nat) : Int) + size.toNat) =
            ((pos + (count + 1) * size.toNat : Nat) : Int) := by
          rw [int32_of_mem] <;> omega
        obtain ⟨r, after', out', loop, later⟩ := ih (count + 1) after
          (writeOut out (count * size.toNat) (piece disk fat (fat16GetFirstCluster rawEntry)
            (pos + count * size.toNat : Nat) size.toNat)) (by omega)
        refine ⟨r, after', out', ?_, later.step inside⟩
        simp only [read, lt_irrefl, if_false, ahead, loop]
      · obtain ⟨after, read⟩ := read_past positive (not_lt.mp inside) (fat16GetFirstCluster rawEntry)
          size.toNat streams
        have failed : -eio < 0 := by decide
        refine ⟨count, after, out, ?_, le_rfl, Nat.le_add_right .., .inr (not_lt.mp inside),
          fun k least most => by omega, fun i => (if_neg (by omega)).symm⟩
        simp only [read, failed, if_true, writeOut_nil]

end Loop

/-! ## What a file contains, and what is on the disk -/

section Contents

variable {disk : Disk} {fat : FatVolume} {rawEntry : FatDirectoryEntry} {j : Nat}

/-- The bytes of the first cluster. -/
theorem fileContents_first (loaded : fat.Loaded disk) (positive : 0 < clusterSizeBytes disk fat)
    (sized : j < rawEntry.filesize.toNat) (inside : (j : Int) < clusterSizeBytes disk fat)
    (lower : 0 ≤ fat.header.clusterPos (fat16GetFirstCluster rawEntry) + j) :
    fileContents disk fat rawEntry j =
      some (diskByte disk (fat.header.clusterPos (fat16GetFirstCluster rawEntry) + j).toNat) := by
  have quotient : j / (clusterSizeBytes disk fat).toNat = 0 := Nat.div_eq_of_lt (by omega)
  have remainder : j % (clusterSizeBytes disk fat).toNat = j := Nat.mod_eq_of_lt (by omega)
  have first : ((fat16GetFirstCluster rawEntry).toNat : Int) = fat16GetFirstCluster rawEntry := by
    rw [fat16GetFirstCluster, Int.toNat_natCast]
  rw [fileContents, if_neg (by omega)]
  simp only [quotient, remainder, clusterChain, Option.bind_some, clusterByte, first,
    loaded.clusterPos, if_neg (not_lt.mpr lower)]

/-- Bytes read at positions that are an `int` are those of the disk. -/
theorem piece_eq (loaded : fat.Loaded disk) (start : Int) (offset n : Nat)
    (lower : 0 ≤ fat.header.clusterPos start + offset)
    (upper : fat.header.clusterPos start + offset + n ≤ 2 ^ 31) {k : Nat} (inside : k < n) :
    (piece disk fat start offset n).getD k 0 =
      diskByte disk (fat.header.clusterPos start + (offset + k : Nat)).toNat := by
  obtain ⟨pos, place⟩ := Int.eq_ofNat_of_zero_le lower
  have far : (fat.header.clusterPos start + (offset + k : Nat)).toNat = pos + k := by omega
  rw [piece, loaded.clusterPos, place, int32_of_mem (by omega) (by omega),
    diskStreamRead_eq disk pos n (by omega), far]
  simp [diskBytes, List.getD, inside]

end Contents

/-! ## The far disk -/

section Far

variable {header : FatHeader} {rawEntry : FatDirectoryEntry} {j : Nat}

theorem farDisk_near {pos : Nat} (near : pos < 2 ^ 31) : diskByte farDisk pos = 0 := by
  rw [diskByte_farDisk (by omega), if_neg (by omega)]

/-- No cluster has a successor. -/
theorem farDisk_chain (fat : FatVolume) {first : Nat} (narrow : first < 2 ^ 16) {k : Nat} (more : 0 < k) :
    clusterChain farDisk fat first k = none := by
  have reserved := fat.header.reservedSectors.isLt
  have entry : fatEntry farDisk fat first = 0 := by
    simp only [fatEntry]
    rw [farDisk_near (by omega), farDisk_near (by omega)]
    rfl
  obtain ⟨k, rfl⟩ := Nat.exists_eq_succ_of_ne_zero (Nat.ne_of_gt more)
  induction k with
  | zero => simp [clusterChain, entry]
  | succ k ih => rw [clusterChain, ih (Nat.succ_pos k), Option.bind_none]

theorem piece_farDisk (fat : FatVolume) (start offset n : Int) (k : Nat) :
    (piece farDisk fat start offset n).getD k 0 = 0 := by
  by_cases inside : k < (piece farDisk fat start offset n).length
  · rw [List.getD_eq_getElem _ _ inside]
    exact farDisk_read _ n (int32_mem _).1 (int32_mem _).2 _ (List.getElem_mem inside)
  · rw [List.getD_eq_default _ _ (not_lt.mp inside)]

/-- Byte `j` of the file is in the first cluster, at a position that is an `int`. -/
def FatHeader.NearByte (header : FatHeader) (rawEntry : FatDirectoryEntry) (j : Nat) : Prop :=
  j < rawEntry.filesize.toNat ∧ j < header.sectorsPerCluster.toNat * 512 ∧
    0 ≤ header.clusterPos (fat16GetFirstCluster rawEntry) + j ∧
    header.clusterPos (fat16GetFirstCluster rawEntry) + j < 2 ^ 31

/-- The zeros of a file are there. -/
theorem fileContents_farDisk (clustered : 1 ≤ header.sectorsPerCluster.toNat)
    (zero : fileContents farDisk (emptyVolume farDisk header) rawEntry j = some 0) :
    header.NearByte rawEntry j := by
  have size : clusterSizeBytes farDisk (emptyVolume farDisk header) =
      header.sectorsPerCluster.toNat * 512 := rfl
  have narrow : (fat16GetFirstCluster rawEntry).toNat < 2 ^ 16 := by
    rw [fat16GetFirstCluster, Int.toNat_natCast]
    exact (rawEntry.lowFirstCluster ||| rawEntry.highFirstCluster).isLt
  have first : ((fat16GetFirstCluster rawEntry).toNat : Int) = fat16GetFirstCluster rawEntry := by
    rw [fat16GetFirstCluster, Int.toNat_natCast]
  have bound : header.clusterPos (fat16GetFirstCluster rawEntry) + header.sectorsPerCluster.toNat * 512 <
      2 ^ 35 := header.clusterPos_lt (by omega)
  rw [fileContents] at zero
  split at zero
  case isTrue => cases zero
  case isFalse sized =>
    obtain ⟨cluster, chain, byte⟩ := Option.bind_eq_some_iff.mp zero
    have inside : j / (clusterSizeBytes farDisk (emptyVolume farDisk header)).toNat = 0 := by
      by_contra more
      rw [farDisk_chain _ narrow (Nat.pos_of_ne_zero more)] at chain
      cases chain
    have small : j < (clusterSizeBytes farDisk (emptyVolume farDisk header)).toNat := by
      rw [Nat.div_eq_zero_iff] at inside
      omega
    rw [inside, clusterChain] at chain
    cases chain
    simp only [clusterByte, first, (farDisk_loaded header).clusterPos, Nat.mod_eq_of_lt small] at byte
    split at byte
    case isTrue => cases byte
    case isFalse lower =>
      have near : header.clusterPos (fat16GetFirstCluster rawEntry) + j < 2 ^ 31 := by
        by_contra far
        rw [show (emptyVolume farDisk header).header = header from rfl,
          farDisk_byte (by omega) (by omega)] at byte
        exact absurd byte (by decide)
      exact ⟨by omega, by omega, not_lt.mp lower, near⟩

theorem readInternal_farDisk (fat : FatVolume) (start : Int) :
    ∀ (n offset : Int) (streams : FatStreams) {rc : Int} {after : FatStreams} {bytes : List Byte},
      fat16ReadInternal farDisk fat streams start offset n = some (rc, after, bytes) →
      ∀ byte ∈ bytes, byte = 0 := by
  intro n
  induction size : n.toNat using Nat.strong_induction_on generalizing n with
  | _ size ih =>
      intro offset streams rc after bytes read
      by_cases zero : clusterSizeBytes farDisk fat = 0
      · rw [fat16ReadInternal_faults zero] at read
        cases read
      obtain ⟨⟨cluster, found⟩, chain⟩ :
          ∃ found, fat16GetClusterInChain farDisk fat streams start offset = some found :=
        ⟨_, if_neg zero⟩
      have positive := clusterSizeBytes_pos_of_chain chain
      have here : ∀ byte ∈ (firstPiece farDisk fat cluster offset n).2.2, byte = 0 :=
        farDisk_read _ _ (int32_mem _).1 (int32_mem _).2
      rw [fat16ReadInternal_eq n chain] at read
      split_ifs at read with failed more
      · cases read
        simp
      · obtain ⟨long, -⟩ := bytesToRead_of_more more
        obtain ⟨⟨rc', after', rest⟩, later, result⟩ := Option.map_eq_some_iff.mp read
        cases result
        intro byte member
        rcases List.mem_append.mp member with mem | mem
        · exact here byte mem
        · exact ih _ (by omega) _ rfl _ _ later byte mem
      · cases read
        exact here

/-- What has been cleared stays so. -/
theorem freadLoop_farDisk (fat : FatVolume) (size : Word) {i : Nat} :
    ∀ (remaining count : Nat) (offset : Int) (streams : FatStreams) (out : Nat → Byte)
      {r : Nat} {after : FatStreams} {out' : Nat → Byte},
      freadLoop farDisk fat rawEntry size remaining count offset streams out = some (r, after, out') →
      out i = 0 → out' i = 0 := by
  intro remaining
  induction remaining with
  | zero =>
      intro count offset streams out r after out' loop zero
      cases loop
      exact zero
  | succ remaining ih =>
      intro count offset streams out r after out' loop zero
      rw [freadLoop] at loop
      split at loop
      case h_1 => cases loop
      case h_2 rc streams' bytes read =>
        have cleared : writeOut out (count * size.toNat) bytes i = 0 := by
          have zeros := readInternal_farDisk fat _ _ _ _ read
          simp only [writeOut]
          split
          case isTrue =>
            by_cases inside : i - count * size.toNat < bytes.length
            · rw [List.getD_eq_getElem _ _ inside]
              exact zeros _ (List.getElem_mem inside)
            · rw [List.getD_eq_default _ _ (not_lt.mp inside), zero]
          case isFalse => exact zero
        simp only at loop
        split at loop
        case isTrue =>
          cases loop
          exact cleared
        case isFalse => exact ih _ _ _ _ loop cleared

/-- A read from before the end of the first cluster clears the first byte. -/
theorem freadLoop_farDisk_first (fat : FatVolume) (positive : 0 < clusterSizeBytes farDisk fat)
    {size : Word} (signed : 0 < size.toInt) {offset : Int} (inside : offset < clusterSizeBytes farDisk fat)
    {remaining r : Nat} {streams after : FatStreams} {out out' : Nat → Byte}
    (loop : freadLoop farDisk fat rawEntry size (remaining + 1) 0 offset streams out =
      some (r, after, out')) : out' 0 = 0 := by
  have first : 0 ≤ fat16GetFirstCluster rawEntry := Int.natCast_nonneg _
  obtain ⟨cluster, found, chain, here, -⟩ :=
    fat16GetClusterInChain_eq positive (fat16GetFirstCluster rawEntry) offset streams
  rw [freadLoop] at loop
  split at loop
  case h_1 => cases loop
  case h_2 rc streams' bytes read =>
    have zeros := readInternal_farDisk fat _ _ _ _ read
    have some_bytes : 0 < bytes.length := by
      have length : 0 < (firstPiece farDisk fat (fat16GetFirstCluster rawEntry) offset
          size.toInt).2.2.length := by
        rw [firstPiece, diskStreamRead_length, bytesToRead]
        split <;> omega
      rw [fat16ReadInternal_eq _ chain, here inside, if_neg (not_lt.mpr first)] at read
      split at read
      case isTrue =>
        obtain ⟨rest, -, result⟩ := Option.map_eq_some_iff.mp read
        cases result
        rw [List.length_append]
        omega
      case isFalse =>
        cases read
        exact length
    have cleared : writeOut out (0 * size.toNat) bytes 0 = 0 := by
      simp only [writeOut, Nat.zero_mul, le_refl, if_true, Nat.sub_zero]
      rw [List.getD_eq_getElem _ _ some_bytes]
      exact zeros _ (List.getElem_mem some_bytes)
    simp only at loop
    split at loop
    case isTrue =>
      cases loop
      exact cleared
    case isFalse => exact freadLoop_farDisk fat size _ _ _ _ _ loop cleared

end Far

/-! ## Which calls stop in the file -/

/-- The request starts behind the first cluster, in the file or at its end; or it is taken
    for one of no bytes; or it fails after a cluster that is all in the file; or it ends in
    the cluster and in the file, or the cluster does, at the end of an element. Positions
    are an `int` throughout. -/
def FatHeader.FreadStops (header : FatHeader) (rawEntry : FatDirectoryEntry) (pos size nmemb : Word) :
    Prop :=
  let clusterSize := header.sectorsPerCluster.toNat * 512
  let place := header.clusterPos (fat16GetFirstCluster rawEntry)
  let filesize := rawEntry.filesize.toNat
  let stop := min (pos.toNat + nmemb.toNat * size.toNat) clusterSize
  clusterSize ≠ 0 ∧ pos.toNat < 2 ^ 31 ∧ pos.toNat ≤ filesize ∧
    (clusterSize ≤ pos.toNat ∨
      2 ^ 31 ≤ size.toNat ∧ nmemb = 1 ∧ pos.toNat + size.toNat ≤ filesize ∨
      clusterSize < size.toNat ∧ size.toNat < 2 ^ 31 ∧ pos = 0 ∧ clusterSize ≤ filesize ∧
        0 ≤ place ∧ place + clusterSize ≤ 2 ^ 31 ∨
      size.toNat ≤ clusterSize ∧
        (pos.toNat + nmemb.toNat * size.toNat ≤ clusterSize ∨ size.toNat ∣ clusterSize - pos.toNat) ∧
        stop ≤ filesize ∧ 0 ≤ place + pos.toNat ∧ place + stop ≤ 2 ^ 31)

instance (header : FatHeader) (rawEntry : FatDirectoryEntry) (pos size nmemb : Word) :
    Decidable (header.FreadStops rawEntry pos size nmemb) :=
  inferInstanceAs (Decidable (_ ∧ _ ∧ _ ∧
    (_ ∨ _ ∧ _ ∧ _ ∨ _ ∧ _ ∧ _ ∧ _ ∧ _ ∧ _ ∨ _ ∧ (_ ∨ _) ∧ _ ∧ _ ∧ _)))

section Stops

variable {disk : Disk} {fat : FatVolume} {streams : FatStreams} {rawEntry : FatDirectoryEntry}
  {pos size nmemb : Word}

/-- The count is at most `nmemb`, so it is returned as it is. -/
theorem stopsAtEnd_iff_loop (positive : 0 < clusterSizeBytes disk fat) :
    StopsAtEnd disk fat streams rawEntry pos size nmemb ↔
      ∀ out, ∃ count after out',
        freadLoop disk fat rawEntry size nmemb.toNat 0 pos.toInt streams out =
            some (count, after, out') ∧
          pos.toNat + count * size.toNat ≤ rawEntry.filesize.toNat ∧
          ∀ i, out' i ≠ out i → fileContents disk fat rawEntry (pos.toNat + i) = some (out' i) := by
  refine forall_congr' fun out => ?_
  obtain ⟨count, after, out', loop, -, most, -⟩ := freadLoop_eq positive rawEntry size nmemb.toNat 0
    pos.toInt streams out (BitVec.le_toInt _)
  have small : (BitVec.ofNat 32 count).toNat = count := by
    rw [BitVec.toNat_ofNat]
    omega
  simp only [fat16Fread, loop, Option.map_some, Option.some.injEq, Prod.mk.injEq]
  constructor
  · rintro ⟨r, _, _, ⟨rfl, rfl, rfl⟩, bound, bytes⟩
    rw [small] at bound
    exact ⟨count, _, _, ⟨rfl, rfl, rfl⟩, bound, bytes⟩
  · rintro ⟨_, _, _, ⟨rfl, rfl, rfl⟩, bound, bytes⟩
    rw [← small] at bound
    exact ⟨_, _, _, ⟨rfl, rfl, rfl⟩, bound, bytes⟩

/-- An element of which no piece leaves the first cluster is counted. -/
theorem freadLoop_counts (positive : 0 < clusterSizeBytes disk fat) {offset : Int}
    (lower : -2 ^ 31 ≤ offset) (inside : offset < clusterSizeBytes disk fat)
    (short : size.toInt ≤ clusterSizeBytes disk fat) {remaining count r : Nat} {after : FatStreams}
    {out out' : Nat → Byte}
    (loop : freadLoop disk fat rawEntry size (remaining + 1) count offset streams out =
      some (r, after, out')) : count < r := by
  obtain ⟨r', after', out'', loop', least, -, nothing⟩ := freadLoop_eq positive rawEntry size
    (remaining + 1) count offset streams out lower
  rw [loop] at loop'
  cases loop'
  have counted : count ≠ r := by
    rw [Ne, nothing]
    simpa using leavesFirstCluster_last inside positive short
  omega

theorem stopsAtEnd_past (positive : 0 < clusterSizeBytes disk fat) (counted : 0 < nmemb.toNat)
    (near : pos.toNat < 2 ^ 31) (past : clusterSizeBytes disk fat ≤ pos.toNat)
    (sized : pos.toNat ≤ rawEntry.filesize.toNat) :
    StopsAtEnd disk fat streams rawEntry pos size nmemb := by
  rw [stopsAtEnd_iff_loop positive]
  intro out
  obtain ⟨m, count⟩ := Nat.exists_eq_succ_of_ne_zero counted.ne'
  obtain ⟨after, read⟩ := read_past positive past (fat16GetFirstCluster rawEntry) size.toInt streams
  have failed : -eio < 0 := by decide
  refine ⟨0, after, out, ?_, by omega, fun i changed => absurd rfl changed⟩
  rw [count, freadLoop, size_toInt near]
  simp only [read, failed, if_true, writeOut_nil]

/-- A size that is negative as an `int` is a read of nothing, and counts as one. -/
theorem stopsAtEnd_negative (positive : 0 < clusterSizeBytes disk fat) (near : pos.toNat < 2 ^ 31)
    (inside : (pos.toNat : Int) < clusterSizeBytes disk fat) (huge : 2 ^ 31 ≤ size.toNat)
    (sized : pos.toNat + size.toNat ≤ rawEntry.filesize.toNat) :
    StopsAtEnd disk fat streams rawEntry pos size 1 := by
  rw [stopsAtEnd_iff_loop positive]
  intro out
  have first : 0 ≤ fat16GetFirstCluster rawEntry := Int.natCast_nonneg _
  have negative : size.toInt < 0 := by
    rw [BitVec.toInt_eq_toNat_cond, if_neg (by omega)]
    have := size.isLt
    omega
  obtain ⟨after, read⟩ := read_short positive first inside (by omega : size.toInt ≤ _) streams
  have nothing : (firstPiece disk fat (fat16GetFirstCluster rawEntry) pos.toNat size.toInt).2.2 = [] := by
    rw [← List.length_eq_zero_iff, firstPiece, diskStreamRead_length, bytesToRead, if_neg (by omega)]
    omega
  refine ⟨1, after, out, ?_, by omega, fun i changed => absurd rfl changed⟩
  rw [show (1 : Word).toNat = 0 + 1 from rfl, freadLoop, size_toInt near, read, nothing]
  simp only [lt_irrefl, if_false, writeOut_nil, freadLoop]

/-- A request of more than a cluster writes a cluster's worth and returns zero. -/
theorem freadLoop_long (positive : 0 < clusterSizeBytes disk fat) {offset : Nat}
    (inside : (offset : Int) < clusterSizeBytes disk fat) (long : clusterSizeBytes disk fat < size.toNat)
    (small : size.toNat < 2 ^ 31) (remaining : Nat) (out : Nat → Byte) :
    ∃ after, freadLoop disk fat rawEntry size (remaining + 1) 0 offset streams out = some (0, after,
      fun i => if i < (clusterSizeBytes disk fat).toNat then
        (piece disk fat (fat16GetFirstCluster rawEntry) offset (clusterSizeBytes disk fat)).getD i 0
        else out i) := by
  have first : 0 ≤ fat16GetFirstCluster rawEntry := Int.natCast_nonneg _
  obtain ⟨after, read⟩ := read_long positive first (Int.natCast_nonneg offset) inside
    (long.trans_eq (size_toInt small).symm) streams
  have failed : -eio < 0 := by decide
  refine ⟨after, ?_⟩
  rw [freadLoop, read]
  simp only [failed, if_true, Nat.zero_mul]
  congr 3
  funext i
  have element := writeOut_element out 0
    (piece_length disk fat (fat16GetFirstCluster rawEntry) offset (clusterSizeBytes disk fat)) i
  simp only [Nat.zero_mul, Nat.zero_le, true_and, Nat.zero_add, Nat.one_mul] at element
  rw [element]
  split
  case isTrue below => rw [Nat.mod_eq_of_lt below]
  case isFalse => rfl

theorem stopsAtEnd_long (loaded : fat.Loaded disk) (positive : 0 < clusterSizeBytes disk fat)
    (counted : 0 < nmemb.toNat) (long : clusterSizeBytes disk fat < size.toNat)
    (small : size.toNat < 2 ^ 31) (sized : clusterSizeBytes disk fat ≤ rawEntry.filesize.toNat)
    (lower : 0 ≤ fat.header.clusterPos (fat16GetFirstCluster rawEntry))
    (upper : fat.header.clusterPos (fat16GetFirstCluster rawEntry) + clusterSizeBytes disk fat ≤ 2 ^ 31) :
    StopsAtEnd disk fat streams rawEntry 0 size nmemb := by
  rw [stopsAtEnd_iff_loop positive]
  intro out
  obtain ⟨m, count⟩ := Nat.exists_eq_succ_of_ne_zero counted.ne'
  obtain ⟨after, loop⟩ : ∃ after, freadLoop disk fat rawEntry size (m + 1) 0 (0 : Nat) streams out = _ :=
    freadLoop_long positive (Int.natCast_zero.trans_lt positive) long small m out
  rw [count]
  refine ⟨0, after, _, loop, by simp, fun i changed => ?_⟩
  split at changed
  case isFalse => exact absurd rfl changed
  case isTrue inside =>
    obtain ⟨clusterSize, cast⟩ := Int.eq_ofNat_of_zero_le positive.le
    have byte := piece_eq loaded (fat16GetFirstCluster rawEntry) 0 clusterSize (by omega) (by omega)
      (by omega : i < clusterSize)
    have contents : fileContents disk fat rawEntry i = _ :=
      fileContents_first loaded positive (by omega) (by omega) (by omega)
    rw [← cast, Nat.zero_add] at byte
    have start : (0 : Word).toNat + i = i := Nat.zero_add i
    rw [if_pos inside, byte, start, contents]

/-- Elements that end in the cluster, or at its end, and in the file. -/
theorem stopsAtEnd_inside (loaded : fat.Loaded disk) (positive : 0 < clusterSizeBytes disk fat)
    (sized : 0 < size.toNat) (near : pos.toNat < 2 ^ 31)
    (inside : (pos.toNat : Int) < clusterSizeBytes disk fat)
    (short : (size.toNat : Int) ≤ clusterSizeBytes disk fat)
    (whole : ((pos.toNat + nmemb.toNat * size.toNat : Nat) : Int) ≤ clusterSizeBytes disk fat ∨
      size.toNat ∣ (clusterSizeBytes disk fat).toNat - pos.toNat)
    (ends : min (pos.toNat + nmemb.toNat * size.toNat) (clusterSizeBytes disk fat).toNat ≤
      rawEntry.filesize.toNat)
    (lower : 0 ≤ fat.header.clusterPos (fat16GetFirstCluster rawEntry) + pos.toNat)
    (upper : fat.header.clusterPos (fat16GetFirstCluster rawEntry) +
      (min (pos.toNat + nmemb.toNat * size.toNat) (clusterSizeBytes disk fat).toNat : Nat) ≤ 2 ^ 31) :
    StopsAtEnd disk fat streams rawEntry pos size nmemb := by
  rw [stopsAtEnd_iff_loop positive]
  intro out
  have most := clusterSizeBytes_le disk fat
  obtain ⟨r, after, out', loop, elements⟩ := freadLoop_elements positive rawEntry short pos.toNat
    nmemb.toNat 0 streams out (by omega)
  simp only [Nat.zero_mul, Nat.add_zero] at loop
  -- The last element ends where the request or the cluster does.
  have stop : pos.toNat + r * size.toNat ≤
      min (pos.toNat + nmemb.toNat * size.toNat) (clusterSizeBytes disk fat).toNat := by
    have request : r * size.toNat ≤ nmemb.toNat * size.toNat :=
      Nat.mul_le_mul_right _ (by simpa using elements.most)
    refine le_min (by omega) ?_
    rcases whole with fits | ⟨k, exact'⟩
    · omega
    · rcases Nat.eq_zero_or_pos r with rfl | some
      · omega
      · have last := elements.started (r - 1) (Nat.zero_le _) (by omega)
        have before : (r - 1) * size.toNat < k * size.toNat := by
          rw [Nat.mul_comm k]
          omega
        have count : r ≤ k := by
          have := Nat.lt_of_mul_lt_mul_right before
          omega
        have := Nat.mul_le_mul_right size.toNat count
        rw [Nat.mul_comm k] at this
        omega
  rw [size_toInt near]
  refine ⟨r, after, out', loop, by omega, fun i changed => ?_⟩
  have written := elements.written i
  simp only [Nat.zero_mul, Nat.zero_le, true_and] at written
  rw [written] at changed ⊢
  split at changed
  case isFalse => exact absurd rfl changed
  case isTrue below =>
    have split := Nat.div_add_mod' i size.toNat
    have start : i / size.toNat < r := Nat.div_lt_of_lt_mul (by rwa [Nat.mul_comm])
    have element : i / size.toNat * size.toNat + size.toNat ≤ r * size.toNat := by
      rw [← Nat.succ_mul]
      exact Nat.mul_le_mul_right _ start
    have byte := piece_eq loaded (fat16GetFirstCluster rawEntry)
      (pos.toNat + i / size.toNat * size.toNat) size.toNat (by omega) (by omega)
      (Nat.mod_lt i sized)
    have place : pos.toNat + i / size.toNat * size.toNat + i % size.toNat = pos.toNat + i := by omega
    rw [place] at byte
    rw [if_pos below, elementByte, byte]
    exact fileContents_first loaded positive (by omega) (by omega) (by omega)

end Stops

section Necessary

variable {header : FatHeader} {rawEntry : FatDirectoryEntry} {pos size nmemb : Word}

theorem StopsAtEnd.clustered {disk : Disk} {fat : FatVolume} {streams : FatStreams}
    (counted : 0 < nmemb.toNat) (stops : StopsAtEnd disk fat streams rawEntry pos size nmemb) :
    1 ≤ fat.header.sectorsPerCluster.toNat := by
  by_contra none
  have zero : clusterSizeBytes disk fat = 0 := by
    rw [clusterSizeBytes_eq_zero_iff]
    bv_omega
  obtain ⟨m, count⟩ := Nat.exists_eq_succ_of_ne_zero counted.ne'
  obtain ⟨r, after, out', call, -⟩ := stops fun _ => 0
  simp [fat16Fread, count, freadLoop, fat16ReadInternal_faults zero] at call

/-- What a call that stops at the end leaves on the far disk, in a buffer of twos. Whatever
    is written there is a zero, and has to be one of the file. -/
structure FarStop (header : FatHeader) (rawEntry : FatDirectoryEntry) (pos size nmemb : Word) (r : Nat)
    (after : FatStreams) (out' : Nat → Byte) : Prop where
  clustered : 1 ≤ header.sectorsPerCluster.toNat
  sized : 0 < size.toNat
  counted : 0 < nmemb.toNat
  loop : freadLoop farDisk (emptyVolume farDisk header) rawEntry size nmemb.toNat 0 pos.toInt
    freshStreams (fun _ => 2) = some (r, after, out')
  bound : pos.toNat + r * size.toNat ≤ rawEntry.filesize.toNat
  inFile : ∀ i, out' i = 0 → header.NearByte rawEntry (pos.toNat + i)

theorem StopsAtEnd.farStop (sized : 0 < size.toNat) (counted : 0 < nmemb.toNat)
    (stops : StopsAtEnd farDisk (emptyVolume farDisk header) freshStreams rawEntry pos size nmemb) :
    ∃ r after out', FarStop header rawEntry pos size nmemb r after out' := by
  have clustered : 1 ≤ header.sectorsPerCluster.toNat := stops.clustered counted
  rw [stopsAtEnd_iff_loop (clusterSizeBytes_pos farDisk clustered)] at stops
  obtain ⟨r, after, out', loop, bound, bytes⟩ := stops fun _ => 2
  refine ⟨r, after, out', clustered, sized, counted, loop, bound, fun i zero => ?_⟩
  exact fileContents_farDisk clustered ((bytes i (by simp [zero])).trans (congrArg some zero))

theorem toInt_neg {x : Word} (large : 2 ^ 31 ≤ x.toNat) : x.toInt < 0 := by
  rw [BitVec.toInt_eq_toNat_cond, if_neg (by omega)]
  have := x.isLt
  omega

namespace FarStop

variable {r : Nat} {after : FatStreams} {out' : Nat → Byte}
  (stop : FarStop header rawEntry pos size nmemb r after out')
include stop

theorem positive : 0 < clusterSizeBytes farDisk (emptyVolume farDisk header) :=
  clusterSizeBytes_pos farDisk stop.clustered

theorem loop_succ : ∃ m, nmemb.toNat = m + 1 ∧
    freadLoop farDisk (emptyVolume farDisk header) rawEntry size (m + 1) 0 pos.toInt freshStreams
      (fun _ => 2) = some (r, after, out') := by
  obtain ⟨m, count⟩ := Nat.exists_eq_succ_of_ne_zero stop.counted.ne'
  have loop := stop.loop
  rw [count] at loop
  exact ⟨m, count, loop⟩

theorem near : pos.toNat < 2 ^ 31 := by
  by_contra far
  have clusterSize : clusterSizeBytes farDisk (emptyVolume farDisk header) =
      header.sectorsPerCluster.toNat * 512 := rfl
  have mostCluster := clusterSizeBytes_le farDisk (emptyVolume farDisk header)
  have negative := toInt_neg (not_lt.mp far)
  have positive := stop.positive
  have bound := stop.bound
  have filesize := rawEntry.filesize.isLt
  obtain ⟨m, -, loop⟩ := stop.loop_succ
  rcases Nat.lt_or_ge size.toNat (2 ^ 31) with small | huge
  · have signed : 0 < size.toInt := by
      rw [size_toInt small]
      exact Int.natCast_pos.mpr stop.sized
    obtain ⟨-, inside, -⟩ := stop.inFile 0 (freadLoop_farDisk_first _ positive signed (by omega) loop)
    omega
  · have negative' := toInt_neg huge
    have one := freadLoop_counts positive (BitVec.le_toInt _) (by omega) (by omega) loop
    have := Nat.mul_le_mul_right size.toNat one
    omega

/-- A cluster is written, and the call returns zero. -/
theorem long (inside : pos.toNat < header.sectorsPerCluster.toNat * 512)
    (long : header.sectorsPerCluster.toNat * 512 < size.toNat) (small : size.toNat < 2 ^ 31) :
    pos = 0 ∧ header.sectorsPerCluster.toNat * 512 ≤ rawEntry.filesize.toNat ∧
      0 ≤ header.clusterPos (fat16GetFirstCluster rawEntry) ∧
      header.clusterPos (fat16GetFirstCluster rawEntry) + (header.sectorsPerCluster.toNat * 512 : Nat) ≤
        2 ^ 31 := by
  have clusterSize : clusterSizeBytes farDisk (emptyVolume farDisk header) =
      header.sectorsPerCluster.toNat * 512 := rfl
  have clustered := stop.clustered
  obtain ⟨m, -, loop⟩ := stop.loop_succ
  obtain ⟨after', loop'⟩ := freadLoop_long stop.positive
    (by omega : (pos.toNat : Int) < _) (by omega) small m fun _ => 2
  rw [size_toInt stop.near, loop'] at loop
  obtain ⟨-, -, buffer⟩ : 0 = r ∧ after' = after ∧ _ = out' := by simpa using loop
  have all : ∀ i < header.sectorsPerCluster.toNat * 512, header.NearByte rawEntry (pos.toNat + i) := by
    intro i below
    refine stop.inFile i ?_
    rw [← buffer]
    exact (if_pos (by omega)).trans (piece_farDisk ..)
  obtain ⟨-, -, lower, -⟩ := all 0 (by omega)
  obtain ⟨inSize, inCluster, -, upper⟩ := all (header.sectorsPerCluster.toNat * 512 - 1) (by omega)
  exact ⟨BitVec.eq_of_toNat_eq (show pos.toNat = 0 by omega), by omega, by omega, by omega⟩

/-- Whole elements are written as long as they start in the cluster. -/
theorem elements (inside : pos.toNat < header.sectorsPerCluster.toNat * 512)
    (short : size.toNat ≤ header.sectorsPerCluster.toNat * 512) :
    (pos.toNat + nmemb.toNat * size.toNat ≤ header.sectorsPerCluster.toNat * 512 ∨
        size.toNat ∣ header.sectorsPerCluster.toNat * 512 - pos.toNat) ∧
      min (pos.toNat + nmemb.toNat * size.toNat) (header.sectorsPerCluster.toNat * 512) ≤
        rawEntry.filesize.toNat ∧
      0 ≤ header.clusterPos (fat16GetFirstCluster rawEntry) + pos.toNat ∧
      header.clusterPos (fat16GetFirstCluster rawEntry) +
        (min (pos.toNat + nmemb.toNat * size.toNat) (header.sectorsPerCluster.toNat * 512) : Nat) ≤
          2 ^ 31 := by
  have clusterSize : clusterSizeBytes farDisk (emptyVolume farDisk header) =
      header.sectorsPerCluster.toNat * 512 := rfl
  have mostCluster := clusterSizeBytes_le farDisk (emptyVolume farDisk header)
  have here : (pos.toNat : Int) < clusterSizeBytes farDisk (emptyVolume farDisk header) := by omega
  obtain ⟨r', after', buffer, loop', elements⟩ := freadLoop_elements stop.positive rawEntry
    (by omega : (size.toNat : Int) ≤ _) pos.toNat nmemb.toNat 0 freshStreams (fun _ => 2) (by omega)
  simp only [Nat.zero_mul, Nat.add_zero] at loop'
  have loop := stop.loop
  rw [size_toInt stop.near, loop'] at loop
  obtain ⟨-, -, rfl⟩ : r' = r ∧ after' = after ∧ buffer = out' := by simpa using loop
  obtain ⟨m, count⟩ := Nat.exists_eq_succ_of_ne_zero stop.counted.ne'
  rw [count] at loop'
  have one : 0 < r' := freadLoop_counts stop.positive (by omega) here
    (by rw [size_toInt (by omega)]; omega) loop'
  have some_bytes : 0 < r' * size.toNat := Nat.mul_pos one stop.sized
  have all : ∀ i < r' * size.toNat, header.NearByte rawEntry (pos.toNat + i) := by
    intro i below
    refine stop.inFile i ?_
    rw [elements.written i, if_pos (by omega)]
    exact piece_farDisk ..
  obtain ⟨-, -, lower, -⟩ := all 0 some_bytes
  obtain ⟨inSize, inCluster, -, upper⟩ := all (r' * size.toNat - 1) (by omega)
  have request : r' * size.toNat ≤ nmemb.toNat * size.toNat :=
    Nat.mul_le_mul_right _ (by simpa using elements.most)
  rcases elements.stops with all | ends
  · rw [Nat.zero_add] at all
    rw [← all]
    exact ⟨.inl (by omega), by omega, by omega, by omega⟩
  · have whole : header.sectorsPerCluster.toNat * 512 - pos.toNat = size.toNat * r' := by
      rw [Nat.mul_comm size.toNat]
      omega
    exact ⟨.inr ⟨r', whole⟩, by omega, by omega, by omega⟩

/-- Nothing is written, and every element counts. -/
theorem huge (inside : pos.toNat < header.sectorsPerCluster.toNat * 512) (huge : 2 ^ 31 ≤ size.toNat) :
    nmemb = 1 ∧ pos.toNat + size.toNat ≤ rawEntry.filesize.toNat := by
  have clusterSize : clusterSizeBytes farDisk (emptyVolume farDisk header) =
      header.sectorsPerCluster.toNat * 512 := rfl
  have here : (pos.toNat : Int) < clusterSizeBytes farDisk (emptyVolume farDisk header) := by omega
  have positive := stop.positive
  have negative := toInt_neg huge
  have least := BitVec.le_toInt size
  have bound := stop.bound
  have filesize := rawEntry.filesize.isLt
  obtain ⟨m, count, loop⟩ := stop.loop_succ
  rw [size_toInt stop.near] at loop
  have one := freadLoop_counts positive (by omega) here (by omega) loop
  have oneSize := Nat.mul_le_mul_right size.toNat one
  have single : m = 0 := by
    by_contra more
    obtain ⟨m', rfl⟩ := Nat.exists_eq_succ_of_ne_zero more
    have first : 0 ≤ fat16GetFirstCluster rawEntry := Int.natCast_nonneg _
    obtain ⟨after', read⟩ := read_short positive first here (by omega : size.toInt ≤ _) freshStreams
    have next : int32 ((pos.toNat : Int) + size.toInt) = pos.toNat + size.toInt :=
      int32_of_mem (by omega) (by omega)
    rw [freadLoop, read] at loop
    simp only [lt_irrefl, if_false, next] at loop
    have two := freadLoop_counts positive (by omega) (by omega) (by omega) loop
    have := Nat.mul_le_mul_right size.toNat two
    omega
  exact ⟨BitVec.eq_of_toNat_eq (show nmemb.toNat = 1 by omega), by omega⟩

/-- The far disk tells the calls that do not stop. -/
theorem freadStops : header.FreadStops rawEntry pos size nmemb := by
  have clustered := stop.clustered
  have bound := stop.bound
  refine ⟨by omega, stop.near, by omega, ?_⟩
  rcases Nat.lt_or_ge pos.toNat (header.sectorsPerCluster.toNat * 512) with inside | past
  · rcases Nat.lt_or_ge size.toNat (2 ^ 31) with small | huge
    · rcases Nat.lt_or_ge (header.sectorsPerCluster.toNat * 512) size.toNat with long | short
      · exact .inr (.inr (.inl ⟨long, small, stop.long inside long small⟩))
      · exact .inr (.inr (.inr ⟨short, stop.elements inside short⟩))
    · exact .inr (.inl ⟨huge, stop.huge inside huge⟩)
  · exact .inl past

end FarStop

end Necessary

end ConiferOS.Fs
