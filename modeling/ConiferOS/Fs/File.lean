import ConiferOS.Lib.Run
import ConiferOS.Fs.Fat16

/-! # Open files

`fread` and `fseek` of `file.c` over the descriptor table. The one file system driver
is FAT16 and the one disk is fixed, so a descriptor keeps the driver's data only.
-/

namespace ConiferOS.Fs

structure FileState where
  fileDescriptors : Nat → Option FatFileDescriptor
  streams : FatStreams

def fileGetDescriptor (s : FileState) (fd : Int) : Option FatFileDescriptor :=
  if fd < 0 ∨ (maxOpenFiles : Int) - 1 < fd then none else s.fileDescriptors fd.toNat

/-- `none` when the kernel divides by zero, else the return value, the state and the
    caller's buffer. -/
def fread (disk : Disk) (fat : FatVolume) (s : FileState) (out : Nat → Byte)
    (size nmemb : Word) (fd : Int) : Option (Word × FileState × (Nat → Byte)) :=
  if size = 0 ∨ nmemb = 0 ∨ fd < 0 then some (BitVec.ofInt 32 (-einvarg), s, out)
  else match fileGetDescriptor s fd with
    | none => some (BitVec.ofInt 32 (-einvarg), s, out)
    | some desc =>
        (fat16Fread disk fat s.streams desc size nmemb out).map
          fun (rc, streams, out) => (rc, { s with streams := streams }, out)

def fseek (s : FileState) (fd : Int) (offset : Word) (whence : FileSeekMode) : Int × FileState :=
  match fileGetDescriptor s fd with
  | none => (-einvarg, s)
  | some desc =>
      let seek := fat16Fseek desc offset whence
      (seek.1, { s with fileDescriptors := Function.update s.fileDescriptors fd.toNat seek.2 })

/-! ## Which reads succeed -/

section Reading

variable {disk : Disk} {fat : FatVolume}

@[simp] theorem fat16GetFatEntry_zero (streams : FatStreams) (cluster : Int) :
    (fat16GetFatEntry disk fat streams cluster).1 = 0 := by
  simp [fat16GetFatEntry, diskStreamSeek]

/-- No entry of the FAT is ever seen, so a chain ends in its first cluster. -/
theorem followChain_succ (ahead : Nat) (streams : FatStreams) (cluster : Int) :
    (followChain disk fat (ahead + 1) streams cluster).1 = -eio := by
  simp [followChain, fat16BadSector]

/-- Some piece of a read of `n` bytes at `offset` starts past the first cluster. -/
def LeavesFirstCluster (clusterSize offset n : Int) : Prop :=
  ∃ pieces : Nat, (pieces = 0 ∨ pieces * clusterSize < n) ∧ clusterSize ≤ offset + pieces * clusterSize

theorem leavesFirstCluster_past {clusterSize offset n : Int} (past : clusterSize ≤ offset) :
    LeavesFirstCluster clusterSize offset n :=
  ⟨0, .inl rfl, by simpa using past⟩

theorem leavesFirstCluster_next {clusterSize offset n : Int} (inside : offset < clusterSize)
    (long : clusterSize < n) :
    LeavesFirstCluster clusterSize offset n ↔
      LeavesFirstCluster clusterSize (offset + clusterSize) (n - clusterSize) := by
  constructor
  · rintro ⟨pieces, short, past⟩
    cases pieces with
    | zero => simp at past; omega
    | succ pieces =>
        have more : (↑(pieces + 1) : Int) * clusterSize < n := short.resolve_left (by omega)
        push_cast [Int.add_mul] at more past
        exact ⟨pieces, .inr (by omega), by omega⟩
  · rintro ⟨pieces, short, past⟩
    refine ⟨pieces + 1, .inr ?_, ?_⟩
    · push_cast [Int.add_mul]
      rcases short with rfl | short
      · simpa using long
      · omega
    · push_cast [Int.add_mul]
      omega

theorem leavesFirstCluster_last {clusterSize offset n : Int} (inside : offset < clusterSize)
    (positive : 0 < clusterSize) (short : n ≤ clusterSize) :
    ¬ LeavesFirstCluster clusterSize offset n := by
  rintro ⟨pieces, bound, past⟩
  cases pieces with
  | zero => simp at past; omega
  | succ pieces =>
      have more : (↑(pieces + 1) : Int) * clusterSize < n := bound.resolve_left (by omega)
      have := Int.mul_nonneg (Int.natCast_nonneg pieces) (Int.le_of_lt positive)
      push_cast [Int.add_mul] at more
      omega

theorem clusterSizeBytes_le (disk : Disk) (fat : FatVolume) : clusterSizeBytes disk fat ≤ 130560 := by
  have := fat.header.sectorsPerCluster.isLt
  unfold clusterSizeBytes Disk.sectorSize diskSectorSize
  omega

/-- Where a read at `offset` starts, when the volume has clusters. -/
theorem fat16GetClusterInChain_eq (positive : 0 < clusterSizeBytes disk fat) (start offset : Int)
    (streams : FatStreams) :
    ∃ cluster after, fat16GetClusterInChain disk fat streams start offset = some (cluster, after) ∧
      (offset < clusterSizeBytes disk fat → cluster = start) ∧
      (clusterSizeBytes disk fat ≤ offset → cluster = -eio) := by
  rw [fat16GetClusterInChain, if_neg (by omega)]
  refine ⟨_, _, rfl, fun inside => ?_, fun past => ?_⟩
  · have le : offset.tdiv (clusterSizeBytes disk fat) ≤ 0 := calc
      _ ≤ (clusterSizeBytes disk fat - 1).tdiv (clusterSizeBytes disk fat) :=
        Int.tdiv_le_tdiv positive (by omega)
      _ = 0 := Int.tdiv_eq_zero_of_lt (by omega) (by omega)
    rw [Int.toNat_of_nonpos le]
    rfl
  · have ge : 1 ≤ offset.tdiv (clusterSizeBytes disk fat) :=
      Int.le_tdiv_of_mul_le positive (by omega)
    obtain ⟨ahead, eq⟩ : ∃ ahead, (offset.tdiv (clusterSizeBytes disk fat)).toNat = ahead + 1 :=
      ⟨(offset.tdiv (clusterSizeBytes disk fat)).toNat - 1, by omega⟩
    rw [eq]
    exact followChain_succ ahead streams start

/-- Without sectors in a cluster the first lookup divides by zero. -/
theorem fat16ReadInternal_faults (zero : clusterSizeBytes disk fat = 0) (streams : FatStreams)
    (start offset n : Int) : fat16ReadInternal disk fat streams start offset n = none := by
  rw [fat16ReadInternal]
  split
  case h_1 => rfl
  case h_2 chain =>
    rw [fat16GetClusterInChain, if_pos zero] at chain
    cases chain

/-- A read fails exactly when one of its pieces starts past the first cluster. -/
theorem fat16ReadInternal_fails_iff (positive : 0 < clusterSizeBytes disk fat) {start : Int}
    (first : 0 ≤ start) (offset n : Int) (lower : -2 ^ 31 ≤ offset) (streams : FatStreams) :
    ∃ rc after bytes, fat16ReadInternal disk fat streams start offset n = some (rc, after, bytes) ∧
      (rc < 0 ↔ LeavesFirstCluster (clusterSizeBytes disk fat) offset n) := by
  induction size : n.toNat using Nat.strong_induction_on generalizing offset n streams with
  | _ size ih =>
      obtain ⟨cluster, after, chain, here, away⟩ :=
        fat16GetClusterInChain_eq positive start offset streams
      rw [fat16ReadInternal]
      split
      case h_1 failed => rw [chain] at failed; cases failed
      case h_2 found streams' located =>
        rw [chain] at located
        obtain ⟨rfl, rfl⟩ := Prod.mk.inj (Option.some.inj located)
        rcases lt_or_ge offset (clusterSizeBytes disk fat) with inside | past
        · obtain rfl := here inside
          simp only [diskStreamSeek, diskStreamRead_rc, lt_irrefl, if_false, not_lt.mpr first]
          split
          case isTrue more =>
            obtain ⟨piece, long⟩ := bytesToRead_of_more more
            have small := clusterSizeBytes_le disk fat
            have next : int32 (offset + clusterSizeBytes disk fat) =
                offset + clusterSizeBytes disk fat := int32_of_mem (by omega) (by omega)
            rw [piece, next]
            obtain ⟨rc, after', bytes, read, fails⟩ := ih (n - clusterSizeBytes disk fat).toNat
              (by omega) (offset + clusterSizeBytes disk fat) (n - clusterSizeBytes disk fat)
              (by omega) _ rfl
            rw [read]
            exact ⟨rc, after', _, rfl, fails.trans (leavesFirstCluster_next inside long).symm⟩
          case isFalse done =>
            have short : n ≤ clusterSizeBytes disk fat := by
              unfold bytesToRead at done
              split at done <;> omega
            refine ⟨0, _, _, rfl, ?_⟩
            simpa using leavesFirstCluster_last inside positive short
        · rw [away past]
          exact ⟨-eio, after, [], rfl, iff_of_true (by decide) (leavesFirstCluster_past past)⟩

/-! ## The loop over elements -/

theorem freadLoop_eq (positive : 0 < clusterSizeBytes disk fat) (rawEntry : FatDirectoryEntry)
    (size : Word) : ∀ (remaining count : Nat) (offset : Int) (streams : FatStreams)
      (out : Nat → Byte), -2 ^ 31 ≤ offset → ∃ count' after out',
        freadLoop disk fat rawEntry size remaining count offset streams out =
          some (count', after, out') ∧
        count ≤ count' ∧ count' ≤ count + remaining ∧
        (count = count' ↔ remaining = 0 ∨
          LeavesFirstCluster (clusterSizeBytes disk fat) offset size.toInt) := by
  intro remaining
  induction remaining with
  | zero => exact fun count offset streams out _ => ⟨count, streams, out, rfl, by simp⟩
  | succ remaining ih =>
      intro count offset streams out lower
      have first : 0 ≤ fat16GetFirstCluster rawEntry := Int.natCast_nonneg _
      obtain ⟨rc, after, bytes, read, fails⟩ :=
        fat16ReadInternal_fails_iff positive first offset size.toInt lower streams
      simp only [freadLoop, read]
      by_cases failed : rc < 0
      · rw [if_pos failed]
        exact ⟨count, _, _, rfl, by simp [fails.mp failed]⟩
      · rw [if_neg failed]
        have wrapped := (int32_mem (offset + size.toInt)).1
        obtain ⟨count', after', out', loop, least, most, -⟩ := ih (count + 1) _ _ _ wrapped
        refine ⟨count', after', out', loop, by omega, by omega, ?_⟩
        exact iff_of_false (by omega) (by simp [← fails, failed])

end Reading

end ConiferOS.Fs
