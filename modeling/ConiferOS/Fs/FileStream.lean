import ConiferOS.Fs.File
import ConiferOS.Fs.Regions

/-! # `fread` as a stream

A stream hands out the bytes of a file in order: what one call delivers starts where
the previous one stopped. The driver never moves the position of a descriptor when it
reads, so it behaves like one only on reads that deliver nothing.
-/

namespace ConiferOS.Fs

open Lib.Run

/-! ## What a file contains -/

def diskByte (disk : Disk) (pos : Nat) : Byte :=
  disk.sectors (BitVec.ofNat 32 (pos / 512)) (pos % 512)

/-- The little-endian entry of a cluster in the first copy of the FAT. -/
def fatEntry (disk : Disk) (fat : FatVolume) (cluster : Nat) : Nat :=
  let pos := fat.header.reservedSectors.toNat * 512 + 2 * cluster
  (diskByte disk pos).toNat + 256 * (diskByte disk (pos + 1)).toNat

/-- The `k`-th cluster of the chain that starts in `first`. -/
def clusterChain (disk : Disk) (fat : FatVolume) (first : Nat) : Nat → Option Nat
  | 0 => some first
  | k + 1 => (clusterChain disk fat first k).bind fun cluster =>
      let entry := fatEntry disk fat cluster
      if entry = 0 ∨ 0xFFF0 ≤ entry then none else some entry

/-- Byte `j` of a file. -/
def fileByte (disk : Disk) (fat : FatVolume) (rawEntry : FatDirectoryEntry) (j : Nat) :
    Option Byte :=
  if rawEntry.filesize.toNat ≤ j then none
  else
    let clusterSize := (clusterSizeBytes disk fat).toNat
    (clusterChain disk fat (fat16GetFirstCluster rawEntry).toNat (j / clusterSize)).map
      fun cluster =>
        diskByte disk ((fat16ClusterToStartSector fat cluster).toNat * 512 + j % clusterSize)

/-! ## Calls on one descriptor -/

inductive FileOp where
  | fread (size nmemb : Word)
  | fseek (offset : Word) (whence : FileSeekMode)

section Descriptor

variable (disk : Disk) (fat : FatVolume) (fd : Int)

/-- A call that divides by zero does not return; the state stays. -/
def FileState.step (s : FileState) : FileOp → FileState
  | .fread size nmemb =>
      ((Fs.fread disk fat s (fun _ => 0) size nmemb fd).map fun result => result.2.1).getD s
  | .fseek offset whence => (Fs.fseek s fd offset whence).2

/-- The entry of the file that is open under the descriptor. -/
def FileState.openFile (s : FileState) : Option FatDirectoryEntry :=
  match fileGetDescriptor s fd with
  | some ⟨.file rawEntry, _⟩ => some rawEntry
  | _ => none

def FileState.position (s : FileState) : Word :=
  match fileGetDescriptor s fd with
  | some desc => desc.pos
  | none => 0

/-- The arguments that `fread` answers with an error code. -/
def Rejected (s : FileState) (size nmemb : Word) : Prop :=
  size = 0 ∨ nmemb = 0 ∨ s.openFile fd = none

instance (s : FileState) (size nmemb : Word) : Decidable (Rejected fd s size nmemb) :=
  inferInstanceAs (Decidable (_ ∨ _ ∨ _))

/-- The bytes of the elements that `fread` says it read, and the state it leaves. -/
def delivered (s : FileState) (out : Nat → Byte) (size nmemb : Word) :
    Option (List Byte × FileState) :=
  (Fs.fread disk fat s out size nmemb fd).map fun (r, after, out) =>
    (if Rejected fd s size nmemb then [] else (List.range (r.toNat * size.toNat)).map out, after)

/-- What a stream promises about one `fread`. -/
structure StreamLaw (s : FileState) (size nmemb : Word) : Prop where
  contents : ∀ out got after, delivered disk fat fd s out size nmemb = some (got, after) →
    ∀ rawEntry, s.openFile fd = some rawEntry →
      got.map some = (List.range got.length).map fun j =>
        fileByte disk fat rawEntry ((s.position fd).toNat + j)
  position : ∀ out got after, delivered disk fat fd s out size nmemb = some (got, after) →
    (after.position fd).toNat = (s.position fd).toNat + got.length
  compose : ∀ out more first after second after' whole after'',
    nmemb.toNat + more.toNat < 2 ^ 32 →
    delivered disk fat fd s out size nmemb = some (first, after) →
    delivered disk fat fd after out size more = some (second, after') →
    delivered disk fat fd s out size (nmemb + more) = some (whole, after'') →
    first ++ second = whole

/-- No element can be transferred: the arguments are rejected, the volume has no
    clusters, or a piece of the first element starts past the first cluster. -/
def NothingToRead (s : FileState) (size nmemb : Word) : Prop :=
  Rejected fd s size nmemb ∨ fat.header.sectorsPerCluster = 0 ∨
    LeavesFirstCluster (clusterSizeBytes disk fat) (s.position fd).toInt size.toInt

end Descriptor

section Law

variable (disk : Disk) (fat : FatVolume) {fd : Int} {s : FileState} {size nmemb : Word}

theorem fread_rejected (rejected : Rejected fd s size nmemb) (out : Nat → Byte) :
    ∃ rc, Fs.fread disk fat s out size nmemb fd = some (rc, s, out) := by
  unfold Fs.fread
  split
  case isTrue => exact ⟨_, rfl⟩
  case isFalse valid =>
    split
    case h_1 => exact ⟨_, rfl⟩
    case h_2 desc found =>
      obtain ⟨easy, pos⟩ := desc
      cases easy with
      | directory => exact ⟨_, rfl⟩
      | file rawEntry =>
          simp only [Rejected, FileState.openFile, found] at rejected
          simp only [reduceCtorEq, or_false] at rejected
          exact absurd (rejected.elim .inl fun zero => .inr (.inl zero)) valid

/-- A call that is not rejected reaches the driver with an open file. -/
theorem fread_accepted (accepted : ¬ Rejected fd s size nmemb) (out : Nat → Byte) :
    ∃ rawEntry, Fs.fread disk fat s out size nmemb fd =
      (freadLoop disk fat rawEntry size nmemb.toNat 0 (s.position fd).toInt s.streams out).map
        fun (count, streams, out) => (BitVec.ofNat 32 count, { s with streams := streams }, out) := by
  simp only [Rejected, not_or] at accepted
  obtain ⟨sized, counted, isOpen⟩ := accepted
  have valid : ¬ fd < 0 := by
    intro negative
    simp [FileState.openFile, fileGetDescriptor, negative] at isOpen
  unfold Fs.fread FileState.position
  rw [if_neg fun bad => bad.elim sized fun bad => bad.elim counted valid]
  unfold FileState.openFile at isOpen
  split at isOpen
  case h_1 rawEntry pos found =>
    refine ⟨rawEntry, ?_⟩
    simp only [found, fat16Fread, Option.map_map]
    rfl
  case h_2 => exact absurd rfl isOpen

theorem clusterSizeBytes_eq_zero_iff :
    clusterSizeBytes disk fat = 0 ↔ fat.header.sectorsPerCluster = 0 := by
  unfold clusterSizeBytes Disk.sectorSize diskSectorSize
  constructor
  · intro zero
    bv_omega
  · intro zero
    simp [zero]

variable {fat}

theorem fread_faults (accepted : ¬ Rejected fd s size nmemb)
    (empty : fat.header.sectorsPerCluster = 0) (out : Nat → Byte) :
    Fs.fread disk fat s out size nmemb fd = none := by
  obtain ⟨rawEntry, call⟩ := fread_accepted disk fat accepted out
  have counted : nmemb.toNat ≠ 0 := fun zero => accepted (.inr (.inl (by bv_omega)))
  obtain ⟨n, eq⟩ := Nat.exists_eq_succ_of_ne_zero counted
  have read : fat16ReadInternal disk fat s.streams (fat16GetFirstCluster rawEntry)
      (s.position fd).toInt size.toInt = none :=
    fat16ReadInternal_faults ((clusterSizeBytes_eq_zero_iff disk fat).mpr empty) _ _ _ _
  rw [call, eq, freadLoop, read]
  rfl

theorem delivered_rejected (rejected : Rejected fd s size nmemb) (out : Nat → Byte) :
    delivered disk fat fd s out size nmemb = some ([], s) := by
  obtain ⟨rc, call⟩ := fread_rejected disk fat rejected out
  simp only [delivered, call, Option.map_some, if_pos rejected]

/-- On a volume with clusters a call that is not rejected returns; it delivers nothing
    exactly when the first element leaves the first cluster, and moves no position. -/
theorem delivered_accepted (accepted : ¬ Rejected fd s size nmemb)
    (clustered : fat.header.sectorsPerCluster ≠ 0) (out : Nat → Byte) :
    ∃ got streams, delivered disk fat fd s out size nmemb =
        some (got, { s with streams := streams }) ∧
      (got = [] ↔
        LeavesFirstCluster (clusterSizeBytes disk fat) (s.position fd).toInt size.toInt) := by
  have positive : 0 < clusterSizeBytes disk fat := by
    have nonzero := mt (clusterSizeBytes_eq_zero_iff disk fat).mp clustered
    have nonneg : 0 ≤ clusterSizeBytes disk fat :=
      Int.mul_nonneg (Int.natCast_nonneg _) (show 0 ≤ diskSectorSize by decide)
    omega
  have sized : size.toNat ≠ 0 := fun zero => accepted (.inl (by bv_omega))
  have counted : nmemb.toNat ≠ 0 := fun zero => accepted (.inr (.inl (by bv_omega)))
  obtain ⟨rawEntry, call⟩ := fread_accepted disk fat accepted out
  obtain ⟨count, streams, out', loop, -, most, nothing⟩ := freadLoop_eq positive rawEntry size
    nmemb.toNat 0 (s.position fd).toInt s.streams out (BitVec.le_toInt _)
  have small : (BitVec.ofNat 32 count).toNat = count := by
    rw [BitVec.toNat_ofNat]
    omega
  simp only [delivered, call, loop, Option.map_some, if_neg accepted, small]
  refine ⟨_, streams, rfl, ?_⟩
  simp only [List.map_eq_nil_iff, List.range_eq_nil, Nat.mul_eq_zero, sized, or_false]
  rw [eq_comm, nothing]
  simp only [counted, false_or]

variable {disk}

theorem position_streams (s : FileState) (streams : FatStreams) :
    ({ s with streams := streams } : FileState).position fd = s.position fd := rfl

/-- Where nothing can be read, whatever returns delivers nothing. -/
theorem delivered_nothing (nothing : NothingToRead disk fat fd s size nmemb) {out : Nat → Byte}
    {got : List Byte} {after : FileState}
    (call : delivered disk fat fd s out size nmemb = some (got, after)) :
    got = [] ∧ ∃ streams, after = { s with streams := streams } := by
  by_cases rejected : Rejected fd s size nmemb
  · rw [delivered_rejected disk rejected] at call
    obtain ⟨rfl, rfl⟩ := Prod.mk.inj (Option.some.inj call)
    exact ⟨rfl, s.streams, rfl⟩
  · obtain empty | leaves := nothing.resolve_left rejected
    · simp [delivered, fread_faults disk rejected empty] at call
    · by_cases empty : fat.header.sectorsPerCluster = 0
      · simp [delivered, fread_faults disk rejected empty] at call
      · obtain ⟨got', streams, call', iff⟩ := delivered_accepted disk rejected empty out
        rw [call'] at call
        obtain ⟨rfl, rfl⟩ := Prod.mk.inj (Option.some.inj call)
        exact ⟨iff.mpr leaves, streams, rfl⟩

theorem streamLaw_iff :
    StreamLaw disk fat fd s size nmemb ↔ NothingToRead disk fat fd s size nmemb := by
  constructor
  · intro law
    by_contra something
    simp only [NothingToRead, not_or] at something
    obtain ⟨accepted, clustered, stays⟩ := something
    obtain ⟨got, streams, call, nothing⟩ := delivered_accepted disk accepted clustered
      fun _ => 0
    have moved := law.position _ got _ call
    rw [position_streams] at moved
    exact stays (nothing.mp (List.length_eq_zero_iff.mp (by omega)))
  · intro nothing
    refine ⟨fun out got after call _ _ => ?_, fun out got after call => ?_, ?_⟩
    · obtain ⟨rfl, -⟩ := delivered_nothing nothing call
      rfl
    · obtain ⟨rfl, streams, rfl⟩ := delivered_nothing nothing call
      rfl
    · intro out more first after second after' whole after'' _ one two both
      obtain ⟨rfl, streams, rfl⟩ := delivered_nothing nothing one
      by_cases zero : nmemb = 0
      · rw [delivered_rejected disk (.inr (.inl zero))] at one
        obtain ⟨-, same⟩ := Prod.mk.inj (Option.some.inj one)
        rw [zero, zero_add] at both
        rw [← same, both] at two
        exact (Prod.mk.inj (Option.some.inj two)).1.symm
      · have still : ∀ more' streams',
            NothingToRead disk fat fd { s with streams := streams' } size more' := by
          intro more' streams'
          rcases nothing with (sized | counted | closed) | rest
          · exact .inl (.inl sized)
          · exact absurd counted zero
          · exact .inl (.inr (.inr closed))
          · exact .inr rest
        rw [(delivered_nothing (still more streams) two).1,
          (delivered_nothing (still (nmemb + more) s.streams) both).1]
        rfl

end Law

section Run

variable (disk : Disk) (fat : FatVolume) (fd : Int)

/-- The side condition of a call on the descriptor: seeks have none. -/
def AtFread (P : FileState → Word → Word → Prop) (s : FileState) : FileOp → Prop
  | .fread size nmemb => P s size nmemb
  | .fseek _ _ => True

/-- Along every run of calls on a descriptor, `fread` obeys the stream law exactly
    when no call of the run can transfer an element. -/
theorem fread_stream_iff (s : FileState) (ops : List FileOp) :
    Always (FileState.step disk fat fd) (AtFread (StreamLaw disk fat fd)) s ops ↔
      Always (FileState.step disk fat fd) (AtFread (NothingToRead disk fat fd)) s ops := by
  refine Always.congr (fun s op => ?_) s ops
  cases op with
  | fread size nmemb => exact streamLaw_iff
  | fseek => exact Iff.rfl

end Run

/-- A file of ten bytes in cluster 2, open as descriptor 0. -/
def tenBytesOpen : FileState where
  fileDescriptors := fun fd => if fd = 0 then some ⟨.file ⟨0, 0, 2, 10⟩, 0⟩ else none
  streams := ⟨⟨0⟩, ⟨0⟩, ⟨0⟩⟩

/-- Reading one byte delivers it and leaves the position where it was. -/
theorem fread_stream_broken_one_byte :
    ¬ Always (FileState.step blankDisk (blankVolume 16) 0)
      (AtFread (StreamLaw blankDisk (blankVolume 16) 0)) tenBytesOpen [.fread 1 1] := by
  intro law
  have first : StreamLaw blankDisk (blankVolume 16) 0 tenBytesOpen 1 1 := law.1
  rcases streamLaw_iff.mp first with rejected | empty | leaves
  · exact absurd rejected (by decide)
  · exact absurd empty (by decide)
  · exact leavesFirstCluster_last (by decide) (by decide) (by decide) leaves

end ConiferOS.Fs
