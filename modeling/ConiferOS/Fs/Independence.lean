import ConiferOS.Fs.DescriptorTable
import ConiferOS.Lib.Purge

/-! # Open files do not interfere

All open files read through the same three streams. Every read seeks first, so where the
others left the streams does not matter; and the position is in a descriptor's own data.
-/

namespace ConiferOS.Fs

open Lib

section Streams

variable {disk : Disk} {fat : FatVolume}

theorem fat16GetFatEntry_streams (streams streams' : FatStreams) (cluster : Int) :
    (fat16GetFatEntry disk fat streams cluster).1 =
      (fat16GetFatEntry disk fat streams' cluster).1 := rfl

theorem followChain_streams (ahead : Nat) (streams streams' : FatStreams) (cluster : Int) :
    (followChain disk fat ahead streams cluster).1 =
      (followChain disk fat ahead streams' cluster).1 := by
  induction ahead generalizing streams streams' cluster with
  | zero => rfl
  | succ ahead ih =>
      simp only [followChain, fat16GetFatEntry_streams streams streams']
      split_ifs
      · rfl
      · rfl
      · rfl
      · rfl
      · exact ih _ _ _

/-- The first piece of a read. -/
def firstPiece (disk : Disk) (fat : FatVolume) (cluster offset n : Int) : Int × DiskStream × List Byte :=
  diskStreamRead disk
    ⟨int32 (fat16ClusterToStartSector fat cluster * disk.sectorSize +
      offset.tmod (clusterSizeBytes disk fat))⟩ (bytesToRead (clusterSizeBytes disk fat) n)

theorem fat16ReadInternal_eq {streams after : FatStreams} {start offset cluster : Int} (n : Int)
    (chain : fat16GetClusterInChain disk fat streams start offset = some (cluster, after)) :
    fat16ReadInternal disk fat streams start offset n =
      if cluster < 0 then some (cluster, after, [])
      else if 0 < n - bytesToRead (clusterSizeBytes disk fat) n then
        (fat16ReadInternal disk fat
            { after with clusterRead := (firstPiece disk fat cluster offset n).2.1 } start
            (int32 (offset + bytesToRead (clusterSizeBytes disk fat) n))
            (n - bytesToRead (clusterSizeBytes disk fat) n)).map
          fun rest => (rest.1, rest.2.1, (firstPiece disk fat cluster offset n).2.2 ++ rest.2.2)
      else some (0, { after with clusterRead := (firstPiece disk fat cluster offset n).2.1 },
        (firstPiece disk fat cluster offset n).2.2) := by
  rw [fat16ReadInternal]
  split
  case h_1 failed =>
    rw [chain] at failed
    cases failed
  case h_2 found streams' located =>
    rw [chain] at located
    cases located
    simp only [diskStreamSeek, diskStreamRead_rc, lt_irrefl, if_false, firstPiece]
    split_ifs
    · rfl
    · cases fat16ReadInternal disk fat _ start _ _ <;> rfl
    · rfl

/-- What a read returns and delivers, without the streams. -/
def seen {α β : Type} (result : Option (α × FatStreams × β)) : Option (α × β) :=
  result.map fun r => (r.1, r.2.2)

theorem seen_map {α β : Type} (f : β → β) (result : Option (α × FatStreams × β)) :
    seen (result.map fun r => (r.1, r.2.1, f r.2.2)) = (seen result).map fun r => (r.1, f r.2) := by
  rw [seen, seen, Option.map_map, Option.map_map]
  rfl

/-- Both reads fault, or they differ in the streams only. -/
theorem seen_cases {α β : Type} {a b : Option (α × FatStreams × β)} (same : seen a = seen b) :
    a = none ∧ b = none ∨
      ∃ rc streams streams' data, a = some (rc, streams, data) ∧ b = some (rc, streams', data) := by
  cases a with
  | none =>
      cases b with
      | none => exact .inl ⟨rfl, rfl⟩
      | some b => cases same
  | some a =>
      cases b with
      | none => cases same
      | some b =>
          obtain ⟨rc, streams, data⟩ := a
          obtain ⟨rc', streams', data'⟩ := b
          cases same
          exact .inr ⟨rc, streams, streams', data, rfl, rfl⟩

theorem fat16ReadInternal_streams (start offset n : Int) (streams streams' : FatStreams) :
    seen (fat16ReadInternal disk fat streams start offset n) =
      seen (fat16ReadInternal disk fat streams' start offset n) := by
  by_cases zero : clusterSizeBytes disk fat = 0
  · rw [fat16ReadInternal_faults zero, fat16ReadInternal_faults zero]
  induction size : n.toNat using Nat.strong_induction_on generalizing offset n streams streams' with
  | _ size ih =>
      have chain : ∀ streams, ∃ after, fat16GetClusterInChain disk fat streams start offset =
          some ((followChain disk fat (offset.tdiv (clusterSizeBytes disk fat)).toNat streams'
            start).1, after) := by
        intro streams
        rw [fat16GetClusterInChain, if_neg zero, followChain_streams _ streams' streams]
        exact ⟨_, rfl⟩
      obtain ⟨after, here⟩ := chain streams
      obtain ⟨after', there⟩ := chain streams'
      rw [fat16ReadInternal_eq n here, fat16ReadInternal_eq n there]
      have positive := clusterSizeBytes_pos_of_chain here
      split_ifs with failed more
      · rfl
      · obtain ⟨piece, long⟩ := bytesToRead_of_more more
        rw [seen_map, seen_map, ih _ (by omega) _ _ _ _ rfl]
      · rfl

/-- The loop over elements. -/
theorem freadLoop_streams (rawEntry : FatDirectoryEntry) (size : Word) (remaining count : Nat)
    (offset : Int) (streams streams' : FatStreams) (out : Nat → Byte) :
    seen (freadLoop disk fat rawEntry size remaining count offset streams out) =
      seen (freadLoop disk fat rawEntry size remaining count offset streams' out) := by
  induction remaining generalizing count offset streams streams' out with
  | zero => rfl
  | succ remaining ih =>
      have same : seen (fat16ReadInternal disk fat streams (fat16GetFirstCluster rawEntry) offset
          size.toInt) = seen (fat16ReadInternal disk fat streams' (fat16GetFirstCluster rawEntry)
          offset size.toInt) := fat16ReadInternal_streams _ _ _ _ _
      rw [freadLoop, freadLoop]
      rcases seen_cases same with ⟨here, there⟩ | ⟨rc, after, after', bytes, here, there⟩
      · rw [here, there]
      · rw [here, there]
        dsimp only
        split
        case isTrue => rfl
        case isFalse => exact ih _ _ _ _ _

theorem fat16Fread_streams (desc : FatFileDescriptor) (size nmemb : Word) (out : Nat → Byte)
    (streams streams' : FatStreams) :
    seen (fat16Fread disk fat streams desc size nmemb out) =
      seen (fat16Fread disk fat streams' desc size nmemb out) := by
  rw [fat16Fread, fat16Fread]
  cases desc.easyDirectoryEntry with
  | directory => rfl
  | file rawEntry =>
      have same : seen (freadLoop disk fat rawEntry size nmemb.toNat 0 desc.pos.toInt streams out) =
          seen (freadLoop disk fat rawEntry size nmemb.toNat 0 desc.pos.toInt streams' out) :=
        freadLoop_streams _ _ _ _ _ _ _ _
      rcases seen_cases same with ⟨here, there⟩ | ⟨count, after, after', out, here, there⟩
      · dsimp only
        rw [here, there]
      · dsimp only
        rw [here, there]
        rfl

end Streams

/-! ## Two runs -/

section Runs

variable {disk : Disk} {fat : FatVolume} {fd : Int}

/-- Both tables are in order, and the descriptor is open in both, with the same data. -/
structure Alike (fd : Int) (s t : Files) : Prop where
  left : s.WellFormed
  right : t.WellFormed
  inUse : s.Open fd
  inUse' : t.Open fd
  data : (s.slot fd.toNat).map Prod.snd = (t.slot fd.toNat).map Prod.snd

/-- The allocations succeed, and the descriptor is not closed. -/
def Undisturbed (fd : Int) (s : Files) (op : FileCall) : Prop := Legal s op ∧ op ≠ .fclose fd

def FileCall.isOn (fd : Int) (op : FileCall) : Bool := op.fd = some fd

theorem Files.Open.of_slot {s s' : Files} (inUse : s.Open fd)
    (same : (s'.slot fd.toNat).isSome = (s.slot fd.toNat).isSome) : s'.Open fd := by
  refine ⟨inUse.1, inUse.2.1, fun null => ?_⟩
  rw [(Files.slot_eq_none_iff s' _).mpr null, Files.slot_of_open inUse.2.2] at same
  cases same

/-- What others do leaves the slot as it is. -/
theorem Alike.others {s t : Files} {op : FileCall} (alike : Alike fd s t)
    (legal : Undisturbed fd s op) (other : op.isOn fd = false) :
    Alike fd (s.call disk fat op).2 t := by
  have effect : Effect s op (s.call disk fat op).1 (s.call disk fat op).2 := call_effect legal.1
  have slot : (s.call disk fat op).2.slot fd.toNat = s.slot fd.toNat := by
    cases target : op.fd with
    | none =>
        refine effect.slot_other alike.left alike.inUse.lt (fun _ some => ?_)
          fun _ => alike.inUse.2.2
        rw [target] at some
        cases some
    | some fd' =>
        by_cases inUse' : s.Open fd'
        · refine effect.slot_other alike.left alike.inUse.lt (fun _ some => ?_) fun none => ?_
          · rw [target] at some
            cases some
            have apart : fd' ≠ fd := by
              rintro rfl
              simp [FileCall.isOn, target] at other
            have := alike.inUse.1
            have := inUse'.1
            omega
          · rw [target] at none
            cases none
        · rw [call_rejected target inUse']
  exact
    { left := effect.wellFormed alike.left
      right := alike.right
      inUse := alike.inUse.of_slot (by rw [slot])
      inUse' := alike.inUse'
      data := by rw [slot, alike.data] }

section Own

variable {s t : Files} (alike : Alike fd s t)

include alike

theorem Alike.same : s.privates (s.descs (s.fileDescriptors fd.toNat)).privateData =
    t.privates (t.descs (t.fileDescriptors fd.toNat)).privateData := by
  have data := alike.data
  rw [Files.slot_of_open alike.inUse.2.2, Files.slot_of_open alike.inUse'.2.2] at data
  exact Option.some.inj data

theorem Alike.withStreams (streams streams' : FatStreams) :
    Alike fd { s with streams := streams } { t with streams := streams' } where
  left := ⟨alike.left.index, alike.left.separate⟩
  right := ⟨alike.right.index, alike.right.separate⟩
  inUse := alike.inUse
  inUse' := alike.inUse'
  data := alike.data

theorem Alike.withData (data : FatFileDescriptor) :
    Alike fd (s.setData fd.toNat data) (t.setData fd.toNat data) where
  left := ⟨alike.left.index, alike.left.separate⟩
  right := ⟨alike.right.index, alike.right.separate⟩
  inUse := alike.inUse
  inUse' := alike.inUse'
  data := by
    rw [slot_setData_self alike.inUse.2.2, slot_setData_self alike.inUse'.2.2, Option.map_some,
      Option.map_some]

/-- A call on the descriptor depends on its data alone. -/
theorem Alike.own {op : FileCall} (notClosed : op ≠ .fclose fd) (mine : op.isOn fd = true) :
    (s.call disk fat op).1 = (t.call disk fat op).1 ∧
      Alike fd (s.call disk fat op).2 (t.call disk fat op).2 := by
  have target : op.fd = some fd := by simpa [FileCall.isOn] using mine
  have here := fileGetDescriptor_of_open alike.inUse
  have there := fileGetDescriptor_of_open alike.inUse'
  have inUse := alike.inUse.2.2
  have inUse' := alike.inUse'.2.2
  cases op with
  | fopen modeStr env => cases target
  | fread out size nmemb fd' =>
      cases target
      simp only [Files.call, Files.fread, here, there, if_neg inUse, if_neg inUse', alike.same]
      by_cases bad : size = 0 ∨ nmemb = 0 ∨ fd < 0
      · simp only [if_pos bad, true_and]
        exact alike
      · simp only [if_neg bad]
        generalize t.privates (t.descs (t.fileDescriptors fd.toNat)).privateData = desc
        have same : seen (fat16Fread disk fat s.streams desc size nmemb out) =
            seen (fat16Fread disk fat t.streams desc size nmemb out) := fat16Fread_streams _ _ _ _ _ _
        rcases seen_cases same with ⟨left, right⟩ | ⟨rc, streams, streams', out', left, right⟩
        · simp only [left, right, Option.map_none, true_and]
          exact alike
        · simp only [left, right, Option.map_some, true_and]
          exact alike.withStreams streams streams'
  | fseek fd' offset whence =>
      cases target
      simp only [Files.call, Files.fseek, here, there, if_neg inUse, if_neg inUse', alike.same,
        true_and]
      exact alike.withData _
  | fstat fd' stat =>
      cases target
      simp only [Files.call, Files.fstat, here, there, if_neg inUse, if_neg inUse', alike.same,
        true_and]
      exact alike
  | fclose fd' =>
      cases target
      exact absurd rfl notClosed

end Own

end Runs

end ConiferOS.Fs
