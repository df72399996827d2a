import ConiferOS.Fs.FileStream

/-! # Sector streams as flat reads

`disk_stream_read` goes through one sector per call of itself. From a position that is
not negative, the pieces are consecutive bytes of the disk, as long as the position stays
an `int`. A position past that is negative, and the sector it leads to is another one.
-/

namespace ConiferOS.Fs

/-- `n` consecutive bytes of a disk. -/
def diskBytes (disk : Disk) (pos n : Nat) : List Byte :=
  (List.range n).map fun k => diskByte disk (pos + k)

theorem diskBytes_add (disk : Disk) (pos a b : Nat) :
    diskBytes disk pos (a + b) = diskBytes disk pos a ++ diskBytes disk (pos + a) b := by
  simp only [diskBytes, List.range_add, List.map_append, List.map_map]
  congr 1
  apply List.map_congr_left
  intro k _
  simp [Nat.add_assoc]

theorem copyOut_eq (buf : Int → Byte) (first last : Int) :
    copyOut buf first last = (List.range (last - first).toNat).map fun k : Nat => buf (first + k) := by
  simp only [copyOut, List.pure_def, List.bind_eq_flatMap, List.map_flatMap, List.map_cons, List.map_nil]
  exact List.map_eq_flatMap.symm

/-- What is copied from the buffer of a sector, between two places in it. -/
theorem copyOut_diskReadBlock (disk : Disk) (pos n : Nat) (within : pos % 512 + n ≤ 512) :
    copyOut (diskReadBlock disk (BitVec.ofNat 32 (pos / 512))).2 (pos % 512 : Nat)
      ((pos % 512 : Nat) + n) = diskBytes disk pos n := by
  have count : (((pos % 512 : Nat) : Int) + n - (pos % 512 : Nat)).toNat = n := by omega
  rw [copyOut_eq, count, diskBytes]
  apply List.map_congr_left
  intro k member
  have inside : k < n := List.mem_range.mp member
  have sector : (pos + k) / 512 = pos / 512 := by omega
  have offset : (pos + k) % 512 = pos % 512 + k := by omega
  have index : 0 ≤ ((pos % 512 : Nat) : Int) + k ∧ ((pos % 512 : Nat) : Int) + k < diskSectorSize := by
    unfold diskSectorSize
    omega
  rw [diskReadBlock, diskByte, sector, offset]
  simp only [if_pos index]
  congr 1

theorem int32_add_int32 (a b : Int) : int32 (int32 a + b) = int32 (a + b) := by
  simp only [int32, Int.bmod_add_bmod]

theorem diskStreamRead_pos (disk : Disk) (stream : DiskStream) (total : Int) :
    (diskStreamRead disk stream total).2.1 = ⟨int32 (stream.pos + total)⟩ := by
  fun_induction diskStreamRead disk stream total with
  | case1 stream total sector rc buf block failed => exact absurd failed (diskReadBlock_rc block)
  | case2 stream total sector offset rc buf block ok more rest ih =>
      simp only [rest, ih, int32_add_int32]
      congr 2
      ring
  | case3 => rfl

@[simp] theorem copyOut_length (buf : Int → Byte) (first last : Int) :
    (copyOut buf first last).length = (last - first).toNat := by
  simp [copyOut_eq]

@[simp] theorem diskStreamRead_length (disk : Disk) (stream : DiskStream) (total : Int) :
    (diskStreamRead disk stream total).2.2.length = total.toNat := by
  fun_induction diskStreamRead disk stream total with
  | case1 stream total sector rc buf block failed => exact absurd failed (diskReadBlock_rc block)
  | case2 stream total sector offset rc buf block ok more rest ih =>
      have inside : offset < diskSectorSize := Int.tmod_lt_of_pos stream.pos (by decide)
      simp only [List.length_append, copyOut_length, rest, ih]
      omega
  | case3 stream total sector offset rc buf block ok within =>
      simp only [copyOut_length]
      omega

theorem diskBytes_take (disk : Disk) (pos : Nat) {n m : Nat} (le : n ≤ m) :
    (diskBytes disk pos m).take n = diskBytes disk pos n := by
  rw [diskBytes, ← List.map_take, List.take_range, Nat.min_eq_left le, diskBytes]

/-- The first bytes of a read, when only their positions are an `int`. Induction on the bytes
    left: a sector's worth is read, then the rest. -/
theorem diskStreamRead_take (disk : Disk) (pos total : Nat) {n : Nat} (within : n ≤ total)
    (fits : pos + n ≤ 2 ^ 31) :
    (diskStreamRead disk ⟨pos⟩ total).2.2.take n = diskBytes disk pos n := by
  induction total using Nat.strong_induction_on generalizing pos n with
  | _ total ih =>
      have sector : (pos : Int).tdiv diskSectorSize = (pos / 512 : Nat) := rfl
      have offset : (pos : Int).tmod diskSectorSize = (pos % 512 : Nat) := rfl
      have size : diskSectorSize = 512 := rfl
      have lba : BitVec.ofInt 32 ((pos / 512 : Nat) : Int) = BitVec.ofNat 32 (pos / 512) :=
        BitVec.ofInt_natCast 32 (pos / 512)
      rw [diskStreamRead]
      simp only [sector, offset, lba]
      have ok : ¬ (diskReadBlock disk (BitVec.ofNat 32 (pos / 512))).1 < 0 := lt_irrefl 0
      rw [if_neg ok]
      split
      case isTrue crosses =>
        have until512 : diskSectorSize = ((pos % 512 : Nat) : Int) + (512 - pos % 512 : Nat) := by omega
        have first := copyOut_diskReadBlock disk pos (512 - pos % 512) (by omega)
        rw [← until512] at first
        have length : (diskBytes disk pos (512 - pos % 512)).length = 512 - pos % 512 := by simp [diskBytes]
        simp only [first]
        rcases Nat.lt_or_ge (512 - pos % 512) n with beyond | here
        · have next : int32 (pos + (diskSectorSize - (pos % 512 : Nat))) =
              ((pos + (512 - pos % 512) : Nat) : Int) := by
            rw [int32_of_mem] <;> omega
          have rest : (total : Int) - (diskSectorSize - (pos % 512 : Nat)) =
              ((total - (512 - pos % 512) : Nat) : Int) := by omega
          have whole : n = (512 - pos % 512) + (n - (512 - pos % 512)) := by omega
          rw [next, rest, List.take_append, List.take_of_length_le (by omega), length,
            ih (total - (512 - pos % 512)) (by omega) _ (by omega) (by omega), ← diskBytes_add, ← whole]
        · rw [List.take_append_of_le_length (by omega), diskBytes_take disk pos here]
      case isFalse =>
        rw [copyOut_diskReadBlock disk pos total (by omega), diskBytes_take disk pos within]

theorem diskStreamRead_eq (disk : Disk) (pos total : Nat) (fits : pos + total ≤ 2 ^ 31) :
    diskStreamRead disk ⟨pos⟩ total = (0, ⟨int32 (pos + total)⟩, diskBytes disk pos total) := by
  have bytes := diskStreamRead_take disk pos total le_rfl fits
  rw [List.take_of_length_le (by simp)] at bytes
  exact Prod.ext (diskStreamRead_rc ..) (Prod.ext (diskStreamRead_pos ..) bytes)

/-- A read is the flat read of the same bytes: they go to the first `total` places of the
    buffer, and the stream is behind them. -/
theorem diskStreamRead_flat (disk : Disk) (pos total : Nat) (fits : pos + total < 2 ^ 31)
    (out : Nat → Byte) :
    ∃ bytes, diskStreamRead disk ⟨pos⟩ total = (0, ⟨((pos + total : Nat) : Int)⟩, bytes) ∧
      bytes.length = total ∧
      ∀ i, writeOut out 0 bytes i = if i < total then diskByte disk (pos + i) else out i := by
  refine ⟨diskBytes disk pos total, ?_, ?_, fun i => ?_⟩
  · rw [diskStreamRead_eq disk pos total (by omega), int32_of_mem (by omega) (by omega)]
    rfl
  · simp [diskBytes]
  · simp only [writeOut, diskBytes, Nat.zero_le, if_true, Nat.sub_zero]
    split
    case isTrue inside => simp [List.getD, inside]
    case isFalse outside => simp [List.getD, outside]

theorem diskStreamRead_flat_two_sectors :
    ∃ bytes, diskStreamRead blankDisk ⟨((510 : Nat) : Int)⟩ ((4 : Nat) : Int) =
        (0, ⟨((514 : Nat) : Int)⟩, bytes) ∧ bytes.length = 4 ∧
      ∀ i, writeOut (fun _ => 7) 0 bytes i = if i < 4 then diskByte blankDisk (510 + i) else 7 :=
  diskStreamRead_flat blankDisk 510 4 (by decide) fun _ => 7

end ConiferOS.Fs
