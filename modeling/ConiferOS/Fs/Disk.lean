import ConiferOS.Config

/-! # Sector streams

`disk.c` and `disk_stream.c`. The ATA device is a function from the LBA it is given
to the 512 bytes it delivers; contents do not change, since nothing here writes.
A stream reads through a one-sector buffer on the stack. A negative position gives
a negative buffer index, so the bytes around that buffer are part of the model.
-/

namespace ConiferOS.Fs

def diskSectorSize : Int := 512

structure Disk where
  sectors : Word → Nat → Byte
  stray : Int → Byte

/-- The field `disk_search_and_init` sets to `DISK_SECTOR_SIZE`. -/
def Disk.sectorSize (_ : Disk) : Int := diskSectorSize

structure DiskStream where
  pos : Int

/-- One sector, as the bytes at and around the buffer. The driver reports no errors. -/
def diskReadBlock (disk : Disk) (lba : Word) : Int × (Int → Byte) :=
  (0, fun i => if 0 ≤ i ∧ i < diskSectorSize then disk.sectors lba i.toNat else disk.stray i)

def diskStreamSeek (pos : Int) : Int × DiskStream := (0, ⟨pos⟩)

/-- `for (int i = first; i < last; i++) *out++ = buf[i]`. -/
def copyOut (buf : Int → Byte) (first last : Int) : List Byte :=
  (List.range (last - first).toNat).map fun k => buf (first + k)

/-- The return code, the stream, and the bytes written to consecutive places. -/
def diskStreamRead (disk : Disk) (stream : DiskStream) (total : Int) :
    Int × DiskStream × List Byte :=
  let sector := stream.pos.tdiv diskSectorSize
  let offset := stream.pos.tmod diskSectorSize
  let (rc, buf) := diskReadBlock disk (BitVec.ofInt 32 sector)
  if rc < 0 then (rc, stream, [])
  else if diskSectorSize < offset + total then
    let rest := diskStreamRead disk ⟨int32 (stream.pos + (diskSectorSize - offset))⟩
      (total - (diskSectorSize - offset))
    (if rest.1 < 0 then rest.1 else 0, rest.2.1, copyOut buf offset diskSectorSize ++ rest.2.2)
  else
    (0, ⟨int32 (stream.pos + total)⟩, copyOut buf offset (offset + total))
termination_by total.toNat
decreasing_by
  have inside : offset < diskSectorSize := Int.tmod_lt_of_pos stream.pos (by decide)
  omega

theorem diskReadBlock_rc {disk : Disk} {lba : Word} {rc : Int} {buf : Int → Byte}
    (block : diskReadBlock disk lba = (rc, buf)) : ¬ rc < 0 := by
  obtain ⟨rfl, -⟩ := Prod.mk.inj block
  decide

@[simp] theorem diskStreamRead_rc (disk : Disk) (stream : DiskStream) (total : Int) :
    (diskStreamRead disk stream total).1 = 0 := by
  fun_induction diskStreamRead disk stream total with
  | case1 stream total sector rc buf block failed => exact absurd failed (diskReadBlock_rc block)
  | case2 stream total sector offset rc buf block ok more rest ih =>
      simp only [rest, ih, lt_irrefl, if_false]
  | case3 => rfl

theorem diskStreamRead_cases (disk : Disk) (stream : DiskStream) (total : Int) :
    ∃ after bytes, diskStreamRead disk stream total = (0, after, bytes) :=
  ⟨_, _, Prod.ext (diskStreamRead_rc disk stream total) rfl⟩

end ConiferOS.Fs
