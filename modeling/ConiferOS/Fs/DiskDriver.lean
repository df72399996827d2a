import ConiferOS.Boot.AtaLbaRead
import ConiferOS.Fs.SectorStream

/-! # The disk driver

`disk.c` down to the ports of the drive, and `disk_stream_read` with its buffers on the stack. For
a drive that becomes ready, it does to memory what the streams above it are modelled by, with the
sector number cut to 28 bits. The driver waits for ever for a drive that does not.
-/

namespace ConiferOS.Fs

open Lib Boot

/-- Memory and the drive, and how often the drive was waited for. -/
structure Io where
  mem : Mem
  ata : Ata
  waits : Nat

/-- `*ptr = insw(ATA_DATA_PORT); ptr++` -/
def readWords (drive : Drive) : (count : Nat) → (ptr : Word) → Io → Io
  | 0, _, s => s
  | count + 1, ptr, s =>
      let lo := s.ata.byte drive (2 * s.ata.delivered)
      let hi := s.ata.byte drive (2 * s.ata.delivered + 1)
      readWords drive count (ptr + 2)
        { s with
          mem := (s.mem.store8 ptr lo).store8 (ptr + 1) hi
          ata := { s.ata with delivered := s.ata.delivered + 1 } }

/-- `for (int i = 0; i < total; i++)` -/
def readSectorLoop (drive : Drive) : (total : Nat) → (ptr : Word) → Io → Option Io
  | 0, _, s => some s
  | total + 1, ptr, s =>
      match waitForReadyDrive (drive.polls s.waits) with
      | none => none
      | some _ => readSectorLoop drive total (ptr + 512) (readWords drive 256 ptr { s with waits := s.waits + 1 })

/-- `lba` is an `int`, so its shifts are arithmetic. -/
def diskReadSector (drive : Drive) (lba : Word) (total : Int) (buf : Word) (s : Io) : Option (Int × Io) :=
  let ata := s.ata.out ((lba.sshiftRight 24 ||| 0xE0).setWidth 8) .driveSelect
  let ata := ata.out (BitVec.ofInt 8 total) .sectorCount
  let ata := ata.out ((lba &&& 0xFF).setWidth 8) .lbaLo
  let ata := ata.out ((lba.sshiftRight 8).setWidth 8) .lbaMid
  let ata := ata.out ((lba.sshiftRight 16).setWidth 8) .lbaHi
  let ata := ata.out 0x20 .command
  (readSectorLoop drive total.toNat buf { s with ata := ata }).map fun s => (0, s)

/-- `disk_read_block`; `disk` is the address of the one disk that there is. -/
def diskReadBlockAt (drive : Drive) (disk idisk lba : Word) (total : Int) (buf : Word) (s : Io) :
    Option (Int × Io) :=
  if idisk ≠ disk then some (-eio, s) else diskReadSector drive lba total buf s

/-- `*(char *)out = buf[i]; (char *)out++` -/
def copyOutAt (buf : Word) : (count : Nat) → (i : Int) → (out : Word) → Mem → Mem
  | 0, _, _, m => m
  | count + 1, i, out, m => copyOutAt buf count (i + 1) (out + 1) (m.store8 out (m (buf + BitVec.ofInt 32 i)))

/-- `disk_stream_read`. `bufs` are the addresses of `buf` in the calls of the function inside each
    other; the result has the stream and where `out` came to. -/
def diskStreamReadAt (drive : Drive) (disk idisk : Word) (bufs : Nat → Word) (depth : Nat)
    (stream : DiskStream) (out : Word) (total : Int) (s : Io) : Option (Int × DiskStream × Io) :=
  let sector := stream.pos.tdiv diskSectorSize
  let offset := stream.pos.tmod diskSectorSize
  match diskReadBlockAt drive disk idisk (BitVec.ofInt 32 sector) 1 (bufs depth) s with
  | none => none
  | some (rc, s) =>
      if rc < 0 then some (rc, stream, s)
      else if diskSectorSize < offset + total then
        let count := (diskSectorSize - offset).toNat
        let s := { s with mem := copyOutAt (bufs depth) count offset out s.mem }
        match diskStreamReadAt drive disk idisk bufs (depth + 1)
            ⟨int32 (stream.pos + (diskSectorSize - offset))⟩ (out + BitVec.ofNat 32 count)
            (total - (diskSectorSize - offset)) s with
        | none => none
        | some (rc, stream, s) => some (if rc < 0 then rc else 0, stream, s)
      else
        let s := { s with mem := copyOutAt (bufs depth) total.toNat offset out s.mem }
        some (0, ⟨int32 (stream.pos + total)⟩, s)
termination_by total.toNat
decreasing_by
  have inside : offset < diskSectorSize := Int.tmod_lt_of_pos stream.pos (by decide)
  omega

/-! ## Sectors -/

/-- The words go to memory as in the boot loader. -/
theorem repInsw_readWords (drive : Drive) (eax ebx ecx : Word) (count : Nat) (ptr : Word) (s : Io) :
    (Loader.mk eax ebx ecx ptr s.mem s.ata s.waits).repInsw drive count =
      ⟨eax, ebx, ecx, ptr + BitVec.ofNat 32 (2 * count), (readWords drive count ptr s).mem,
        (readWords drive count ptr s).ata, (readWords drive count ptr s).waits⟩ := by
  induction count generalizing ptr s with
  | zero => simp [Loader.repInsw, readWords]
  | succ count ih =>
      rw [Loader.repInsw, readWords, show ptr + BitVec.ofNat 32 (2 * (count + 1)) =
        ptr + 2 + BitVec.ofNat 32 (2 * count) by bv_omega, ← ih]
      rfl

theorem readWords_eq (drive : Drive) (count : Nat) (fits : 2 * count ≤ 2 ^ 32) (ptr : Word) (s : Io) :
    readWords drive count ptr s =
      ⟨received s.mem ptr (2 * count) fun i => s.ata.byte drive (2 * s.ata.delivered + i),
        { s.ata with delivered := s.ata.delivered + count }, s.waits⟩ := by
  have words := repInsw_readWords drive 0 0 0 count ptr s
  rw [repInsw_eq drive fits] at words
  obtain ⟨-, -, -, -, mem, ata, waits⟩ := Loader.mk.inj words
  exact (congr (congr (congrArg Io.mk mem) ata) waits).symm

theorem readSectorLoop_some {drive : Drive} (ready : drive.Ready) (total : Nat)
    (fits : 512 * total ≤ 2 ^ 32) (ptr : Word) (s : Io) :
    ∃ s', readSectorLoop drive total ptr s = some s' ∧
      s'.mem = received s.mem ptr (512 * total) fun i => s.ata.byte drive (2 * s.ata.delivered + i) := by
  induction total generalizing ptr s with
  | zero => exact ⟨s, rfl, rfl⟩
  | succ total ih =>
      obtain ⟨status, wait⟩ := waitForReadyDrive_some (ready s.waits)
      have words := readWords_eq drive 256 (by norm_num) ptr { s with waits := s.waits + 1 }
      obtain ⟨s', rest, mem⟩ :=
        ih (by omega) (ptr + 512) (readWords drive 256 ptr { s with waits := s.waits + 1 })
      refine ⟨s', by rw [readSectorLoop, wait]; exact rest, ?_⟩
      have later : (fun i => ({ s.ata with delivered := s.ata.delivered + 256 } : Ata).byte drive
          (2 * (s.ata.delivered + 256) + i)) =
            fun i => s.ata.byte drive (2 * s.ata.delivered + (512 + i)) := by
        funext i
        rw [show 2 * (s.ata.delivered + 256) + i = 2 * s.ata.delivered + (512 + i) by omega]
        rfl
      rw [mem, words]
      simp only [later]
      rw [show 512 * (total + 1) = 512 + 512 * total by omega]
      exact received_append s.mem ptr (by omega) _

/-- The arithmetic shifts of the driver send the same bytes as the logical ones of the loader. -/
theorem sshiftRight_byte (lba : Word) {n : Nat} (inside : n ≤ 24) :
    (lba.sshiftRight n).setWidth 8 = (lba >>> n).setWidth 8 := by
  ext i small
  have bit : n + i < 32 := by omega
  have inWord : i < 32 := by omega
  simp [BitVec.getElem_sshiftRight, bit, inWord]

theorem low_byte (lba : Word) : (lba &&& 0xFF).setWidth 8 = lba.setWidth 8 := by
  rw [BitVec.setWidth_and, show (0xFF : Word).setWidth 8 = BitVec.allOnes 8 from rfl, BitVec.and_allOnes]

/-- The drive is asked for the sectors from `lba` on. -/
theorem diskReadSector_eq (drive : Drive) (lba : Word) {total : Nat} (few : total ≤ 255) (buf : Word) (s : Io) :
    diskReadSector drive lba total buf s =
      (readSectorLoop drive total buf
        { s with
          ata := { s.ata.asked lba (BitVec.ofNat 32 total) with
            sector := commandLba lba, count := total, delivered := 0 } }).map fun s => (0, s) := by
  have lba' := asked_lba s.ata lba (BitVec.ofNat 32 total)
  have select : (lba.sshiftRight 24 ||| 0xE0).setWidth 8 = (lba >>> 24 ||| 0xE0).setWidth 8 := by
    rw [BitVec.setWidth_or, BitVec.setWidth_or, sshiftRight_byte lba le_rfl]
  have count : BitVec.ofInt 8 (total : Int) = (BitVec.ofNat 32 total).setWidth 8 := by
    apply BitVec.eq_of_toNat_eq
    simp
  have counted : ((BitVec.ofNat 32 total).setWidth 8).toNat = total := by
    rw [BitVec.toNat_setWidth, BitVec.toNat_ofNat]
    omega
  simp only [Ata.asked] at lba' ⊢
  simp only [diskReadSector, Ata.out, select, count, counted, low_byte, sshiftRight_byte lba (by decide : 8 ≤ 24),
    sshiftRight_byte lba (by decide : 16 ≤ 24), lba', if_true, Int.toNat_natCast]

/-- Sectors in a row, for a drive in any state. -/
theorem diskReadSector_some {drive : Drive} (ready : drive.Ready) (lba : Word) {total : Nat} (few : total ≤ 255)
    (buf : Word) (s : Io) :
    ∃ s', diskReadSector drive lba total buf s = some (0, s') ∧
      s'.mem = received s.mem buf (512 * total) fun i => drive.disk (commandLba lba + i / 512) (i % 512) := by
  rw [diskReadSector_eq drive lba few]
  obtain ⟨s', run, mem⟩ := readSectorLoop_some ready total (by omega) buf
    { s with
      ata := { s.ata.asked lba (BitVec.ofNat 32 total) with
        sector := commandLba lba, count := total, delivered := 0 } }
  refine ⟨s', by rw [run]; rfl, mem.trans (received_congr fun i inside => ?_)⟩
  simp only [Ata.byte, Nat.mul_zero, Nat.zero_add, if_pos inside]

/-- The disk that the drive is to the file system. -/
def diskOf (drive : Drive) (stray : Int → Byte) : Disk :=
  ⟨fun lba => drive.disk (commandLba lba), stray⟩

/-- One sector, as the model of the streams has it. -/
theorem diskReadBlockAt_one {drive : Drive} (ready : drive.Ready) (disk lba buf : Word) (s : Io)
    (stray : Int → Byte) :
    ∃ s', diskReadBlockAt drive disk disk lba 1 buf s = some (0, s') ∧
      (∀ i < 512, s'.mem (buf + BitVec.ofNat 32 i) = (diskOf drive stray).sectors lba i) ∧
      ∀ y, 512 ≤ (y - buf).toNat → s'.mem y = s.mem y := by
  obtain ⟨s', run, mem⟩ := diskReadSector_some ready lba (show 1 ≤ 255 by decide) buf s
  refine ⟨s', by rw [diskReadBlockAt, if_neg (not_not.mpr rfl)]; exact run, fun i inside => ?_, fun y outside => ?_⟩
  · have offset : (buf + BitVec.ofNat 32 i - buf).toNat = i := by bv_omega
    rw [mem, received, offset, if_pos (by omega), Nat.div_eq_of_lt inside, Nat.add_zero,
      Nat.mod_eq_of_lt inside, diskOf]
  · rw [mem]
    exact if_neg (by omega)

/-! ## Streams -/

/-- The loop copies `count` bytes of the buffer when the destination is apart from it. -/
theorem copyOutAt_eq {buf out : Word} {count first : Nat} (inside : first + count ≤ 512) (m : Mem)
    (apart : ∀ i < 512, ∀ j < count, buf + BitVec.ofNat 32 i ≠ out + BitVec.ofNat 32 j) :
    copyOutAt buf count first out m = received m out count fun j => m (buf + BitVec.ofNat 32 (first + j)) := by
  induction count generalizing first out m with
  | zero => rfl
  | succ count ih =>
      have source : buf + BitVec.ofInt 32 (first : Int) = buf + BitVec.ofNat 32 first := by
        rw [BitVec.ofInt_natCast]
      have next : (first : Int) + 1 = (first + 1 : Nat) := by omega
      have address : ∀ j, out + 1 + BitVec.ofNat 32 j = out + BitVec.ofNat 32 (j + 1) := by
        intro j
        bv_omega
      rw [copyOutAt, source, next, ih (by omega) _ fun i hi j hj => by
        rw [address]
        exact apart i hi (j + 1) (by omega)]
      have kept : ∀ j < count, (m.store8 out (m (buf + BitVec.ofNat 32 first)))
          (buf + BitVec.ofNat 32 (first + 1 + j)) = m (buf + BitVec.ofNat 32 (first + 1 + j)) := by
        intro j hj
        refine if_neg ?_
        simpa using apart (first + 1 + j) (by omega) 0 (by omega)
      rw [received_congr kept]
      have one : m.store8 out (m (buf + BitVec.ofNat 32 first)) =
          received m out 1 fun j => m (buf + BitVec.ofNat 32 (first + j)) := by
        funext x
        simp only [received, Mem.store8]
        by_cases here : x = out
        · simp [here]
        · rw [if_neg here, if_neg (by bv_omega)]
      have whole := received_append m out (n := 1) (k := count) (by omega)
        fun j => m (buf + BitVec.ofNat 32 (first + j))
      rw [one, Nat.add_comm count 1, ← whole]
      refine received_congr fun j hj => ?_
      rw [Nat.add_assoc]

/-- The calls inside each other that a read makes, one for each sector. -/
def Nested (depth pos total d : Nat) : Prop := depth ≤ d ∧ d ≤ depth + (pos % 512 + total) / 512

/-- The stream reads the bytes of the disk into memory, and changes nothing else but its buffers. -/
theorem diskStreamReadAt_some {drive : Drive} (ready : drive.Ready) (disk : Word) (stray : Int → Byte)
    {bufs : Nat → Word} {pos total : Nat} (fits : pos + total ≤ 2 ^ 31) {out : Word} (depth : Nat) (s : Io)
    (apart : ∀ d, Nested depth pos total d → ∀ i < 512, ∀ j < total,
      bufs d + BitVec.ofNat 32 i ≠ out + BitVec.ofNat 32 j) :
    ∃ s', diskStreamReadAt drive disk disk bufs depth ⟨pos⟩ out total s =
        some (0, ⟨int32 (pos + total)⟩, s') ∧
      (∀ j < total, s'.mem (out + BitVec.ofNat 32 j) = diskByte (diskOf drive stray) (pos + j)) ∧
      ∀ y, (∀ d, Nested depth pos total d → 512 ≤ (y - bufs d).toNat) → total ≤ (y - out).toNat →
        s'.mem y = s.mem y := by
  induction total using Nat.strong_induction_on generalizing pos out depth s with
  | _ total ih =>
      have sector : (pos : Int).tdiv diskSectorSize = (pos / 512 : Nat) := rfl
      have offset : (pos : Int).tmod diskSectorSize = (pos % 512 : Nat) := rfl
      have size : diskSectorSize = 512 := rfl
      have first : Nested depth pos total depth := ⟨le_rfl, Nat.le_add_right _ _⟩
      obtain ⟨s₁, block, bytes, rest⟩ :=
        diskReadBlockAt_one ready disk (BitVec.ofNat 32 (pos / 512)) (bufs depth) s stray
      -- What a copy of the rest of the sector brings.
      have copied : ∀ count, pos % 512 + count ≤ 512 → ∀ j < count,
          s₁.mem (bufs depth + BitVec.ofNat 32 (pos % 512 + j)) = diskByte (diskOf drive stray) (pos + j) := by
        intro count inside j before
        rw [bytes _ (by omega), diskByte, show (pos + j) / 512 = pos / 512 by omega,
          show (pos + j) % 512 = pos % 512 + j by omega]
      rw [diskStreamReadAt]
      simp only [sector, offset, BitVec.ofInt_natCast, block, lt_irrefl, if_false]
      split
      case isTrue crosses =>
        set count := 512 - pos % 512 with count_def
        have counted : (diskSectorSize - ((pos % 512 : Nat) : Int)).toNat = count := by omega
        have next : int32 (pos + (diskSectorSize - (pos % 512 : Nat))) = ((pos + count : Nat) : Int) := by
          rw [int32_of_mem] <;> omega
        have left : (total : Int) - (diskSectorSize - (pos % 512 : Nat)) = ((total - count : Nat) : Int) := by
          omega
        have address : ∀ j, out + BitVec.ofNat 32 count + BitVec.ofNat 32 j =
            out + BitVec.ofNat 32 (count + j) := by
          intro j
          bv_omega
        have deeper : ∀ d, Nested (depth + 1) (pos + count) (total - count) d → Nested depth pos total d := by
          intro d nested
          unfold Nested at nested ⊢
          omega
        have apart' : ∀ d, Nested (depth + 1) (pos + count) (total - count) d → ∀ i < 512, ∀ j < total - count,
            bufs d + BitVec.ofNat 32 i ≠ out + BitVec.ofNat 32 count + BitVec.ofNat 32 j := by
          intro d nested i hi j hj
          rw [address]
          exact apart d (deeper d nested) i hi (count + j) (by omega)
        have fits' : pos + count + (total - count) ≤ 2 ^ 31 := by omega
        obtain ⟨s', run, read, kept⟩ := ih (total - count) (by omega) fits' (depth + 1)
          { s₁ with mem := copyOutAt (bufs depth) count (pos % 512 : Nat) out s₁.mem } apart'
        have here : ∀ i < 512, ∀ j < count, bufs depth + BitVec.ofNat 32 i ≠ out + BitVec.ofNat 32 j :=
          fun i hi j hj => apart depth first i hi j (by omega)
        have copy := copyOutAt_eq (show pos % 512 + count ≤ 512 by omega) s₁.mem here
        simp only [copy] at kept
        rw [counted, next, left, run]
        refine ⟨s', ?_, fun j before => ?_, fun y outside above => ?_⟩
        · have total' : ((pos + count : Nat) : Int) + ((total - count : Nat) : Int) = pos + total := by omega
          simp only [lt_irrefl, if_false, total']
        · rcases Nat.lt_or_ge j count with now | later
          · have here : (out + BitVec.ofNat 32 j - out).toNat = j := by bv_omega
            rw [kept, received, here, if_pos now]
            · exact copied count (by omega) j now
            · intro d nested
              by_contra near
              exact apart d (deeper d nested) (out + BitVec.ofNat 32 j - bufs d).toNat (by omega) j before
                (by bv_omega)
            · bv_omega
          · have place := read (j - count) (by omega)
            rw [address, show count + (j - count) = j by omega, show pos + count + (j - count) = pos + j by omega]
              at place
            exact place
        · rw [kept y (fun d nested => outside d (deeper d nested)) (by bv_omega), received, if_neg (by omega)]
          exact rest y (outside depth first)
      case isFalse within =>
        have copy := copyOutAt_eq (show pos % 512 + total ≤ 512 by omega) s₁.mem (apart depth first)
        refine ⟨_, rfl, fun j before => ?_, fun y outside above => ?_⟩
        · have here : (out + BitVec.ofNat 32 j - out).toNat = j := by bv_omega
          simp only [Int.toNat_natCast]
          rw [copy, received, here, if_pos before]
          exact copied total (by omega) j before
        · simp only [Int.toNat_natCast]
          rw [copy, received, if_neg (by omega)]
          exact rest y (outside depth first)

/-- The stream as it is modelled above the driver: the same result and the same position, its
    bytes at `out`, and the rest of memory but the buffers as it was. The state that the drive was
    left in does not matter. -/
theorem diskStreamReadAt_refines {drive : Drive} (ready : drive.Ready) (disk : Word) (stray : Int → Byte)
    {bufs : Nat → Word} {pos total : Nat} (fits : pos + total ≤ 2 ^ 31) {out : Word} (s : Io)
    (apart : ∀ d, Nested 0 pos total d → ∀ i < 512, ∀ j < total,
      bufs d + BitVec.ofNat 32 i ≠ out + BitVec.ofNat 32 j) :
    let read := diskStreamRead (diskOf drive stray) ⟨pos⟩ total
    ∃ s', diskStreamReadAt drive disk disk bufs 0 ⟨pos⟩ out total s = some (read.1, read.2.1, s') ∧
      (∀ j c, read.2.2[j]? = some c → s'.mem (out + BitVec.ofNat 32 j) = c) ∧
      ∀ y, (∀ d, Nested 0 pos total d → 512 ≤ (y - bufs d).toNat) → total ≤ (y - out).toNat →
        s'.mem y = s.mem y := by
  intro read
  obtain ⟨s', run, bytes, kept⟩ := diskStreamReadAt_some ready disk stray fits 0 s apart
  have flat : read = (0, ⟨int32 (pos + total)⟩, diskBytes (diskOf drive stray) pos total) :=
    diskStreamRead_eq _ pos total fits
  rw [flat]
  refine ⟨s', run, fun j c found => ?_, kept⟩
  have inside : j < total := by simpa [diskBytes] using (List.getElem?_eq_some_iff.mp found).1
  rw [bytes j inside]
  simpa [diskBytes, inside] using found

/-- A read over the end of a sector, with the buffers of two calls on the stack. -/
theorem diskStreamReadAt_two_sectors :
    ∃ s', diskStreamReadAt (promptDrive fun sector _ => BitVec.ofNat 8 sector) 0x120000 0x120000
        (fun d => 0x5FE000 - 0x240 * BitVec.ofNat 32 d) 0 ⟨((510 : Nat) : Int)⟩ 0x1001000 ((4 : Nat) : Int)
        ⟨0, ⟨1, 2, 3, 4, 5, 6, 7, 8⟩, 0⟩ = some (0, ⟨514⟩, s') ∧
      s'.mem 0x1001001 = 0 ∧ s'.mem 0x1001002 = 1 := by
  have apart : ∀ d, Nested 0 510 4 d → ∀ i < 512, ∀ j < 4,
      (0x5FE000 - 0x240 * BitVec.ofNat 32 d : Word) + BitVec.ofNat 32 i ≠ 0x1001000 + BitVec.ofNat 32 j := by
    intro d nested i hi j hj
    unfold Nested at nested
    have few : d < 2 := by omega
    interval_cases d <;> bv_omega
  obtain ⟨s', run, bytes, -⟩ := diskStreamReadAt_refines
    (promptDrive_ready fun sector _ => BitVec.ofNat 8 sector) 0x120000 (fun _ => 0) (by decide)
    ⟨0, ⟨1, 2, 3, 4, 5, 6, 7, 8⟩, 0⟩ apart
  rw [diskStreamRead_eq _ 510 4 (by decide)] at run bytes
  exact ⟨s', run, bytes 1 0 rfl, bytes 2 1 rfl⟩

end ConiferOS.Fs
