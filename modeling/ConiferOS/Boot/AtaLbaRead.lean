import ConiferOS.Config
import ConiferOS.Lib.ByteMemory

/-! # Loading the kernel

The boot loader reads the kernel from the disk in chunks of 255 sectors. A chunk already moves
`edi` behind its last byte, and leaves the last status of the drive in `eax`; the caller adds to
both as if they had been kept.
-/

namespace ConiferOS.Boot

open Lib

/-- The ports `0x1F2` to `0x1F7` of the drive. -/
inductive Port where
  | sectorCount
  | lbaLo
  | lbaMid
  | lbaHi
  | driveSelect
  | command

structure Ata where
  sectorCount : Byte
  lbaLo : Byte
  lbaMid : Byte
  lbaHi : Byte
  driveSelect : Byte
  /-- The first sector of the last read command, how many sectors it asked for, and how many
      words were delivered. -/
  sector : Nat
  count : Nat
  delivered : Nat

/-- 28 bits of address. -/
def Ata.lba (a : Ata) : Nat :=
  (a.driveSelect &&& 0x0F).toNat * 2 ^ 24 + a.lbaHi.toNat * 2 ^ 16 + a.lbaMid.toNat * 2 ^ 8 + a.lbaLo.toNat

def Ata.out (a : Ata) (v : Byte) : Port → Ata
  | .sectorCount => { a with sectorCount := v }
  | .lbaLo => { a with lbaLo := v }
  | .lbaMid => { a with lbaMid := v }
  | .lbaHi => { a with lbaHi := v }
  | .driveSelect => { a with driveSelect := v }
  | .command =>
      if v = 0x20 then { a with sector := a.lba, count := a.sectorCount.toNat, delivered := 0 } else a

/-- What the drive has and how it answers: the bytes of each sector, and what the status register
    shows each time it is waited for. -/
structure Drive where
  disk : (sector offset : Nat) → Byte
  polls : (wait : Nat) → List Byte

/-- The data of a read command, byte by byte. -/
def Ata.byte (a : Ata) (drive : Drive) (i : Nat) : Byte :=
  if i < 512 * a.count then drive.disk (a.sector + i / 512) (i % 512) else 0xFF

/-- The registers that the routines use. What they push and pop again is outside of the memory
    that is written. -/
structure Loader where
  eax : Word
  ebx : Word
  ecx : Word
  edi : Word
  mem : Mem
  ata : Ata
  /-- How often the drive was waited for. -/
  waits : Nat

namespace Loader

def setAl (al : Byte) (s : Loader) : Loader := { s with eax := s.eax.extractLsb' 8 24 ++ al }

/-- `out dx, al` -/
def out (port : Port) (s : Loader) : Loader := { s with ata := s.ata.out (s.eax.setWidth 8) port }

/-- A word from the data port, the low byte first. -/
def insw (drive : Drive) (s : Loader) : Loader :=
  let lo := s.ata.byte drive (2 * s.ata.delivered)
  let hi := s.ata.byte drive (2 * s.ata.delivered + 1)
  { s with
    mem := (s.mem.store8 s.edi lo).store8 (s.edi + 1) hi
    edi := s.edi + 2
    ata := { s.ata with delivered := s.ata.delivered + 1 } }

def repInsw (drive : Drive) : (count : Nat) → (s : Loader) → Loader
  | 0, s => s
  | count + 1, s => repInsw drive count (s.insw drive)

end Loader

/-- `none`: the drive has not become ready yet. -/
def waitForReadyDrive : (polls : List Byte) → Option Byte
  | [] => none
  | status :: polls => if status &&& 8 = 0 then waitForReadyDrive polls else some status

/-- The body of the inner loop; `ecx` is the word count in between and is restored. -/
def readSector (drive : Drive) (s : Loader) : Option Loader :=
  match waitForReadyDrive (drive.polls s.waits) with
  | none => none
  | some status => some (({ s.setAl status with waits := s.waits + 1 }).repInsw drive 256)

def readSectors (drive : Drive) : (count : Nat) → (s : Loader) → Option Loader
  | 0, s => some s
  | count + 1, s =>
      match readSector drive s with
      | none => none
      | some s => readSectors drive count { s with ecx := s.ecx - 1 }

/-- `loop` decrements `ecx` before it looks at it. -/
def loopCount (ecx : Word) : Nat := if ecx = 0 then 2 ^ 32 else ecx.toNat

def ataLbaReadInner (drive : Drive) (s : Loader) : Option Loader :=
  let s := { s with ebx := s.eax }
  let s := { s with eax := s.eax >>> 24 }
  let s := { s with eax := s.eax ||| 0xE0 }
  let s := s.out .driveSelect
  let s := s.setAl (s.ecx.setWidth 8)
  let s := s.out .sectorCount
  let s := { s with eax := s.ebx }
  let s := s.out .lbaLo
  let s := { s with eax := s.ebx >>> 8 }
  let s := s.out .lbaMid
  let s := { s with eax := s.ebx >>> 16 }
  let s := s.out .lbaHi
  let s := s.setAl 0x20
  let s := s.out .command
  readSectors drive (loopCount s.ecx) s

theorem slt_iff (ecx : Word) : ecx.slt 255 = true ↔ ecx.toNat < 255 ∨ 2 ^ 31 ≤ ecx.toNat := by
  have bound : (255 : Word).toInt = 255 := by decide
  have inside := ecx.isLt
  rw [BitVec.slt_eq_decide, decide_eq_true_eq, bound, BitVec.toInt_eq_toNat_cond]
  split <;> omega

/-- `.read_loop` of `ata_lba_read`; `jl` compares signed numbers. -/
def readLoop (drive : Drive) (s : Loader) : Option Loader :=
  if s.ecx = 0 then some s
  else if _few : s.ecx.slt 255 then ataLbaReadInner drive s
  else
    match ataLbaReadInner drive { s with ecx := 255 } with
    | none => none
    | some s' =>
        readLoop drive
          { s' with ecx := s.ecx - 255, edi := s'.edi + 512 * 255, eax := s'.eax + 255 }
termination_by s.ecx.toNat
decreasing_by
  rw [slt_iff] at _few
  bv_omega

/-- `ecx` is pushed at the start and popped at the end. -/
def ataLbaRead (drive : Drive) (s : Loader) : Option Loader :=
  (readLoop drive s).map fun s' => { s' with ecx := s.ecx }

/-! ## What is asked for -/

/-- Every wait ends. -/
def Drive.Ready (drive : Drive) : Prop := ∀ wait, ∃ status ∈ drive.polls wait, status &&& 8 ≠ 0

/-- The sectors are in a row, and nothing else was written. -/
structure Loaded (drive : Drive) (lba count : Nat) (edi : Word) (before after : Mem) : Prop where
  sectors : ∀ k < count, ∀ i < 512, after (edi + BitVec.ofNat 32 (512 * k + i)) = drive.disk (lba + k) i
  others : ∀ x, (∀ k < count, ∀ i < 512, x ≠ edi + BitVec.ofNat 32 (512 * k + i)) → after x = before x

/-- Whatever the drive holds, and whatever memory and the other registers held before. -/
def LoadsContiguously (lba count edi : Word) : Prop :=
  ∀ drive : Drive, drive.Ready → ∀ s : Loader, s.eax = lba → s.ecx = count → s.edi = edi →
    ∃ s', ataLbaRead drive s = some s' ∧ Loaded drive lba.toNat count.toNat edi s.mem s'.mem

/-! ## One sector after the other -/

/-- Memory with `n` bytes from `a` on. -/
def received (m : Mem) (a : Word) (n : Nat) (bytes : Nat → Byte) : Mem := fun x =>
  if (x - a).toNat < n then bytes (x - a).toNat else m x

theorem received_append (m : Mem) (a : Word) {n k : Nat} (fits : n + k ≤ 2 ^ 32) (bytes : Nat → Byte) :
    received (received m a n bytes) (a + BitVec.ofNat 32 n) k (fun i => bytes (n + i)) =
      received m a (n + k) bytes := by
  funext x
  simp only [received]
  by_cases first : (x - a).toNat < n
  · have outside : ¬ (x - (a + BitVec.ofNat 32 n)).toNat < k := by bv_omega
    rw [if_neg outside, if_pos first, if_pos (by omega)]
  · have offset : (x - (a + BitVec.ofNat 32 n)).toNat = (x - a).toNat - n := by bv_omega
    have place : n + ((x - a).toNat - n) = (x - a).toNat := by omega
    have same : (x - a).toNat - n < k ↔ (x - a).toNat < n + k := by omega
    simp only [offset, place, same, if_neg first]

theorem received_two (m : Mem) (a : Word) (bytes : Nat → Byte) :
    (m.store8 a (bytes 0)).store8 (a + 1) (bytes 1) = received m a 2 bytes := by
  funext x
  simp only [received, Mem.store8]
  by_cases second : x = a + 1
  · have offset : (x - a).toNat = 1 := by bv_omega
    simp [second]
  · by_cases first : x = a
    · simp [first]
    · have outside : ¬ (x - a).toNat < 2 := by bv_omega
      rw [if_neg second, if_neg first, if_neg outside]

/-- The words go to memory one behind the other. -/
theorem repInsw_eq (drive : Drive) {count : Nat} (fits : 2 * count ≤ 2 ^ 32) (s : Loader) :
    s.repInsw drive count =
      { s with
        mem := received s.mem s.edi (2 * count) fun i => s.ata.byte drive (2 * s.ata.delivered + i)
        edi := s.edi + BitVec.ofNat 32 (2 * count)
        ata := { s.ata with delivered := s.ata.delivered + count } } := by
  induction count generalizing s with
  | zero =>
      have none : received s.mem s.edi 0 (fun i => s.ata.byte drive (2 * s.ata.delivered + i)) =
          s.mem := rfl
      simp [Loader.repInsw, none]
  | succ count ih =>
      set bytes := fun i => s.ata.byte drive (2 * s.ata.delivered + i) with bytes_def
      have stored : (s.insw drive).mem = received s.mem s.edi 2 bytes := received_two s.mem s.edi bytes
      have later : (fun i => (s.insw drive).ata.byte drive (2 * (s.insw drive).ata.delivered + i)) =
          fun i => bytes (2 + i) := by
        funext i
        rw [bytes_def]
        show s.ata.byte drive (2 * (s.ata.delivered + 1) + i) = _
        congr 1
        omega
      have whole : received (received s.mem s.edi 2 bytes) (s.edi + 2) (2 * count)
          (fun i => bytes (2 + i)) = received s.mem s.edi (2 * (count + 1)) bytes := by
        rw [show 2 * (count + 1) = 2 + 2 * count by omega]
        exact received_append s.mem s.edi (by omega) bytes
      rw [Loader.repInsw, ih (by omega), stored, later]
      simp only [Loader.insw, whole, Loader.mk.injEq, Ata.mk.injEq, true_and, and_true]
      exact ⟨by bv_omega, by omega⟩

theorem waitForReadyDrive_some {polls : List Byte} (ready : ∃ status ∈ polls, status &&& 8 ≠ 0) :
    ∃ status, waitForReadyDrive polls = some status := by
  induction polls with
  | nil => simp at ready
  | cons first polls ih =>
      rw [waitForReadyDrive]
      split
      case isTrue busy =>
        obtain ⟨status, member, set⟩ := ready
        rcases List.mem_cons.mp member with rfl | later
        · exact absurd busy set
        · exact ih ⟨status, later, set⟩
      case isFalse => exact ⟨first, rfl⟩

/-- The drive goes on with its data. -/
def Ata.after (a : Ata) (sectors : Nat) : Ata := { a with delivered := a.delivered + 256 * sectors }

theorem readSector_some {drive : Drive} (ready : drive.Ready) (s : Loader) :
    ∃ s', readSector drive s = some s' ∧ s'.edi = s.edi + 512 ∧ s'.ata = s.ata.after 1 ∧
      s'.mem = received s.mem s.edi 512 fun i => s.ata.byte drive (2 * s.ata.delivered + i) := by
  obtain ⟨status, wait⟩ := waitForReadyDrive_some (ready s.waits)
  refine ⟨_, by rw [readSector, wait], ?_⟩
  rw [repInsw_eq drive (by norm_num)]
  exact ⟨rfl, rfl, rfl⟩

theorem readSectors_some {drive : Drive} (ready : drive.Ready) {count : Nat}
    (fits : 512 * count ≤ 2 ^ 32) (s : Loader) :
    ∃ s', readSectors drive count s = some s' ∧ s'.edi = s.edi + BitVec.ofNat 32 (512 * count) ∧
      s'.mem = received s.mem s.edi (512 * count) fun i => s.ata.byte drive (2 * s.ata.delivered + i) := by
  induction count generalizing s with
  | zero => exact ⟨s, rfl, by simp, rfl⟩
  | succ count ih =>
      obtain ⟨s₁, first, edi, ata, mem⟩ := readSector_some ready s
      obtain ⟨s', rest, edi', mem'⟩ := ih (by omega) { s₁ with ecx := s₁.ecx - 1 }
      refine ⟨s', by rw [readSectors, first]; exact rest, ?_, ?_⟩
      · rw [edi']
        simp only [edi]
        bv_omega
      · have later : (fun i => (s.ata.after 1).byte drive (2 * (s.ata.after 1).delivered + i)) =
            fun i => s.ata.byte drive (2 * s.ata.delivered + (512 + i)) := by
          funext i
          show s.ata.byte drive (2 * (s.ata.delivered + 256 * 1) + i) = _
          congr 1
          omega
        rw [mem']
        simp only [edi, ata, mem, later]
        rw [show 512 * (count + 1) = 512 + 512 * count by omega]
        exact received_append s.mem s.edi (by omega) _

/-! ## A chunk -/

/-- The address that a read command is given. -/
def commandLba (eax : Word) : Nat := eax.toNat % 2 ^ 28

/-- The bits that select the drive are not part of the address. -/
theorem driveSelect_nibble (eax : Word) :
    ((eax >>> 24 ||| 0xE0).setWidth 8 &&& 0x0F).toNat = eax.toNat / 2 ^ 24 % 16 := by
  have low : ∀ x : Nat, x &&& 15 = x % 2 ^ 4 := fun x => Nat.and_two_pow_sub_one_eq_mod x 4
  rw [BitVec.toNat_and, BitVec.toNat_setWidth, BitVec.toNat_or, BitVec.toNat_ushiftRight,
    Nat.shiftRight_eq_div_pow, show (0x0F : Byte).toNat = 15 from rfl, low,
    Nat.mod_mod_of_dvd _ (by decide : 2 ^ 4 ∣ 2 ^ 8), Nat.or_mod_two_pow,
    show (0xE0 : Word).toNat % 2 ^ 4 = 0 from rfl, Nat.or_zero]

/-- The drive as the command finds it. -/
def Ata.asked (a : Ata) (eax ecx : Word) : Ata :=
  ⟨ecx.setWidth 8, eax.setWidth 8, (eax >>> 8).setWidth 8, (eax >>> 16).setWidth 8,
    (eax >>> 24 ||| 0xE0).setWidth 8, a.sector, a.count, a.delivered⟩

theorem asked_lba (a : Ata) (eax ecx : Word) : (a.asked eax ecx).lba = commandLba eax := by
  have nibble := driveSelect_nibble eax
  have bytes : ∀ n, ((eax >>> n).setWidth 8).toNat = eax.toNat / 2 ^ n % 2 ^ 8 := by
    intro n
    rw [BitVec.toNat_setWidth, BitVec.toNat_ushiftRight, Nat.shiftRight_eq_div_pow]
  simp only [Ata.lba, Ata.asked, commandLba, nibble, bytes, BitVec.toNat_setWidth]
  omega

theorem setAl_low (high : BitVec 24) (al : Byte) : (high ++ al).setWidth 8 = al := by
  rw [BitVec.setWidth_append, dif_pos (by decide), BitVec.setWidth_eq]

/-- The command is for the address in `eax` and the count in `cl`. -/
theorem ataLbaReadInner_eq (drive : Drive) (s : Loader) :
    ataLbaReadInner drive s =
      readSectors drive (loopCount s.ecx)
        { s with
          eax := (s.eax >>> 16).extractLsb' 8 24 ++ (0x20 : Byte), ebx := s.eax
          ata := { s.ata.asked s.eax s.ecx with
            sector := commandLba s.eax, count := s.ecx.toNat % 2 ^ 8, delivered := 0 } } := by
  have lba := asked_lba s.ata s.eax s.ecx
  simp only [Ata.asked] at lba
  simp only [ataLbaReadInner, Loader.out, Loader.setAl, Ata.out, setAl_low, if_true, Ata.asked, lba,
    BitVec.toNat_setWidth]

theorem received_congr {m : Mem} {a : Word} {n : Nat} {bytes bytes' : Nat → Byte}
    (same : ∀ i < n, bytes i = bytes' i) : received m a n bytes = received m a n bytes' := by
  funext x
  simp only [received]
  split
  case isTrue inside => exact same _ inside
  case isFalse => rfl

/-- A chunk of at most 255 sectors. -/
theorem ataLbaReadInner_some {drive : Drive} (ready : drive.Ready) {s : Loader} (positive : 0 < s.ecx.toNat)
    (few : s.ecx.toNat ≤ 255) :
    ∃ s', ataLbaReadInner drive s = some s' ∧ s'.edi = s.edi + BitVec.ofNat 32 (512 * s.ecx.toNat) ∧
      s'.mem = received s.mem s.edi (512 * s.ecx.toNat) fun i =>
        drive.disk (commandLba s.eax + i / 512) (i % 512) := by
  have nonzero : s.ecx ≠ 0 := by bv_omega
  rw [ataLbaReadInner_eq, loopCount, if_neg nonzero]
  have fits : 512 * s.ecx.toNat ≤ 2 ^ 32 := by omega
  obtain ⟨s', run, edi, mem⟩ := readSectors_some ready fits _
  refine ⟨s', run, edi, mem.trans (received_congr fun i inside => ?_)⟩
  have count : s.ecx.toNat % 2 ^ 8 = s.ecx.toNat := Nat.mod_eq_of_lt (by omega)
  simp only [Ata.byte, count, Nat.mul_zero, Nat.zero_add, if_pos inside]

theorem ataLbaReadInner_full {drive : Drive} (ready : drive.Ready) (s : Loader) :
    ∃ s', ataLbaReadInner drive { s with ecx := 255 } = some s' ∧ s'.edi = s.edi + 512 * 255 ∧
      s'.mem = received s.mem s.edi (512 * 255) fun i =>
        drive.disk (commandLba s.eax + i / 512) (i % 512) := by
  have positive : 0 < (255 : Word).toNat := by decide
  have few : (255 : Word).toNat ≤ 255 := by decide
  exact ataLbaReadInner_some ready (s := { s with ecx := 255 }) positive few

theorem loaded_of_received {drive : Drive} {lba count : Nat} {edi : Word} {m : Mem}
    (fits : 512 * count ≤ 2 ^ 32) :
    Loaded drive lba count edi m
      (received m edi (512 * count) fun i => drive.disk (lba + i / 512) (i % 512)) where
  sectors := by
    intro k inside i inSector
    have offset : (edi + BitVec.ofNat 32 (512 * k + i) - edi).toNat = 512 * k + i := by bv_omega
    have sector : (512 * k + i) / 512 = k := by omega
    have place : (512 * k + i) % 512 = i := by omega
    rw [received, offset, if_pos (by omega), sector, place]
  others := by
    intro x outside
    refine if_neg fun inside => ?_
    refine outside ((x - edi).toNat / 512) (by omega) ((x - edi).toNat % 512) (Nat.mod_lt _ (by decide)) ?_
    rw [Nat.div_add_mod]
    bv_omega

/-! ## Chunk after chunk -/

theorem readLoop_zero (drive : Drive) {s : Loader} (done : s.ecx = 0) : readLoop drive s = some s := by
  rw [readLoop, if_pos done]

theorem readLoop_few (drive : Drive) {s : Loader} (positive : 0 < s.ecx.toNat) (few : s.ecx.toNat < 255) :
    readLoop drive s = ataLbaReadInner drive s := by
  have nonzero : s.ecx ≠ 0 := by bv_omega
  rw [readLoop, if_neg nonzero, dif_pos ((slt_iff s.ecx).mpr (.inl few))]

/-- After a full chunk both registers are moved once more. -/
theorem readLoop_many {drive : Drive} {s s' : Loader} (many : 255 ≤ s.ecx.toNat)
    (few : s.ecx.toNat < 2 ^ 31) (chunk : ataLbaReadInner drive { s with ecx := 255 } = some s') :
    ∃ next : Loader, readLoop drive s = readLoop drive next ∧ next.ecx = s.ecx - 255 ∧
      next.edi = s'.edi + 512 * 255 ∧ next.mem = s'.mem := by
  refine ⟨{ s' with ecx := s.ecx - 255, edi := s'.edi + 512 * 255, eax := s'.eax + 255 }, ?_, rfl, rfl, rfl⟩
  have nonzero : s.ecx ≠ 0 := by bv_omega
  have notLess : ¬ s.ecx.slt 255 = true := by
    rw [slt_iff]
    omega
  rw [readLoop, if_neg nonzero, dif_neg notLess, chunk]

/-- One chunk is loaded. -/
theorem readLoop_one {drive : Drive} (ready : drive.Ready) {s : Loader} (few : s.ecx.toNat ≤ 255)
    (inDisk : s.eax.toNat < 2 ^ 28) :
    ∃ s', readLoop drive s = some s' ∧ Loaded drive s.eax.toNat s.ecx.toNat s.edi s.mem s'.mem := by
  have command : commandLba s.eax = s.eax.toNat := Nat.mod_eq_of_lt inDisk
  have whole : ∀ m, m = received s.mem s.edi (512 * s.ecx.toNat) (fun i =>
      drive.disk (commandLba s.eax + i / 512) (i % 512)) →
      Loaded drive s.eax.toNat s.ecx.toNat s.edi s.mem m := by
    rintro m rfl
    rw [command]
    exact loaded_of_received (by omega)
  rcases Nat.lt_trichotomy s.ecx.toNat 255 with less | full | more
  · by_cases done : s.ecx = 0
    · refine ⟨s, readLoop_zero drive done, whole _ ?_⟩
      rw [done]
      rfl
    · have positive : 0 < s.ecx.toNat := by bv_omega
      obtain ⟨s', run, -, mem⟩ := ataLbaReadInner_some ready positive few
      exact ⟨s', (readLoop_few drive positive less).trans run, whole _ mem⟩
  · obtain ⟨s', run, -, mem⟩ := ataLbaReadInner_full ready s
    obtain ⟨next, loop, left, -, same⟩ := readLoop_many full.ge (by omega) run
    have last : next.ecx = 0 := by
      rw [left]
      bv_omega
    refine ⟨next, loop.trans (readLoop_zero drive last), whole _ ?_⟩
    rw [same, full]
    exact mem
  · omega

/-- Where chunk `j` goes. -/
def chunkStart (edi : Word) (j : Nat) : Word := edi + BitVec.ofNat 32 (512 * 510 * j)

theorem chunkStart_succ (edi : Word) (j : Nat) :
    chunkStart edi j + 512 * 255 + 512 * 255 = chunkStart edi (j + 1) := by
  simp only [chunkStart]
  bv_omega

/-- Behind the first 255 sectors there are 255 that no chunk reaches. -/
theorem gap_outside (edi : Word) {j : Nat} (chunks : j ≤ 2 ^ 23 / 255) :
    512 * 255 ≤ (edi + 512 * 255 - chunkStart edi j).toNat := by
  have cancel : edi + 512 * 255 - chunkStart edi j = 512 * 255 - BitVec.ofNat 32 (512 * 510 * j) := by
    rw [chunkStart]
    bv_omega
  have gap : (512 * 255 : Word).toNat = 130560 := by decide
  rw [cancel, BitVec.toNat_sub, BitVec.toNat_ofNat, gap]
  rcases Nat.eq_zero_or_pos j with rfl | positive
  · decide
  -- The destination goes round at most once, between the chunks 16448 and 16449.
  have offset : 512 * 510 * j % 2 ^ 32 = if j ≤ 16448 then 512 * 510 * j else 512 * 510 * j - 2 ^ 32 := by
    split
    case isTrue first => exact Nat.mod_eq_of_lt (by omega)
    case isFalse second => omega
  rw [offset]
  split
  · rw [Nat.mod_eq_of_lt (by omega)]
    omega
  · rw [Nat.mod_eq_of_lt (by omega)]
    omega

/-- No chunk touches the byte behind the first 255 sectors. -/
theorem readLoop_gap {drive : Drive} (ready : drive.Ready) (edi : Word) {s : Loader} {j : Nat}
    (small : s.ecx.toNat + 255 * j ≤ 2 ^ 23) (place : s.edi = chunkStart edi j) :
    ∃ s', readLoop drive s = some s' ∧ s'.mem (edi + 512 * 255) = s.mem (edi + 512 * 255) := by
  induction counted : s.ecx.toNat using Nat.strongRecOn generalizing s j with
  | _ left ih =>
      have outside : 512 * 255 ≤ (edi + 512 * 255 - s.edi).toNat := by
        rw [place]
        exact gap_outside edi (by omega)
      rcases Nat.lt_or_ge left 255 with few | many
      · by_cases done : s.ecx = 0
        · exact ⟨s, readLoop_zero drive done, rfl⟩
        · have positive : 0 < s.ecx.toNat := by bv_omega
          obtain ⟨s', run, -, mem⟩ := ataLbaReadInner_some ready positive (by omega)
          refine ⟨s', (readLoop_few drive positive (by omega)).trans run, ?_⟩
          rw [mem]
          exact if_neg (by omega)
      · obtain ⟨s₁, run, moved, mem⟩ := ataLbaReadInner_full ready s
        obtain ⟨next, loop, fewer, place', same⟩ := readLoop_many (by omega) (by omega) run
        rw [moved, place, chunkStart_succ] at place'
        have counted' : next.ecx.toNat = left - 255 := by
          rw [fewer]
          bv_omega
        have small' : next.ecx.toNat + 255 * (j + 1) ≤ 2 ^ 23 := by
          have total : next.ecx.toNat + 255 * (j + 1) = s.ecx.toNat + 255 * j := by
            rw [counted', counted, Nat.mul_succ, ← Nat.add_assoc, Nat.add_right_comm,
              Nat.sub_add_cancel many]
          exact total.le.trans small
        obtain ⟨s', rest, kept⟩ := ih (left - 255) (by omega) small' place' counted'
        refine ⟨s', loop.trans rest, kept.trans ?_⟩
        rw [same, mem]
        exact if_neg (by omega)

/-- A drive that is always ready. -/
def promptDrive (disk : (sector offset : Nat) → Byte) : Drive := ⟨disk, fun _ => [8]⟩

theorem promptDrive_ready (disk : (sector offset : Nat) → Byte) : (promptDrive disk).Ready :=
  fun _ => ⟨8, by simp [promptDrive], by decide⟩

/-- The call, with `0xFF` all over memory. -/
def called (lba count edi : Word) : Loader :=
  ⟨lba, 0, count, edi, fun _ => 0xFF, ⟨0, 0, 0, 0, 0, 0, 0, 0⟩, 0⟩

/-- The second chunk leaves a gap. -/
theorem not_loads_of_gap {lba count : Word} (edi : Word) (more : 255 < count.toNat)
    (small : count.toNat ≤ 2 ^ 23) : ¬ LoadsContiguously lba count edi := by
  intro loads
  have ready := promptDrive_ready fun _ _ => 0
  obtain ⟨s', run, loaded⟩ := loads _ ready (called lba count edi) rfl rfl rfl
  obtain ⟨s'', loop, kept⟩ := readLoop_gap ready edi (s := called lba count edi) (j := 0)
    (by simpa [called] using small) (by simp [called, chunkStart])
  rw [ataLbaRead, loop] at run
  obtain rfl := Option.some.inj run
  have wanted : s''.mem (edi + BitVec.ofNat 32 (512 * 255 + 0)) = 0 := loaded.sectors 255 more 0 (by decide)
  have found : s''.mem (edi + BitVec.ofNat 32 (512 * 255 + 0)) = 0xFF := kept
  exact absurd (found.symm.trans wanted) (by decide)

/-- More sectors than memory holds. -/
theorem not_loads_of_round {lba count : Word} (edi : Word) (more : 2 ^ 23 < count.toNat) :
    ¬ LoadsContiguously lba count edi := by
  intro loads
  have ready := promptDrive_ready fun sector _ => if sector = lba.toNat then 1 else 0
  obtain ⟨s', -, loaded⟩ := loads _ ready (called lba count edi) rfl rfl rfl
  have first := loaded.sectors 0 (by omega) 0 (by decide)
  have again := loaded.sectors (2 ^ 23) more 0 (by decide)
  have same : BitVec.ofNat 32 (512 * 2 ^ 23 + 0) = BitVec.ofNat 32 (512 * 0 + 0) := by decide
  rw [same, first] at again
  simp [promptDrive] at again

/-- The kernel is loaded contiguously exactly when it is not larger than one chunk. -/
theorem loads_contiguously_iff {lba count : Word} (inDisk : lba.toNat + count.toNat < 2 ^ 28) (edi : Word) :
    LoadsContiguously lba count edi ↔ count.toNat ≤ 255 := by
  constructor
  · intro loads
    by_contra more
    rcases Nat.lt_or_ge (2 ^ 23) count.toNat with round | small
    · exact not_loads_of_round edi round loads
    · exact not_loads_of_gap edi (by omega) small loads
  · rintro few drive ready s rfl rfl rfl
    obtain ⟨s', run, loaded⟩ := readLoop_one ready few (by omega)
    exact ⟨{ s' with ecx := s.ecx }, by rw [ataLbaRead, run]; rfl, loaded⟩

/-- A kernel of 100 sectors. -/
theorem loads_contiguously_small : LoadsContiguously 1 100 0x100000 :=
  (loads_contiguously_iff (by decide) 0x100000).mpr (by decide)

/-- The call of the boot loader itself: the byte at `0x100000 + 512 * 255`, the first one of sector
    256, is left as it was. -/
theorem boot_leaves_gap :
    (∀ drive : Drive, drive.Ready → ∃ s', ataLbaRead drive (called 1 4000 0x100000) = some s' ∧
        s'.mem 0x11FE00 = 0xFF) ∧
      ¬ LoadsContiguously 1 4000 0x100000 := by
  refine ⟨fun drive ready => ?_, not_loads_of_gap 0x100000 (by decide) (by decide)⟩
  obtain ⟨s', loop, kept⟩ := readLoop_gap ready 0x100000 (s := called 1 4000 0x100000) (j := 0)
    (by decide) (by decide)
  exact ⟨{ s' with ecx := 4000 }, by rw [ataLbaRead, loop]; rfl, kept⟩

end ConiferOS.Boot
