import ConiferOS.Config
import ConiferOS.Lib.ByteMemory

/-! # Segment descriptors

`gdt.c` writes the descriptors of the GDT in the form the processor reads: base and limit are
scattered over eight bytes, and a limit of more than 20 bits is counted in pages. The
processor's reading is `decode`; it does not look at what the eight bytes held before.
-/

namespace ConiferOS.Gdt

/-- Base and limit are in bytes; `type` is the access byte. -/
structure SegmentDescriptor where
  base : Word
  limit : Word
  type : Byte
  deriving DecidableEq

def max20Bits : Word := 1048575
def highFlagsByte : Nat := 6
def sizeofSegmentDescriptorRaw : Nat := 8

def areFirst12BitsOne (val : Word) : Bool := val &&& 0xFFF = 0xFFF

def convertToPageGranularity (val : Word) : Word := val >>> 12

/-- A `uint8_t` that is given a `uint32_t`. -/
def byte (val : Word) : Byte := val.setWidth 8

/-- The memory from the descriptor at `target` on; `none` if the code panics. -/
def encodeSegmentDescriptor (raw : Nat → Byte) (target : Nat) (source : SegmentDescriptor) :
    Option (Nat → Byte) :=
  if max20Bits < source.limit ∧ !areFirst12BitsOne source.limit then none
  else
    let raw := Function.update raw (target + highFlagsByte) 0x40
    let (limit, raw) :=
      if max20Bits < source.limit then
        (convertToPageGranularity source.limit, Function.update raw (target + highFlagsByte) 0xC0)
      else (source.limit, raw)
    let raw := Function.update raw target (byte (limit &&& 0xFF))
    let raw := Function.update raw (target + 1) (byte (limit >>> 8 &&& 0xFF))
    let raw := Function.update raw (target + 6) (raw (target + 6) ||| byte (limit >>> 16 &&& 0x0F))
    let raw := Function.update raw (target + 2) (byte (source.base &&& 0xFF))
    let raw := Function.update raw (target + 3) (byte (source.base >>> 8 &&& 0xFF))
    let raw := Function.update raw (target + 4) (byte (source.base >>> 16 &&& 0xFF))
    let raw := Function.update raw (target + 7) (byte (source.base >>> 24 &&& 0xFF))
    some (Function.update raw (target + 5) source.type)

/-- The loop from entry `i` on. -/
def encodeFrom (raw : Nat → Byte) (i : Nat) : (desc : List SegmentDescriptor) → Option (Nat → Byte)
  | [] => some raw
  | source :: desc =>
      match encodeSegmentDescriptor raw (sizeofSegmentDescriptorRaw * i) source with
      | none => none
      | some raw => encodeFrom raw (i + 1) desc

def segmentDescriptorToRaw (raw : Nat → Byte) (desc : List SegmentDescriptor) : Option (Nat → Byte) :=
  encodeFrom raw 0 desc

/-! ## The processor's reading -/

/-- The `G` bit. -/
def granular (raw : Nat → Byte) (target : Nat) : Bool := (raw (target + 6)).getLsbD 7

/-- The `D/B` bit. -/
def defaultBig (raw : Nat → Byte) (target : Nat) : Bool := (raw (target + 6)).getLsbD 6

def limitField (raw : Nat → Byte) (target : Nat) : BitVec 20 :=
  (raw (target + 6)).extractLsb' 0 4 ++ raw (target + 1) ++ raw target

def decode (raw : Nat → Byte) (target : Nat) : SegmentDescriptor where
  base := raw (target + 7) ++ raw (target + 4) ++ raw (target + 3) ++ raw (target + 2)
  limit :=
    if granular raw target then (limitField raw target).setWidth 32 * 4096 + 4095
    else (limitField raw target).setWidth 32
  type := raw (target + 5)

/-- A limit of more than 20 bits has to end at the end of a page. -/
def SegmentDescriptor.Unencodable (source : SegmentDescriptor) : Prop :=
  0xFFFFF < source.limit ∧ source.limit &&& 0xFFF ≠ 0xFFF

/-! ## The fields -/

section Fields

variable (v : Word)

theorem byte_shift (k : Nat) : byte (v >>> k &&& 0xFF) = v.extractLsb' k 8 := by
  apply BitVec.eq_of_getLsbD_eq
  intro i inside
  have mask : (255#8).getLsbD i = true := by
    revert i
    decide
  simp [byte, inside]
  grind

theorem byte_low : byte (v &&& 0xFF) = v.extractLsb' 0 8 := byte_shift v 0

theorem field_of_bytes :
    v.extractLsb' 16 4 ++ v.extractLsb' 8 8 ++ v.extractLsb' 0 8 = v.extractLsb' 0 20 := by
  simp only [BitVec.extractLsb'_append_extractLsb'_eq_extractLsb']

/-- The flags are in the other half of the byte. -/
theorem nibble_of_flags {flags : Byte} (clear : flags.extractLsb' 0 4 = 0) :
    (flags ||| byte (v >>> 16 &&& 0x0F)).extractLsb' 0 4 = v.extractLsb' 16 4 := by
  apply BitVec.eq_of_getLsbD_eq
  intro i inside
  have mask : (15#8).getLsbD i = true := by
    revert i
    decide
  have clear : flags.getLsbD i = false := by
    have bit := congrArg (BitVec.getLsbD · i) clear
    simpa [inside] using bit
  simp [byte, inside]
  grind

theorem limit_of_bytes (small : ¬ max20Bits < v) : (v.extractLsb' 0 20).setWidth 32 = v := by
  have field : (v.extractLsb' 0 20).toNat = v.toNat % 2 ^ 20 := BitVec.extractLsb'_toNat ..
  simp only [max20Bits] at small
  bv_omega

/-- The limit ends the last page that is counted. -/
theorem limit_of_pages (ones : v &&& 0xFFF = 0xFFF) :
    ((convertToPageGranularity v).extractLsb' 0 20).setWidth 32 * 4096 + 4095 = v := by
  have ends : v.toNat % 4096 = 4095 := by
    have ones := congrArg BitVec.toNat ones
    rw [BitVec.toNat_and] at ones
    exact (Nat.and_two_pow_sub_one_eq_mod v.toNat 12).symm.trans ones
  have pages : (convertToPageGranularity v).toNat = v.toNat / 4096 := by
    rw [convertToPageGranularity, BitVec.toNat_ushiftRight, Nat.shiftRight_eq_div_pow]
  have field : ((convertToPageGranularity v).extractLsb' 0 20).toNat = v.toNat / 4096 := by
    rw [BitVec.extractLsb'_toNat, pages, Nat.shiftRight_zero, Nat.mod_eq_of_lt]
    have inside := v.isLt
    omega
  bv_omega

end Fields

/-! ## One descriptor -/

section One

variable (raw : Nat → Byte) (target : Nat) {source : SegmentDescriptor}

theorem panics_iff :
    (max20Bits < source.limit ∧ !areFirst12BitsOne source.limit) ↔ source.Unencodable := by
  simp [SegmentDescriptor.Unencodable, areFirst12BitsOne, max20Bits]

theorem encodeSegmentDescriptor_panics (bad : source.Unencodable) :
    encodeSegmentDescriptor raw target source = none :=
  if_pos (panics_iff.mpr bad)

/-- The eight bytes for a limit as it is stored, and the flags that go with it. -/
structure Written (raw : Nat → Byte) (target : Nat) (source : SegmentDescriptor) (limit : Word)
    (flags : Byte) : Prop where
  limitLow : raw target = byte (limit &&& 0xFF)
  limitMid : raw (target + 1) = byte (limit >>> 8 &&& 0xFF)
  baseLow : raw (target + 2) = byte (source.base &&& 0xFF)
  baseMid : raw (target + 3) = byte (source.base >>> 8 &&& 0xFF)
  baseHigh : raw (target + 4) = byte (source.base >>> 16 &&& 0xFF)
  access : raw (target + 5) = source.type
  highFlags : raw (target + 6) = flags ||| byte (limit >>> 16 &&& 0x0F)
  baseTop : raw (target + 7) = byte (source.base >>> 24 &&& 0xFF)

namespace Written

variable {raw target} {limit : Word} {flags : Byte}

theorem base (written : Written raw target source limit flags) :
    (decode raw target).base = source.base := by
  rw [decode, written.baseTop, written.baseHigh, written.baseMid, written.baseLow]
  simp only [byte_shift]
  rw [byte_low, Lib.Mem.bytes_append]

theorem limitField_eq (written : Written raw target source limit flags)
    (clear : flags.extractLsb' 0 4 = 0) : limitField raw target = limit.extractLsb' 0 20 := by
  rw [limitField, written.highFlags, written.limitMid, written.limitLow, nibble_of_flags limit clear,
    byte_shift, byte_low, field_of_bytes]

theorem granular_eq (written : Written raw target source limit flags) :
    granular raw target = flags.getLsbD 7 := by
  simp [granular, written.highFlags, byte]

theorem defaultBig_eq (written : Written raw target source limit flags) :
    defaultBig raw target = flags.getLsbD 6 := by
  simp [defaultBig, written.highFlags, byte]

/-- In bytes. -/
theorem decode_bytes (written : Written raw target source source.limit 0x40)
    (small : ¬ max20Bits < source.limit) : decode raw target = source := by
  have limit : (decode raw target).limit = source.limit := by
    simp [decode, written.granular_eq, written.limitField_eq (by decide), limit_of_bytes _ small]
  calc decode raw target = ⟨source.base, source.limit, source.type⟩ := by
        rw [← written.base, ← limit, ← written.access]; rfl

/-- In pages. -/
theorem decode_pages
    (written : Written raw target source (convertToPageGranularity source.limit) 0xC0)
    (ones : source.limit &&& 0xFFF = 0xFFF) : decode raw target = source := by
  have limit : (decode raw target).limit = source.limit := by
    rw [decode, written.granular_eq, written.limitField_eq (by decide), limit_of_pages _ ones]
    rfl
  calc decode raw target = ⟨source.base, source.limit, source.type⟩ := by
        rw [← written.base, ← limit, ← written.access]; rfl

end Written

/-- The bytes that are written, and no others. -/
theorem encodeSegmentDescriptor_written (good : ¬ source.Unencodable) :
    ∃ raw', encodeSegmentDescriptor raw target source = some raw' ∧
      (∀ j, j < target ∨ target + sizeofSegmentDescriptorRaw ≤ j → raw' j = raw j) ∧
      if max20Bits < source.limit then
        Written raw' target source (convertToPageGranularity source.limit) 0xC0
      else Written raw' target source source.limit 0x40 := by
  rw [encodeSegmentDescriptor, if_neg (panics_iff.not.mpr good)]
  by_cases large : max20Bits < source.limit
  · simp only [if_pos large]
    refine ⟨_, rfl, fun j outside => ?_, ?_⟩
    · rw [sizeofSegmentDescriptorRaw] at outside
      simp (disch := omega) only [highFlagsByte, Function.update_of_ne]
    · constructor <;> simp [highFlagsByte]
  · simp only [if_neg large]
    refine ⟨_, rfl, fun j outside => ?_, ?_⟩
    · rw [sizeofSegmentDescriptorRaw] at outside
      simp (disch := omega) only [highFlagsByte, Function.update_of_ne]
    · constructor <;> simp [highFlagsByte]

/-- A descriptor is read as it was written. -/
theorem encodeSegmentDescriptor_decodes (good : ¬ source.Unencodable) :
    ∃ raw', encodeSegmentDescriptor raw target source = some raw' ∧
      (∀ j, j < target ∨ target + sizeofSegmentDescriptorRaw ≤ j → raw' j = raw j) ∧
      decode raw' target = source ∧ defaultBig raw' target = true := by
  obtain ⟨raw', encoded, others, written⟩ := encodeSegmentDescriptor_written raw target good
  refine ⟨raw', encoded, others, ?_⟩
  split at written
  case isTrue large =>
    have ones : source.limit &&& 0xFFF = 0xFFF := by
      by_contra uneven
      exact good ⟨large, uneven⟩
    exact ⟨written.decode_pages ones, written.defaultBig_eq⟩
  case isFalse small => exact ⟨written.decode_bytes small, written.defaultBig_eq⟩

end One

/-! ## All descriptors -/

/-- Only the eight bytes of a descriptor are read. -/
theorem decode_congr {raw raw' : Nat → Byte} {target : Nat}
    (same : ∀ j, target ≤ j → j < target + sizeofSegmentDescriptorRaw → raw' j = raw j) :
    decode raw' target = decode raw target ∧ defaultBig raw' target = defaultBig raw target := by
  have bytes : ∀ k < 8, raw' (target + k) = raw (target + k) := by
    intro k inside
    exact same _ (Nat.le_add_right _ _) (Nat.add_lt_add_left inside _)
  have first : raw' target = raw target := bytes 0 (by decide)
  unfold decode granular limitField defaultBig
  rw [first, bytes 1 (by decide), bytes 2 (by decide), bytes 3 (by decide), bytes 4 (by decide),
    bytes 5 (by decide), bytes 6 (by decide), bytes 7 (by decide)]
  exact ⟨rfl, rfl⟩

theorem encodeFrom_eq_none_iff (raw : Nat → Byte) (i : Nat) (desc : List SegmentDescriptor) :
    encodeFrom raw i desc = none ↔ ∃ source ∈ desc, source.Unencodable := by
  induction desc generalizing raw i with
  | nil => simp [encodeFrom]
  | cons source desc ih =>
      by_cases bad : source.Unencodable
      · simp [encodeFrom, encodeSegmentDescriptor_panics _ _ bad, bad]
      · obtain ⟨raw', encoded, -⟩ := encodeSegmentDescriptor_decodes raw
          (sizeofSegmentDescriptorRaw * i) bad
        simp [encodeFrom, encoded, ih, bad]

/-- The descriptors behind the first one are written behind it. -/
theorem encodeFrom_decodes {raw raw' : Nat → Byte} {i : Nat} {desc : List SegmentDescriptor}
    (encoded : encodeFrom raw i desc = some raw') :
    (∀ j < sizeofSegmentDescriptorRaw * i, raw' j = raw j) ∧
      ∀ k source, desc[k]? = some source →
        decode raw' (sizeofSegmentDescriptorRaw * (i + k)) = source ∧
          defaultBig raw' (sizeofSegmentDescriptorRaw * (i + k)) = true := by
  induction desc generalizing raw i with
  | nil =>
      cases encoded
      exact ⟨fun _ _ => rfl, by simp⟩
  | cons first desc ih =>
      have good : ¬ first.Unencodable := by
        intro bad
        rw [encodeFrom, encodeSegmentDescriptor_panics _ _ bad] at encoded
        cases encoded
      obtain ⟨raw₁, here, others, decoded, big⟩ :=
        encodeSegmentDescriptor_decodes raw (sizeofSegmentDescriptorRaw * i) good
      rw [encodeFrom, here] at encoded
      obtain ⟨before, rest⟩ := ih encoded
      have next : sizeofSegmentDescriptorRaw * (i + 1) = sizeofSegmentDescriptorRaw * i + 8 := rfl
      rw [next] at before
      refine ⟨fun j bound => ?_, fun k source entry => ?_⟩
      · rw [before j (by omega), others j (.inl bound)]
      · cases k with
        | zero =>
            cases entry
            obtain ⟨same, sameBig⟩ := decode_congr fun j _ bound => before j bound
            rw [Nat.add_zero, same, sameBig]
            exact ⟨decoded, big⟩
        | succ k =>
            rw [← Nat.succ_add_eq_add_succ]
            exact rest k source entry

/-- The code panics exactly for a limit that cannot be stored; otherwise the processor reads
    every descriptor as it was given, whatever was in memory before. -/
theorem segment_descriptors_faithful (raw : Nat → Byte) (desc : List SegmentDescriptor) :
    (segmentDescriptorToRaw raw desc = none ↔
      ∃ source ∈ desc, 0xFFFFF < source.limit ∧ source.limit &&& 0xFFF ≠ 0xFFF) ∧
    ∀ raw', segmentDescriptorToRaw raw desc = some raw' → ∀ i source, desc[i]? = some source →
      decode raw' (sizeofSegmentDescriptorRaw * i) = source ∧
        defaultBig raw' (sizeofSegmentDescriptorRaw * i) = true := by
  refine ⟨encodeFrom_eq_none_iff raw 0 desc, fun raw' encoded i source entry => ?_⟩
  have decoded := (encodeFrom_decodes encoded).2 i source entry
  rwa [Nat.zero_add] at decoded

/-- The kernel's code segment. -/
def codeSegment : SegmentDescriptor := ⟨0, 0xFFFFFFFF, 0x9A⟩

theorem segment_descriptors_faithful_two :
    ∃ raw', segmentDescriptorToRaw (fun _ => 0xAA) [⟨0, 0, 0⟩, codeSegment] = some raw' ∧
      decode raw' 8 = codeSegment := by
  cases encoded : segmentDescriptorToRaw (fun _ => 0xAA) [⟨0, 0, 0⟩, codeSegment] with
  | none =>
      obtain ⟨panics, -⟩ := segment_descriptors_faithful (fun _ => 0xAA) [⟨0, 0, 0⟩, codeSegment]
      exact absurd (panics.mp encoded) (by decide)
  | some raw' =>
      obtain ⟨-, decodes⟩ := segment_descriptors_faithful (fun _ => 0xAA) [⟨0, 0, 0⟩, codeSegment]
      exact ⟨raw', rfl, (decodes raw' encoded 1 codeSegment rfl).1⟩

end ConiferOS.Gdt
