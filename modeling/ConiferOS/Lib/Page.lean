import Mathlib

/-! # Words as page numbers and offsets

A 32-bit word is a 20-bit page number and a 12-bit offset. A page-aligned word has
twelve free low bits, in which a table entry keeps its flags.
-/

namespace ConiferOS.Lib.Page

/-- The page a byte address lies on. -/
def number (a : BitVec 32) : BitVec 20 := a.extractLsb' 12 20

/-- The first byte address of a page. -/
def base (v : BitVec 20) : BitVec 32 := BitVec.ofNat 32 (v.toNat * 4096)

/-- The bits of a word above the page offset. -/
def frameMask : BitVec 32 := 0xfffff000

@[simp] theorem toNat_number (a : BitVec 32) : (number a).toNat = a.toNat / 4096 := by
  simp only [number, BitVec.extractLsb'_toNat, Nat.shiftRight_eq_div_pow]
  omega

@[simp] theorem toNat_base (v : BitVec 20) : (base v).toNat = v.toNat * 4096 := by
  rw [base, BitVec.toNat_ofNat]
  omega

theorem number_add {a : BitVec 32} (aligned : a.toNat % 4096 = 0) {i : Nat} (small : i < 4096) :
    number (a + BitVec.ofNat 32 i) = number a := by
  apply BitVec.eq_of_toNat_eq
  rw [toNat_number, toNat_number, BitVec.toNat_add, BitVec.toNat_ofNat]
  omega

/-- Addresses from an aligned one to the end of its page. -/
theorem number_eq_of_sub_lt {a x : BitVec 32} (aligned : a.toNat % 4096 = 0)
    (near : (x - a).toNat < 4096) : number x = number a := by
  have offset : a + BitVec.ofNat 32 (x - a).toNat = x := by bv_omega
  rw [← number_add aligned near, offset]

theorem base_number {a : BitVec 32} (aligned : a.toNat % 4096 = 0) : base (number a) = a := by
  apply BitVec.eq_of_toNat_eq
  rw [toNat_base, toNat_number]
  omega

theorem toNat_and_frameMask (a : BitVec 32) :
    (a &&& frameMask).toNat = a.toNat / 4096 * 4096 := by
  have bits : a &&& frameMask = a >>> 12 <<< 12 := by
    ext i hi
    simp only [frameMask, BitVec.getElem_and, BitVec.getElem_shiftLeft]
    interval_cases i <;> simp
  rw [bits]
  simp only [BitVec.toNat_shiftLeft, BitVec.toNat_ushiftRight, Nat.shiftLeft_eq,
    Nat.shiftRight_eq_div_pow]
  omega

/-- Flags below the page size take the place of the offset. -/
theorem toNat_or {a flags : BitVec 32} (aligned : a.toNat % 4096 = 0) (low : flags.toNat < 4096) :
    (a ||| flags).toNat = a.toNat + flags.toNat := by
  rw [BitVec.toNat_or, show a.toNat = 2 ^ 12 * (a.toNat / 4096) by omega]
  exact (Nat.two_pow_add_eq_or_of_lt (show flags.toNat < 2 ^ 12 by omega) _).symm

/-- They do not disturb the frame. -/
theorem or_and_frameMask {a flags : BitVec 32} (aligned : a.toNat % 4096 = 0)
    (low : flags.toNat < 4096) : (a ||| flags) &&& frameMask = a := by
  apply BitVec.eq_of_toNat_eq
  rw [toNat_and_frameMask, toNat_or aligned low]
  omega

end ConiferOS.Lib.Page
