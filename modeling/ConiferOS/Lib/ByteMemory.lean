import Mathlib

/-! # Byte-addressed memory with 32-bit addresses

Memory is a total map from addresses to bytes; multi-byte accesses are little
endian and addresses wrap. Whether two accesses interfere is decided by the
distance of their addresses, so the frame rules are stated with `(x - a).toNat`.
-/

namespace ConiferOS.Lib

abbrev Mem := BitVec 32 → BitVec 8

namespace Mem

def load16 (m : Mem) (a : BitVec 32) : BitVec 16 := m (a + 1) ++ m a

def load32 (m : Mem) (a : BitVec 32) : BitVec 32 := m (a + 3) ++ m (a + 2) ++ m (a + 1) ++ m a

def store8 (m : Mem) (a : BitVec 32) (v : BitVec 8) : Mem := fun x => if x = a then v else m x

def store32 (m : Mem) (a v : BitVec 32) : Mem := fun x =>
  if (x - a).toNat < 4 then v.extractLsb' (8 * (x - a).toNat) 8 else m x

/-- `n` bytes of value `v` from address `a` on. -/
def fill (m : Mem) (a : BitVec 32) (n : Nat) (v : BitVec 8) : Mem := fun x =>
  if (x - a).toNat < n then v else m x

/-- Bytes from address `a` on. -/
def place (m : Mem) (a : BitVec 32) (bytes : List (BitVec 8)) : Mem := fun x =>
  bytes.getD (x - a).toNat (m x)

theorem load16_congr {m m' : Mem} {a : BitVec 32}
    (same : ∀ x, (x - a).toNat < 2 → m x = m' x) : load16 m a = load16 m' a := by
  rw [load16, load16, same a (by simp), same (a + 1) (by bv_omega)]

theorem load32_congr {m m' : Mem} {a : BitVec 32}
    (same : ∀ x, (x - a).toNat < 4 → m x = m' x) : load32 m a = load32 m' a := by
  simp only [load32]
  rw [same a (by simp), same (a + 1) (by bv_omega), same (a + 2) (by bv_omega),
    same (a + 3) (by bv_omega)]

theorem store32_apply_of_le {m : Mem} {a v x : BitVec 32} (outside : 4 ≤ (x - a).toNat) :
    store32 m a v x = m x := if_neg (by omega)

theorem fill_apply_of_le {m : Mem} {a x : BitVec 32} {n : Nat} {v : BitVec 8}
    (outside : n ≤ (x - a).toNat) : fill m a n v x = m x := if_neg (by omega)

theorem place_apply (m : Mem) (a : BitVec 32) {bytes : List (BitVec 8)} (short : bytes.length ≤ 2 ^ 32)
    {k : Nat} (inside : k < bytes.length) : place m a bytes (a + BitVec.ofNat 32 k) = bytes[k] := by
  have distance : (a + BitVec.ofNat 32 k - a).toNat = k := by bv_omega
  rw [place, distance, List.getD_eq_getElem _ _ inside]

theorem bytes_append (v : BitVec 32) :
    v.extractLsb' 24 8 ++ v.extractLsb' 16 8 ++ v.extractLsb' 8 8 ++ v.extractLsb' 0 8 = v := by
  simp only [BitVec.extractLsb'_append_extractLsb'_eq_extractLsb', BitVec.extractLsb'_eq_self]

@[simp] theorem load32_store32_self (m : Mem) (a v : BitVec 32) : load32 (store32 m a v) a = v := by
  have h0 : (a - a).toNat = 0 := by bv_omega
  have h1 : (a + 1 - a).toNat = 1 := by bv_omega
  have h2 : (a + 2 - a).toNat = 2 := by bv_omega
  have h3 : (a + 3 - a).toNat = 3 := by bv_omega
  simp only [load32, store32, h0, h1, h2, h3]
  exact bytes_append v

/-- Two accesses of four bytes do not interfere when they are four apart both ways. -/
theorem load32_store32_apart {m : Mem} {a b v : BitVec 32} (after : 4 ≤ (b - a).toNat)
    (before : 4 ≤ (a - b).toNat) : load32 (store32 m a v) b = load32 m b := by
  apply load32_congr
  intro x near
  exact store32_apply_of_le (by bv_omega)

theorem load32_store32_aligned {m : Mem} {a b v : BitVec 32} (ha : a.toNat % 4 = 0)
    (hb : b.toNat % 4 = 0) (distinct : a ≠ b) : load32 (store32 m a v) b = load32 m b :=
  load32_store32_apart (by bv_omega) (by bv_omega)

theorem load32_fill_apart {m : Mem} {a b : BitVec 32} {n : Nat} {v : BitVec 8}
    (after : n ≤ (b - a).toNat) (before : 4 ≤ (a - b).toNat) :
    load32 (fill m a n v) b = load32 m b := by
  apply load32_congr
  intro x near
  exact fill_apply_of_le (by bv_omega)

end Mem

end ConiferOS.Lib
