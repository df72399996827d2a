import ConiferOS.Lib.ByteMemory

/-! # Copying byte by byte

A loop copies bytes one after the other, and reads them through a view. Source and
destination may overlap: a byte that was overwritten is read as it was written. What the
loop reads is determined by memory before it.
-/

namespace ConiferOS.Lib.ForwardCopy

variable (view : BitVec 32 → BitVec 32) (m : Mem) (dest src : BitVec 32)

/-- The byte that is read in step `i`. -/
def seen (i : Nat) : BitVec 8 :=
  if _overwritten : (view (src + BitVec.ofNat 32 i) - dest).toNat < i then
    seen (view (src + BitVec.ofNat 32 i) - dest).toNat
  else m (view (src + BitVec.ofNat 32 i))
termination_by i

/-- Memory after `i` bytes. -/
def after (i : Nat) : Mem := fun x =>
  if (x - dest).toNat < i then seen view m dest src (x - dest).toNat else m x

theorem after_read (i : Nat) :
    after view m dest src i (view (src + BitVec.ofNat 32 i)) = seen view m dest src i := by
  rw [seen, after]
  split
  case isTrue => rfl
  case isFalse => rfl

theorem store8_after {i : Nat} (small : i < 2 ^ 32) :
    (after view m dest src i).store8 (dest + BitVec.ofNat 32 i) (seen view m dest src i) =
      after view m dest src (i + 1) := by
  funext x
  by_cases here : x = dest + BitVec.ofNat 32 i
  · have offset : (x - dest).toNat = i := by bv_omega
    simp only [Mem.store8, after, if_pos here, offset, Nat.lt_succ_self, if_true]
  · have other : (x - dest).toNat ≠ i := by bv_omega
    have same : (x - dest).toNat < i + 1 ↔ (x - dest).toNat < i := by omega
    simp only [Mem.store8, after, if_neg here, same]

variable {view m dest src}

theorem after_self {i j : Nat} (copied : j < i) (small : i ≤ 2 ^ 32) :
    after view m dest src i (dest + BitVec.ofNat 32 j) = seen view m dest src j := by
  have offset : (dest + BitVec.ofNat 32 j - dest).toNat = j := by bv_omega
  rw [after, offset, if_pos copied]

theorem after_of_le {i : Nat} {x : BitVec 32} (outside : i ≤ (x - dest).toNat) :
    after view m dest src i x = m x := if_neg (not_lt.mpr outside)

/-- A byte that no earlier step wrote is read as it was. -/
theorem seen_of_apart {i : Nat}
    (apart : ∀ j < i, view (src + BitVec.ofNat 32 i) ≠ dest + BitVec.ofNat 32 j) :
    seen view m dest src i = m (view (src + BitVec.ofNat 32 i)) := by
  rw [seen, dif_neg]
  intro overwritten
  exact apart _ overwritten (by bv_omega)

/-! ## Where a copy stops -/

/-- A copy of at most `n` bytes takes `length` of them: up to the first zero. -/
structure Stops (bytes : Nat → BitVec 8) (n length : Nat) : Prop where
  le : length ≤ n
  chars : ∀ i < length, bytes i ≠ 0
  zero : length < n → bytes length = 0

variable {bytes bytes' : Nat → BitVec 8} {n length length' : Nat}

theorem Stops.unique (stops : Stops bytes n length) (stops' : Stops bytes n length') :
    length = length' := by
  rcases Nat.lt_trichotomy length length' with less | same | more
  · exact absurd (stops.zero (by have := stops'.le; omega)) (stops'.chars length less)
  · exact same
  · exact absurd (stops'.zero (by have := stops.le; omega)) (stops.chars length' more)

/-- The bytes up to the stop are all that counts. -/
theorem Stops.congr (stops : Stops bytes n length)
    (same : ∀ i ≤ length, i < n → bytes' i = bytes i) : Stops bytes' n length where
  le := stops.le
  chars := fun i inside => by
    rw [same i inside.le (by have := stops.le; omega)]
    exact stops.chars i inside
  zero := fun short => by
    rw [same length le_rfl short]
    exact stops.zero short

theorem Stops.lt_iff (stops : Stops bytes n length) : length < n ↔ ∃ i < n, bytes i = 0 := by
  constructor
  · exact fun short => ⟨length, short, stops.zero short⟩
  · rintro ⟨i, inside, zero⟩
    by_contra full
    exact stops.chars i (by omega) zero

end ConiferOS.Lib.ForwardCopy
