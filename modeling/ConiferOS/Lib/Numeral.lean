import Mathlib

/-! # Decimal numerals

A numeral is a text of ASCII digits with a minus sign in front if the number is negative. It is
canonical: there are no leading zeros, and zero has no sign.
-/

namespace ConiferOS.Lib

namespace Numeral

def minus : BitVec 8 := 0x2D

def digit (d : Nat) : BitVec 8 := BitVec.ofNat 8 (48 + d)

def IsDigit (c : BitVec 8) : Prop := 48 ≤ c.toNat ∧ c.toNat ≤ 57

instance (c : BitVec 8) : Decidable (IsDigit c) := inferInstanceAs (Decidable (_ ∧ _))

/-- The first digit counts most. -/
def value (text : List (BitVec 8)) : Nat := text.foldl (fun n c => 10 * n + (c.toNat - 48)) 0

structure IsUnsigned (text : List (BitVec 8)) (n : Nat) : Prop where
  nonempty : text ≠ []
  digits : ∀ c ∈ text, IsDigit c
  canonical : text.head? = some (digit 0) → text = [digit 0]
  value_eq : value text = n

end Numeral

open Numeral

inductive IsNumeral : List (BitVec 8) → Int → Prop where
  | unsigned {text : List (BitVec 8)} {n : Nat} (spelled : IsUnsigned text n) : IsNumeral text n
  | negative {text : List (BitVec 8)} {n : Nat} (spelled : IsUnsigned text n) (positive : 0 < n) :
      IsNumeral (minus :: text) (-n)

theorem IsNumeral.mem {text : List (BitVec 8)} {n : Int} (spelled : IsNumeral text n) :
    ∀ c ∈ text, IsDigit c ∨ c = minus := by
  cases spelled with
  | unsigned spelled => exact fun c member => .inl (spelled.digits c member)
  | negative spelled positive =>
      intro c member
      rcases List.mem_cons.mp member with sign | member
      · exact .inr sign
      · exact .inl (spelled.digits c member)

theorem IsNumeral.nonzero {text : List (BitVec 8)} {n : Int} (spelled : IsNumeral text n) :
    ∀ c ∈ text, c ≠ 0 := by
  intro c member zero
  rcases spelled.mem c member with digit | sign
  · exact absurd (zero ▸ digit) (by decide)
  · exact absurd (zero.symm.trans sign) (by decide)

namespace Numeral

/-! ## The numeral of a number -/

def unsigned (n : Nat) : List (BitVec 8) :=
  if n = 0 then [digit 0] else ((Nat.digits 10 n).map digit).reverse

theorem toNat_digit {d : Nat} (small : d < 10) : (digit d).toNat = 48 + d := by
  rw [digit, BitVec.toNat_ofNat, Nat.mod_eq_of_lt (by omega)]

theorem isDigit_digit {d : Nat} (small : d < 10) : IsDigit (digit d) := by
  rw [IsDigit, toNat_digit small]
  omega

/-- The last digit of the text is the first one of the list. -/
theorem value_reverse {digits : List Nat} (small : ∀ d ∈ digits, d < 10) :
    value (digits.map digit).reverse = Nat.ofDigits 10 digits := by
  rw [value, List.foldl_reverse]
  induction digits with
  | nil => rfl
  | cons d digits ih =>
      obtain ⟨first, small⟩ := List.forall_mem_cons.mp small
      rw [List.map_cons, List.foldr_cons, ih small, toNat_digit first, Nat.ofDigits_cons]
      omega

theorem isUnsigned_unsigned (n : Nat) : IsUnsigned (unsigned n) n := by
  rw [unsigned]
  split
  case isTrue zero =>
    subst zero
    exact ⟨by simp, by decide, fun _ => rfl, rfl⟩
  case isFalse nonzero =>
    have small : ∀ d ∈ Nat.digits 10 n, d < 10 := fun d member => Nat.digits_lt_base (by decide) member
    have nonempty : Nat.digits 10 n ≠ [] := Nat.digits_ne_nil_iff_ne_zero.mpr nonzero
    refine ⟨by simpa using nonempty, ?_, fun leads => ?_, ?_⟩
    · intro c member
      obtain ⟨d, here, rfl⟩ := List.mem_map.mp (List.mem_reverse.mp member)
      exact isDigit_digit (small d here)
    · -- the digit that counts most is not zero
      have last := Nat.getLast_digit_ne_zero 10 nonzero
      rw [List.head?_reverse, List.getLast?_map, List.getLast?_eq_some_getLast nonempty] at leads
      have same : (digit ((Nat.digits 10 n).getLast nonempty)).toNat = (digit 0).toNat :=
        congrArg BitVec.toNat (Option.some.inj leads)
      rw [toNat_digit (small _ (List.getLast_mem nonempty)), toNat_digit (by decide)] at same
      omega
    · rw [value_reverse small, Nat.ofDigits_digits]

end Numeral

def numeral (n : Int) : List (BitVec 8) :=
  if n < 0 then minus :: unsigned n.natAbs else unsigned n.natAbs

theorem isNumeral_numeral (n : Int) : IsNumeral (numeral n) n := by
  have spelled := isUnsigned_unsigned n.natAbs
  rw [numeral]
  split
  case isTrue negative =>
    have number : n = -(n.natAbs : Int) := by omega
    nth_rewrite 2 [number]
    exact .negative spelled (by omega)
  case isFalse nonneg =>
    have number : n = n.natAbs := by omega
    nth_rewrite 2 [number]
    exact .unsigned spelled

end ConiferOS.Lib
