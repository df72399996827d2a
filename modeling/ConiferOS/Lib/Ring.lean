import Mathlib.Data.List.Basic
import Mathlib.Data.Nat.ModEq
import Mathlib.Logic.Function.Basic

/-! # Rings of cells

A queue in `n` cells that are used in turn. A cell that holds nothing is blank, so the
queue can be told from the cells and the head alone; the tail is where the next element
goes. A full ring has its tail at its head, as an empty one has.
-/

namespace ConiferOS.Lib

/-- The cells from `head` on hold `pending`, and the others are blank. -/
structure Ring {α : Type*} (n : Nat) (blank : α) (cells : Nat → α) (head tail : Nat)
    (pending : List α) : Prop where
  head_lt : head < n
  tail_eq : tail = (head + pending.length) % n
  fits : pending.length ≤ n
  holds : ∀ i, ∀ inside : i < pending.length, cells ((head + i) % n) = pending[i]
  blanks : ∀ i, pending.length ≤ i → i < n → cells ((head + i) % n) = blank

namespace Ring

variable {α : Type*} {n : Nat} {blank : α} {cells : Nat → α} {head tail : Nat} {pending : List α}

theorem tail_lt (ring : Ring n blank cells head tail pending) : tail < n := by
  have positive : 0 < n := Nat.zero_lt_of_lt ring.head_lt
  rw [ring.tail_eq]
  exact Nat.mod_lt _ positive

/-- Within one round the cells are different. -/
theorem cell_inj {i j : Nat} (hi : i < n) (hj : j < n) (same : (head + i) % n = (head + j) % n) :
    i = j :=
  Nat.ModEq.eq_of_lt_of_lt (Nat.ModEq.add_left_cancel' head same) hi hj

theorem empty (n : Nat) (positive : 0 < n) (blank : α) : Ring n blank (fun _ => blank) 0 0 [] where
  head_lt := positive
  tail_eq := by simp
  fits := Nat.zero_le n
  holds := fun i inside => absurd inside (Nat.not_lt_zero i)
  blanks := fun _ _ _ => rfl

theorem push (ring : Ring n blank cells head tail pending) (room : pending.length < n) (c : α) :
    Ring n blank (Function.update cells tail c) head ((tail + 1) % n) (pending ++ [c]) where
  head_lt := ring.head_lt
  tail_eq := by
    rw [ring.tail_eq, List.length_append, List.length_singleton, ← Nat.add_assoc, Nat.mod_add_mod]
  fits := by
    rw [List.length_append, List.length_singleton]
    exact room
  holds := by
    intro i inside
    rw [List.length_append, List.length_singleton] at inside
    rw [ring.tail_eq]
    by_cases last : i = pending.length
    · subst last
      rw [Function.update_self, List.getElem_concat_length rfl]
    · have before : i < pending.length := by omega
      rw [Function.update_of_ne, ring.holds i before, List.getElem_append_left before]
      exact fun same => last (cell_inj (by omega) room same)
  blanks := by
    intro i behind inside
    rw [List.length_append, List.length_singleton] at behind
    rw [ring.tail_eq, Function.update_of_ne]
    · exact ring.blanks i (by omega) inside
    · intro same
      have := cell_inj inside room same
      omega

/-- An element is replaced where it is. -/
theorem set (ring : Ring n blank cells head tail pending) {i : Nat} (inside : i < pending.length)
    (c : α) :
    Ring n blank (Function.update cells ((head + i) % n) c) head tail (pending.set i c) where
  head_lt := ring.head_lt
  tail_eq := by rw [List.length_set, ring.tail_eq]
  fits := by rw [List.length_set]; exact ring.fits
  holds := by
    intro j jInside
    rw [List.length_set] at jInside
    have fits := ring.fits
    by_cases same : j = i
    · subst same
      rw [Function.update_self, List.getElem_set_self]
    · rw [Function.update_of_ne, ring.holds j jInside, List.getElem_set_ne (Ne.symm same)]
      exact fun cell => same (cell_inj (by omega) (by omega) cell)
  blanks := by
    intro j behind jInside
    rw [List.length_set] at behind
    have fits := ring.fits
    rw [Function.update_of_ne, ring.blanks j behind jInside]
    intro cell
    have := cell_inj jInside (by omega) cell
    omega

theorem front {c : α} (ring : Ring n blank cells head tail (c :: pending)) : cells head = c := by
  have first := ring.holds 0 (by simp)
  rwa [Nat.add_zero, Nat.mod_eq_of_lt ring.head_lt] at first

theorem front_of_empty (ring : Ring n blank cells head tail []) : cells head = blank := by
  have first := ring.blanks 0 le_rfl (Nat.zero_lt_of_lt ring.head_lt)
  rwa [Nat.add_zero, Nat.mod_eq_of_lt ring.head_lt] at first

theorem pop {c : α} (ring : Ring n blank cells head tail (c :: pending)) :
    Ring n blank (Function.update cells head blank) ((head + 1) % n) tail pending where
  head_lt := Nat.mod_lt _ (Nat.zero_lt_of_lt ring.head_lt)
  tail_eq := by
    rw [ring.tail_eq, List.length_cons, Nat.mod_add_mod, Nat.add_assoc, Nat.add_comm 1]
  fits := by
    have fits := ring.fits
    rw [List.length_cons] at fits
    omega
  holds := by
    intro i inside
    have fits := ring.fits
    have next := ring.holds (i + 1) (by simpa using inside)
    rw [List.length_cons] at fits
    rw [Nat.mod_add_mod, Nat.add_assoc, Nat.add_comm 1, Function.update_of_ne, next,
      List.getElem_cons_succ]
    intro same
    have first : (head + (i + 1)) % n = (head + 0) % n := by
      rw [same, Nat.add_zero, Nat.mod_eq_of_lt ring.head_lt]
    have := cell_inj (by omega) (by omega) first
    omega
  blanks := by
    intro i behind inside
    rw [Nat.mod_add_mod, Nat.add_assoc, Nat.add_comm 1]
    rcases Nat.lt_or_ge (i + 1) n with further | last
    · rw [Function.update_apply]
      split
      case isTrue => rfl
      case isFalse => exact ring.blanks (i + 1) (by simpa using behind) further
    · have round : (head + (i + 1)) % n = head := by
        rw [show i + 1 = n by omega, Nat.add_mod_right, Nat.mod_eq_of_lt ring.head_lt]
      rw [round, Function.update_self]

end Ring

end ConiferOS.Lib
