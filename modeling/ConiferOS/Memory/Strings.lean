import ConiferOS.Config
import ConiferOS.Lib.CString

/-! # Copying strings

The two copy loops of `string.c`. `strncpy` writes a zero behind the last byte it copied,
so it may write `n + 1` bytes. `strcpy` has no bound; the addresses it writes are kept in
a trace.
-/

namespace ConiferOS

open Lib

/-! ## `strncpy` -/

/-- The `for` loop with the store behind it; both addresses go through `view`. -/
def strncpyLoop (view : Word → Word) (dest src : Word) : (remaining i : Nat) → Mem → Mem
  | 0, i, m => m.store8 (view (dest + BitVec.ofNat 32 i)) 0
  | remaining + 1, i, m =>
      let c := m (view (src + BitVec.ofNat 32 i))
      if c = 0 then m.store8 (view (dest + BitVec.ofNat 32 i)) 0
      else strncpyLoop view dest src remaining (i + 1) (m.store8 (view (dest + BitVec.ofNat 32 i)) c)

def strncpy (view : Word → Word) (m : Mem) (dest src : Word) (n : Nat) : Mem :=
  strncpyLoop view dest src n 0 m

theorem store8_self (m : Mem) (a : Word) (v : Byte) : m.store8 a v a = v := if_pos rfl

theorem store8_of_ne {m : Mem} {a x : Word} (v : Byte) (apart : x ≠ a) : m.store8 a v x = m x :=
  if_neg apart

section Strncpy

variable {view : Word → Word} {dest src : Word} {n : Nat}

/-- The destination is seen where it is. -/
def Direct (view : Word → Word) (dest : Word) (n : Nat) : Prop :=
  ∀ i ≤ n, view (dest + BitVec.ofNat 32 i) = dest + BitVec.ofNat 32 i

end Strncpy

/-- These bytes from `a` on, and zeros elsewhere. -/
def memoryOf (a : Word) (bytes : List Byte) : Mem := fun x => bytes.getD (x - a).toNat 0

/-! ## `strcpy` -/

/-- Memory and the addresses that have been written. -/
structure Trace where
  mem : Mem
  written : List Word

def Trace.store8 (t : Trace) (a : Word) (v : Byte) : Trace := ⟨t.mem.store8 a v, a :: t.written⟩

def Trace.store32 (t : Trace) (a v : Word) : Trace :=
  ⟨t.mem.store32 a v, [a, a + 1, a + 2, a + 3] ++ t.written⟩

@[simp] theorem Trace.store32_mem (t : Trace) (a v : Word) :
    (t.store32 a v).mem = t.mem.store32 a v := rfl

theorem Trace.mem_written_store32 {t : Trace} {a v x : Word} :
    x ∈ (t.store32 a v).written ↔ (∃ b < 4, x = a + BitVec.ofNat 32 b) ∨ x ∈ t.written := by
  rw [store32, List.mem_append]
  refine or_congr_left ?_
  constructor
  · intro member
    simp only [List.mem_cons, List.not_mem_nil, or_false] at member
    obtain rfl | rfl | rfl | rfl := member
    exacts [⟨0, by decide, by simp⟩, ⟨1, by decide, rfl⟩, ⟨2, by decide, rfl⟩, ⟨3, by decide, rfl⟩]
  · rintro ⟨b, small, rfl⟩
    interval_cases b <;> simp

/-- `none` when the end of the source is not reached after `fuel` bytes. -/
def strcpy : (fuel : Nat) → Trace → (dest src : Word) → Option Trace
  | 0, _, _, _ => none
  | fuel + 1, t, dest, src =>
      let c := t.mem src
      if c = 0 then some (t.store8 dest 0) else strcpy fuel (t.store8 dest c) (dest + 1) (src + 1)

/-- Whatever it copies, `strcpy` writes its first byte, and forgets no write. -/
theorem strcpy_written {fuel : Nat} {t t' : Trace} {dest src : Word}
    (copied : strcpy fuel t dest src = some t') : dest ∈ t'.written ∧ t.written ⊆ t'.written := by
  induction fuel generalizing t dest src with
  | zero => cases copied
  | succ fuel ih =>
      rw [strcpy] at copied
      split at copied
      case isTrue =>
        cases copied
        exact ⟨List.mem_cons_self, List.subset_cons_self _ _⟩
      case isFalse =>
        have kept := (ih copied).2
        exact ⟨kept List.mem_cons_self, fun x member => kept (List.mem_cons_of_mem _ member)⟩

/-- What `strcpy` of a string leaves behind. -/
structure Copied (t t' : Trace) (dest : Word) (text : List Byte) : Prop where
  copy : StringAt t'.mem id dest text
  frame : ∀ x, (∀ j ≤ text.length, x ≠ dest + BitVec.ofNat 32 j) → t'.mem x = t.mem x
  written : ∀ x, x ∈ t'.written ↔
    x ∈ t.written ∨ ∃ j ≤ text.length, x = dest + BitVec.ofNat 32 j

theorem Copied.nil (t : Trace) (dest : Word) : Copied t (t.store8 dest 0) dest [] where
  copy := .nil (store8_self _ _ _)
  frame := by
    intro x outside
    have other := outside 0 le_rfl
    exact store8_of_ne 0 (by simpa using other)
  written := by
    intro x
    simp [Trace.store8, or_comm]

theorem Copied.cons {t t' : Trace} {dest : Word} {c : Byte} {text : List Byte}
    (small : (c :: text).length < 2 ^ 32) (nonzero : c ≠ 0)
    (rest : Copied (t.store8 dest c) t' (dest + 1) text) : Copied t t' dest (c :: text) where
  copy := by
    refine .cons ?_ nonzero rest.copy
    rw [id, rest.frame dest]
    · exact store8_self _ _ _
    · intro j bound
      rw [List.length_cons] at small
      bv_omega
  frame := by
    intro x outside
    rw [rest.frame x]
    · have here := outside 0 (Nat.zero_le _)
      exact store8_of_ne c (by simpa using here)
    · intro j bound
      rw [StringAt.next_address]
      exact outside (j + 1) (by simpa using bound)
  written := by
    intro x
    rw [rest.written x]
    constructor
    · rintro (old | ⟨j, bound, rfl⟩)
      · rcases List.mem_cons.mp old with rfl | older
        · exact .inr ⟨0, Nat.zero_le _, by simp⟩
        · exact .inl older
      · exact .inr ⟨j + 1, by simpa using bound, StringAt.next_address dest j⟩
    · rintro (old | ⟨j, bound, rfl⟩)
      · exact .inl (List.mem_cons_of_mem _ old)
      · cases j with
        | zero => exact .inl (by simp [Trace.store8])
        | succ j => exact .inr ⟨j, by simpa using bound, (StringAt.next_address dest j).symm⟩

theorem strcpy_text {text : List Byte} (small : text.length < 2 ^ 32) {fuel : Nat}
    (enough : text.length < fuel) {t : Trace} {dest src : Word}
    (source : StringAt t.mem id src text)
    (apart : ∀ k ≤ text.length, ∀ j ≤ text.length,
      src + BitVec.ofNat 32 k ≠ dest + BitVec.ofNat 32 j) :
    ∃ t', strcpy fuel t dest src = some t' ∧ Copied t t' dest text := by
  obtain ⟨fuel, rfl⟩ := Nat.exists_eq_succ_of_ne_zero (Nat.ne_zero_of_lt enough)
  induction text generalizing fuel t dest src with
  | nil =>
      cases source with
      | nil zero => exact ⟨t.store8 dest 0, if_pos zero, .nil t dest⟩
  | cons c text ih =>
      cases source with
      | cons char nonzero rest =>
          rw [List.length_cons] at small enough
          obtain ⟨fuel, rfl⟩ := Nat.exists_eq_succ_of_ne_zero (by omega : fuel ≠ 0)
          have kept : StringAt (t.store8 dest c).mem id (src + 1) text := by
            refine rest.congr fun k inside => store8_of_ne c ?_
            have other := apart (k + 1) (by simpa using inside) 0 (Nat.zero_le _)
            rwa [BitVec.add_zero, ← StringAt.next_address] at other
          have later : ∀ k ≤ text.length, ∀ j ≤ text.length,
              src + 1 + BitVec.ofNat 32 k ≠ dest + 1 + BitVec.ofNat 32 j := by
            intro k inside j bound
            rw [StringAt.next_address, StringAt.next_address]
            exact apart (k + 1) (by simpa using inside) (j + 1) (by simpa using bound)
          obtain ⟨t', copied, spec⟩ := ih (by omega) kept later fuel (by omega)
          refine ⟨t', ?_, spec.cons (by simpa using small) nonzero⟩
          rw [strcpy]
          simp only [id] at char
          rw [char, if_neg nonzero]
          exact copied

end ConiferOS
