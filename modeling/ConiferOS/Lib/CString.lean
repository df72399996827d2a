import ConiferOS.Lib.ByteMemory

/-! # Strings in byte memory

A string is a run of nonzero bytes with a zero behind it. It is read through a view,
which takes the addresses a program uses to addresses of memory.
-/

namespace ConiferOS.Lib

/-- The string at `a` seen through `view`. -/
inductive StringAt (m : Mem) (view : BitVec 32 → BitVec 32) :
    BitVec 32 → List (BitVec 8) → Prop where
  | nil : m (view a) = 0 → StringAt m view a []
  | cons : m (view a) = c → c ≠ 0 → StringAt m view (a + 1) s → StringAt m view a (c :: s)

namespace StringAt

variable {m m' : Mem} {view view' : BitVec 32 → BitVec 32} {a b : BitVec 32} {s t : List (BitVec 8)}

theorem next_address (a : BitVec 32) (i : Nat) :
    a + 1 + BitVec.ofNat 32 i = a + BitVec.ofNat 32 (i + 1) := by
  bv_omega

theorem address_succ (a : BitVec 32) (i : Nat) :
    a + BitVec.ofNat 32 i + 1 = a + BitVec.ofNat 32 (i + 1) := by
  bv_omega

/-- A string only depends on its bytes. -/
theorem congr (text : StringAt m view a s)
    (same : ∀ i ≤ s.length, m' (view' (b + BitVec.ofNat 32 i)) = m (view (a + BitVec.ofNat 32 i))) :
    StringAt m' view' b s := by
  induction text generalizing b with
  | nil zero =>
      have here := same 0 le_rfl
      simp only [BitVec.add_zero] at here
      exact .nil (here.trans zero)
  | cons char nonzero _ ih =>
      have here := same 0 (Nat.zero_le _)
      simp only [BitVec.add_zero] at here
      refine .cons (here.trans char) nonzero (ih fun i bound => ?_)
      rw [next_address, next_address]
      exact same (i + 1) (by simpa using bound)

theorem unique (text : StringAt m view a s) (other : StringAt m view a t) : s = t := by
  induction text generalizing t with
  | nil zero =>
      cases other with
      | nil => rfl
      | cons char nonzero => exact absurd (char.symm.trans zero) nonzero
  | cons char nonzero _ ih =>
      cases other with
      | nil zero => exact absurd (char.symm.trans zero) nonzero
      | cons char' _ rest => rw [← char, ← char', ih rest]

/-- A run of nonzero bytes before a string makes a longer one. -/
theorem append (chars : ∀ i, ∀ inside : i < s.length, m (view (a + BitVec.ofNat 32 i)) = s[i])
    (nonzero : ∀ c ∈ s, c ≠ 0) (rest : StringAt m view (a + BitVec.ofNat 32 s.length) t) :
    StringAt m view a (s ++ t) := by
  induction s generalizing a with
  | nil => simpa using rest
  | cons c s ih =>
      refine .cons ?_ (nonzero c List.mem_cons_self) (ih ?_ ?_ ?_)
      · have here := chars 0 (by simp)
        simpa using here
      · intro i inside
        rw [next_address]
        exact chars (i + 1) (by simpa using inside)
      · exact fun d member => nonzero d (List.mem_cons_of_mem c member)
      · rwa [next_address]

/-- What is behind the first characters. -/
theorem drop (text : StringAt m view a (s ++ t)) : StringAt m view (a + BitVec.ofNat 32 s.length) t := by
  induction s generalizing a with
  | nil => simpa using text
  | cons c s ih =>
      cases text with
      | cons char nonzero rest =>
          have behind := ih rest
          rwa [next_address] at behind

/-- A string from its bytes. -/
theorem of_bytes {bytes : Nat → BitVec 8} {n : Nat}
    (chars : ∀ i < n, m (view (a + BitVec.ofNat 32 i)) = bytes i) (nonzero : ∀ i < n, bytes i ≠ 0)
    (zero : m (view (a + BitVec.ofNat 32 n)) = 0) : StringAt m view a ((List.range n).map bytes) := by
  have text : StringAt m view a ((List.range n).map bytes ++ []) := by
    refine append ?_ ?_ ?_
    · intro i inside
      rw [List.length_map, List.length_range] at inside
      rw [chars i inside, List.getElem_map, List.getElem_range]
    · intro c member
      obtain ⟨i, inside, rfl⟩ := List.mem_map.mp member
      exact nonzero i (List.mem_range.mp inside)
    · rw [List.length_map, List.length_range]
      exact .nil zero
  rwa [List.append_nil] at text

theorem byte (text : StringAt m view a s) (i : Nat) (inside : i < s.length) :
    m (view (a + BitVec.ofNat 32 i)) = s[i] := by
  induction text generalizing i with
  | nil => exact absurd inside (Nat.not_lt_zero i)
  | cons char _ _ ih =>
      cases i with
      | zero => simpa using char
      | succ i =>
          rw [← next_address]
          exact ih i (by simpa using inside)

theorem nonzero (text : StringAt m view a s) : ∀ c ∈ s, c ≠ 0 := by
  induction text with
  | nil => simp
  | cons _ nonzero _ ih => simpa using ⟨nonzero, ih⟩

theorem terminator (text : StringAt m view a s) : m (view (a + BitVec.ofNat 32 s.length)) = 0 := by
  induction text with
  | nil zero => simpa using zero
  | cons _ _ _ ih => rwa [List.length_cons, ← next_address]

end StringAt

/-- `none` when the end of the string is not reached after `fuel` bytes. -/
def readString (m : Mem) : (fuel : Nat) → BitVec 32 → Option (List (BitVec 8))
  | 0, _ => none
  | fuel + 1, a => if m a = 0 then some [] else (readString m fuel (a + 1)).map (m a :: ·)

theorem StringAt.readString_eq {m : Mem} {a : BitVec 32} {s : List (BitVec 8)} (text : StringAt m id a s)
    {fuel : Nat} (enough : s.length < fuel) : readString m fuel a = some s := by
  induction s generalizing a fuel with
  | nil =>
      cases text with
      | nil zero =>
          obtain ⟨fuel, rfl⟩ := Nat.exists_eq_succ_of_ne_zero (Nat.ne_zero_of_lt enough)
          exact if_pos zero
  | cons c s ih =>
      cases text with
      | cons char nonzero rest =>
          obtain ⟨fuel, rfl⟩ := Nat.exists_eq_succ_of_ne_zero (Nat.ne_zero_of_lt enough)
          simp only [id] at char
          rw [readString, char, if_neg nonzero, ih rest (Nat.lt_of_succ_lt_succ enough)]
          rfl

end ConiferOS.Lib
