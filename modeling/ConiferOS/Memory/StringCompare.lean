import ConiferOS.Config

/-! # Comparing strings with and without case

`strnicmp` of `string.c` reads two strings at the same pace and stops at the first byte
that differs in more than case, at a zero in the first string, or after `n` bytes. `char`
is signed, so a letter with the high bit set comes before the others here and behind them in
`strncmp`, which compares unsigned bytes.
-/

namespace ConiferOS

def tolower (c1 : Byte) : Byte := if 65 ≤ c1.toInt ∧ c1.toInt ≤ 90 then c1 + 32 else c1

/-- The strings are what is found from the two pointers on. -/
def strnicmp (s1 s2 : Nat → Byte) : (n : Nat) → Int
  | 0 => 0
  | n + 1 =>
      if s1 0 ≠ s2 0 ∧ tolower (s1 0) ≠ tolower (s2 0) then
        (tolower (s1 0)).toInt - (tolower (s2 0)).toInt
      else if s1 0 = 0 then 0
      else strnicmp (fun i => s1 (i + 1)) (fun i => s2 (i + 1)) n

/-- What is found from the first character of a string on. -/
def cstr (s : List Byte) (i : Nat) : Byte := s.getD i 0

@[simp] theorem cstr_nil (i : Nat) : cstr [] i = 0 := rfl

@[simp] theorem cstr_cons_zero (c : Byte) (s : List Byte) : cstr (c :: s) 0 = c := rfl

@[simp] theorem cstr_cons_succ (c : Byte) (s : List Byte) (i : Nat) :
    cstr (c :: s) (i + 1) = cstr s i := rfl

/-- Zeros behind a string are not seen. -/
@[simp] theorem cstr_append_zeros (s : List Byte) (k : Nat) : cstr (s ++ List.replicate k 0) = cstr s := by
  funext i
  induction s generalizing i with
  | nil => simp [cstr, List.getD]
  | cons c s ih =>
      cases i with
      | zero => rfl
      | succ i => exact ih i

theorem tolower_eq_zero {c : Byte} : tolower c = 0 ↔ c = 0 := by
  revert c
  decide

section Step

variable {s1 s2 : Nat → Byte} (n : Nat)

theorem strnicmp_differ (differ : tolower (s1 0) ≠ tolower (s2 0)) : strnicmp s1 s2 (n + 1) ≠ 0 := by
  have bytes : s1 0 ≠ s2 0 := fun same => differ (congrArg tolower same)
  rw [strnicmp, if_pos ⟨bytes, differ⟩, Ne, Int.sub_eq_zero, BitVec.toInt_inj]
  exact differ

theorem strnicmp_end (ends : s1 0 = 0) (ends' : s2 0 = 0) : strnicmp s1 s2 (n + 1) = 0 := by
  rw [strnicmp, if_neg fun differ => differ.1 (ends.trans ends'.symm), if_pos ends]

theorem strnicmp_same (same : tolower (s1 0) = tolower (s2 0)) (nonzero : s1 0 ≠ 0) :
    strnicmp s1 s2 (n + 1) = strnicmp (fun i => s1 (i + 1)) (fun i => s2 (i + 1)) n := by
  rw [strnicmp, if_neg fun differ => differ.2 same, if_neg nonzero]

end Step

/-- The result is zero when the first `n` characters agree up to case. -/
theorem strnicmp_eq_zero_iff {a b : List Byte} (ha : 0 ∉ a) (hb : 0 ∉ b) (n : Nat) :
    strnicmp (cstr a) (cstr b) n = 0 ↔ (a.map tolower).take n = (b.map tolower).take n := by
  induction n generalizing a b with
  | zero => simp [strnicmp]
  | succ n ih =>
      cases a with
      | nil =>
          cases b with
          | nil => exact iff_of_true (strnicmp_end n rfl rfl) rfl
          | cons y b =>
              have differ : tolower 0 ≠ tolower y := by
                rw [tolower_eq_zero.mpr rfl, ne_comm, Ne, tolower_eq_zero]
                exact fun zero => hb (zero ▸ List.mem_cons_self)
              exact iff_of_false (strnicmp_differ n differ) (by simp)
      | cons x a =>
          have nonzero : x ≠ 0 := fun zero => ha (zero ▸ List.mem_cons_self)
          cases b with
          | nil =>
              have differ : tolower x ≠ tolower 0 := by
                rwa [tolower_eq_zero.mpr rfl, Ne, tolower_eq_zero]
              exact iff_of_false (strnicmp_differ n differ) (by simp)
          | cons y b =>
              have rest := ih (fun mem => ha (List.mem_cons_of_mem x mem))
                fun mem => hb (List.mem_cons_of_mem y mem)
              by_cases same : tolower x = tolower y
              · rw [strnicmp_same n same nonzero]
                simp [same, rest]
              · exact iff_of_false (strnicmp_differ n same) (by simp [same])

/-! ## The plain comparison -/

def strncmp (s1 s2 : Nat → Byte) : (n : Nat) → Int
  | 0 => 0
  | n + 1 =>
      if s1 0 ≠ s2 0 then (s1 0).toNat - (s2 0).toNat
      else if s1 0 = 0 then 0
      else strncmp (fun i => s1 (i + 1)) (fun i => s2 (i + 1)) n

/-- `A` to `Z` and no other byte. -/
def lower (c : Byte) : Byte := if 65 ≤ c.toNat ∧ c.toNat ≤ 90 then c + 32 else c

/-- Both strings go on, and agree up to case so far. -/
def AgreeBefore (s1 s2 : Nat → Byte) (k : Nat) : Prop :=
  ∀ i < k, lower (s1 i) = lower (s2 i) ∧ s1 i ≠ 0

/-- What holds of each two bytes that are compared, the first ones that differ included. -/
def Compared (P : Byte → Byte → Prop) (s1 s2 : Nat → Byte) (n : Nat) : Prop :=
  ∀ k < n, AgreeBefore s1 s2 k → P (s1 k) (s2 k)

/-- The first `n` bytes, up to the terminator, agree up to case. -/
def AgreeUpToCase : (s1 s2 : Nat → Byte) → (n : Nat) → Prop := Compared fun a b => lower a = lower b

/-- The bytes that decide are both ASCII, or neither of them is. -/
def SameHalf : (s1 s2 : Nat → Byte) → (n : Nat) → Prop :=
  Compared fun a b => lower a ≠ lower b → (a.toNat < 128 ↔ b.toNat < 128)

theorem tolower_eq_lower (c : Byte) : tolower c = lower c := by
  revert c
  decide

theorem lower_ascii_iff (c : Byte) : (lower c).toNat < 128 ↔ c.toNat < 128 := by
  revert c
  decide

theorem agreeBefore_succ {s1 s2 : Nat → Byte} {k : Nat} :
    AgreeBefore s1 s2 (k + 1) ↔
      (lower (s1 0) = lower (s2 0) ∧ s1 0 ≠ 0) ∧
        AgreeBefore (fun i => s1 (i + 1)) (fun i => s2 (i + 1)) k :=
  Nat.forall_lt_succ_left

theorem compared_succ {P : Byte → Byte → Prop} {s1 s2 : Nat → Byte} {n : Nat} :
    Compared P s1 s2 (n + 1) ↔
      P (s1 0) (s2 0) ∧ (lower (s1 0) = lower (s2 0) → s1 0 ≠ 0 →
        Compared P (fun i => s1 (i + 1)) (fun i => s2 (i + 1)) n) := by
  rw [Compared, Nat.forall_lt_succ_left]
  refine and_congr ?_ ?_
  · simp [AgreeBefore]
  · simp only [agreeBefore_succ, Compared]
    grind

/-- The two orders agree on bytes of the same half only. -/
theorem sign_sub_iff {a b : Byte} (differ : a ≠ b) :
    (a.toInt - b.toInt).sign = ((a.toNat : Int) - b.toNat).sign ↔ (a.toNat < 128 ↔ b.toNat < 128) := by
  have distinct : a.toNat ≠ b.toNat := BitVec.toNat_ne.mp differ
  have := a.isLt
  have := b.isLt
  simp only [BitVec.toInt_eq_toNat_cond]
  rcases lt_or_gt_of_ne distinct with below | above
  · rw [Int.sign_eq_neg_one_of_neg (by omega : (a.toNat : Int) - b.toNat < 0), Int.sign_eq_neg_one_iff_neg]
    split <;> split <;> omega
  · rw [Int.sign_eq_one_of_pos (by omega : (0 : Int) < a.toNat - b.toNat), Int.sign_eq_one_iff_pos]
    split <;> split <;> omega

theorem lower_eq_zero {c : Byte} : lower c = 0 ↔ c = 0 := by
  rw [← tolower_eq_lower, tolower_eq_zero]

theorem strnicmp_succ (s1 s2 : Nat → Byte) (n : Nat) :
    strnicmp s1 s2 (n + 1) =
      if lower (s1 0) = lower (s2 0) then
        if s1 0 = 0 then 0 else strnicmp (fun i => s1 (i + 1)) (fun i => s2 (i + 1)) n
      else (lower (s1 0)).toInt - (lower (s2 0)).toInt := by
  have differ : s1 0 ≠ s2 0 ∧ lower (s1 0) ≠ lower (s2 0) ↔ lower (s1 0) ≠ lower (s2 0) :=
    and_iff_right_of_imp fun lowered same => lowered (congrArg lower same)
  simp only [strnicmp, tolower_eq_lower, differ, ite_not]

theorem strncmp_lower_succ (s1 s2 : Nat → Byte) (n : Nat) :
    strncmp (fun i => lower (s1 i)) (fun i => lower (s2 i)) (n + 1) =
      if lower (s1 0) = lower (s2 0) then
        if s1 0 = 0 then 0
        else strncmp (fun i => lower (s1 (i + 1))) (fun i => lower (s2 (i + 1))) n
      else ((lower (s1 0)).toNat : Int) - (lower (s2 0)).toNat := by
  simp only [strncmp, lower_eq_zero, ite_not]

theorem strnicmp_zero_iff (s1 s2 : Nat → Byte) (n : Nat) :
    strnicmp s1 s2 n = 0 ↔ AgreeUpToCase s1 s2 n := by
  induction n generalizing s1 s2 with
  | zero => simp [strnicmp, AgreeUpToCase, Compared]
  | succ n ih =>
      rw [strnicmp_succ, AgreeUpToCase, compared_succ]
      split_ifs with same ends
      · exact iff_of_true rfl ⟨same, fun _ more => absurd ends more⟩
      · rw [ih]
        exact ⟨fun agree => ⟨same, fun _ _ => agree⟩, fun agree => agree.2 same ends⟩
      · refine iff_of_false ?_ fun agree => same agree.1
        rwa [Int.sub_eq_zero, BitVec.toInt_inj]

theorem strnicmp_swap (s1 s2 : Nat → Byte) (n : Nat) : strnicmp s2 s1 n = -strnicmp s1 s2 n := by
  induction n generalizing s1 s2 with
  | zero => rfl
  | succ n ih =>
      rw [strnicmp_succ, strnicmp_succ]
      by_cases same : lower (s1 0) = lower (s2 0)
      · have ends : s2 0 = 0 ↔ s1 0 = 0 := by rw [← lower_eq_zero, ← same, lower_eq_zero]
        rw [if_pos same, if_pos same.symm, ih]
        simp only [ends]
        split <;> rfl
      · rw [if_neg same, if_neg (Ne.symm same), Int.neg_sub]

theorem sign_eq_iff_sameHalf (s1 s2 : Nat → Byte) (n : Nat) :
    (strnicmp s1 s2 n).sign = (strncmp (fun i => lower (s1 i)) (fun i => lower (s2 i)) n).sign ↔
      SameHalf s1 s2 n := by
  induction n generalizing s1 s2 with
  | zero => simp [strnicmp, strncmp, SameHalf, Compared]
  | succ n ih =>
      rw [strnicmp_succ, strncmp_lower_succ, SameHalf, compared_succ]
      split_ifs with same ends
      · exact iff_of_true rfl ⟨fun differ => absurd same differ, fun _ more => absurd ends more⟩
      · rw [ih]
        exact ⟨fun half => ⟨fun differ => absurd same differ, fun _ _ => half⟩,
          fun half => half.2 same ends⟩
      · rw [sign_sub_iff same, lower_ascii_iff, lower_ascii_iff]
        exact ⟨fun half => ⟨fun _ => half, fun agree => absurd agree same⟩, fun half => half.1 same⟩

/-- The sign is that of the plain comparison in lower case exactly when the bytes that decide
    are of the same half. Zero, and the sign of the arguments the other way round, are right for
    all strings. -/
theorem strnicmp_agrees_iff (s1 s2 : Nat → Byte) (n : Nat) :
    ((strnicmp s1 s2 n).sign = (strncmp (fun i => lower (s1 i)) (fun i => lower (s2 i)) n).sign ↔
        SameHalf s1 s2 n) ∧
      (strnicmp s1 s2 n = 0 ↔ AgreeUpToCase s1 s2 n) ∧
      (strnicmp s2 s1 n).sign = -(strnicmp s1 s2 n).sign := by
  refine ⟨sign_eq_iff_sameHalf s1 s2 n, strnicmp_zero_iff s1 s2 n, ?_⟩
  rw [strnicmp_swap, Int.sign_neg]

/-- `0x80` comes before `a` without case, and behind it with case. -/
theorem strnicmp_signed_order :
    strnicmp (cstr [0x80]) (cstr [0x61]) 1 = -225 ∧
      strncmp (fun i => lower (cstr [0x80] i)) (fun i => lower (cstr [0x61] i)) 1 = 31 ∧
      ¬ SameHalf (cstr [0x80]) (cstr [0x61]) 1 := by
  refine ⟨by decide, by decide, fun half => ?_⟩
  have decides := half 0 (by decide) (by simp [AgreeBefore]) (by decide)
  exact absurd decides (by decide)

end ConiferOS
