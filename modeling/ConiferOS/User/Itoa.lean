import ConiferOS.Memory.Strings
import ConiferOS.Lib.Numeral

/-! # Decimal conversion

`itoa` writes the digits of a number from the last to the first and turns them round in place.
Zero has a branch of its own, which ends the text with a newline and not with a zero byte. The
most negative number is its own negation, and its remainders are negative.
-/

namespace ConiferOS.User

open Lib Lib.Numeral

/-- The loop of `reverse_str`. -/
def reverseStrLoop (str : Word) (l r : Nat) (t : Trace) : Trace :=
  if l < r then
    let tmp := t.mem (str + BitVec.ofNat 32 l)
    let t := t.store8 (str + BitVec.ofNat 32 l) (t.mem (str + BitVec.ofNat 32 r))
    let t := t.store8 (str + BitVec.ofNat 32 r) tmp
    reverseStrLoop str (l + 1) (r - 1) t
  else t
termination_by r - l

def reverseStr (str : Word) (len : Nat) (t : Trace) : Int × Trace :=
  (0, reverseStrLoop str 0 (len - 1) t)

theorem toInt_div_ten (num : Word) : (num.sdiv 10).toInt = num.toInt.tdiv 10 :=
  BitVec.toInt_sdiv_of_ne_or_ne num 10 (.inr (by decide))

theorem natAbs_div_ten (num : Word) : (num.sdiv 10).toInt.natAbs = num.toInt.natAbs / 10 := by
  rw [toInt_div_ten, Int.natAbs_tdiv]
  rfl

theorem natAbs_pos {num : Word} (nonzero : num ≠ 0) : 0 < num.toInt.natAbs :=
  Int.natAbs_pos.mpr fun zero => nonzero (BitVec.toInt_inj.mp zero)

/-- The `while` loop of `itoa`: the next place in the buffer, and the stores. -/
def digitsLoop (buffer num : Word) (i : Nat) (t : Trace) : Nat × Trace :=
  if _done : num = 0 then (i, t)
  else
    let remainder := num.srem 10
    let t := t.store8 (buffer + BitVec.ofNat 32 i) ((48 + remainder).setWidth 8)
    digitsLoop buffer (num.sdiv 10) (i + 1) t
termination_by num.toInt.natAbs
decreasing_by
  rw [natAbs_div_ten]
  exact Nat.div_lt_self (natAbs_pos _done) (by decide)

def itoa (num buffer : Word) (t : Trace) : Word × Trace :=
  if num = 0 then
    let t := t.store8 buffer 0x30
    let t := t.store8 (buffer + 1) 0x0A
    (buffer, t)
  else
    let negative := num.slt 0
    let num := if negative then -num else num
    let (i, t) := digitsLoop buffer num 0 t
    let (i, t) := if negative then (i + 1, t.store8 (buffer + BitVec.ofNat 32 i) 0x2D) else (i, t)
    let t := t.store8 (buffer + BitVec.ofNat 32 i) 0
    (buffer, (reverseStr buffer i t).2)

/-- At most twelve bytes are written, and they are the numeral of the number. -/
structure Converted (num buffer : Word) (t : Trace) : Prop where
  inside : ∀ x ∈ t.written, (x - buffer).toNat < 12
  text : ∃ text, StringAt t.mem id buffer text ∧ IsNumeral text num.toInt

/-- `-2147483648` -/
def intMin : Word := 0x80000000

/-! ## Writing into the buffer -/

/-- The first bytes of the buffer, and no others are written. -/
structure Spelled (buffer : Word) (bytes : List Byte) (t : Trace) : Prop where
  byte : ∀ (i : Nat) (c : Byte), bytes[i]? = some c → t.mem (buffer + BitVec.ofNat 32 i) = c
  written : ∀ x ∈ t.written, (x - buffer).toNat < bytes.length

namespace Spelled

variable {buffer : Word} {bytes : List Byte} {t : Trace}

/-- One store; `after` differs from `bytes` in the byte at `k`, which may be a new one. -/
theorem store (spelled : Spelled buffer bytes t) {after : List Byte} {k : Nat} {c : Byte}
    (here : after[k]? = some c) (others : ∀ i, i ≠ k → after[i]? = bytes[i]?)
    (longer : bytes.length ≤ after.length) (small : after.length ≤ 2 ^ 32) :
    Spelled buffer after (t.store8 (buffer + BitVec.ofNat 32 k) c) where
  byte := by
    intro i d found
    have inside : k < after.length := (List.getElem?_eq_some_iff.mp here).1
    have bound : i < after.length := (List.getElem?_eq_some_iff.mp found).1
    by_cases same : i = k
    · subst same
      have value : c = d := Option.some.inj (here.symm.trans found)
      exact value ▸ store8_self ..
    · have apart : buffer + BitVec.ofNat 32 i ≠ buffer + BitVec.ofNat 32 k := by bv_omega
      rw [others i same] at found
      exact (store8_of_ne c apart).trans (spelled.byte i d found)
  written := by
    intro x member
    have inside : k < after.length := (List.getElem?_eq_some_iff.mp here).1
    rcases List.mem_cons.mp member with rfl | before
    · bv_omega
    · exact lt_of_lt_of_le (spelled.written x before) longer

theorem replace {before behind : List Byte} {c : Byte} (spelled : Spelled buffer (before ++ c :: behind) t)
    (small : (before ++ c :: behind).length ≤ 2 ^ 32) (d : Byte) :
    Spelled buffer (before ++ d :: behind) (t.store8 (buffer + BitVec.ofNat 32 before.length) d) :=
  spelled.store (by simp) (fun i other => by grind) (by simp) (by simpa using small)

/-- Two places change their bytes. -/
theorem swap {before middle behind : List Byte} {c d : Byte} {l r : Word}
    (spelled : Spelled buffer (before ++ c :: middle ++ d :: behind) t)
    (small : (before ++ c :: middle ++ d :: behind).length ≤ 2 ^ 32)
    (left : l = buffer + BitVec.ofNat 32 before.length)
    (right : r = buffer + BitVec.ofNat 32 (before.length + middle.length + 1)) :
    Spelled buffer (before ++ d :: middle ++ c :: behind)
      ((t.store8 l (t.mem r)).store8 r (t.mem l)) := by
  have place : ∀ e : Byte, before.length + middle.length + 1 = (before ++ e :: middle).length := by
    intro e
    rw [List.length_append, List.length_cons, Nat.add_assoc]
  have outer : ∀ e : Byte,
      before ++ e :: middle ++ d :: behind = before ++ e :: (middle ++ d :: behind) := by
    intro e
    rw [List.append_assoc, List.cons_append]
  have second : t.mem r = d := by
    rw [right, place c]
    exact spelled.byte _ d (List.getElem?_append_right le_rfl ▸ by simp)
  rw [outer] at spelled small
  have first : t.mem l = c := by
    rw [left]
    exact spelled.byte _ c (by simp)
  have stored := spelled.replace small d
  rw [← outer d] at stored
  rw [first, second, left, right, place d]
  exact stored.replace (by simpa using small) c

theorem push (spelled : Spelled buffer bytes t) (small : bytes.length < 2 ^ 32) (c : Byte) :
    Spelled buffer (bytes ++ [c]) (t.store8 (buffer + BitVec.ofNat 32 bytes.length) c) :=
  spelled.store List.getElem?_concat_length (fun i other => by grind) (by simp) (by simpa using small)

/-- A text with the zero behind it. -/
theorem stringAt {text : List Byte} (spelled : Spelled buffer (text ++ [0]) t)
    (nonzero : ∀ c ∈ text, c ≠ 0) : StringAt t.mem id buffer text := by
  have terminated : StringAt t.mem id buffer (text ++ []) := by
    refine StringAt.append (fun i inside => ?_) nonzero (.nil ?_)
    · exact spelled.byte i _ (by rw [List.getElem?_append_left inside, List.getElem?_eq_getElem])
    · exact spelled.byte text.length 0 List.getElem?_concat_length
  rwa [List.append_nil] at terminated

end Spelled

/-- The bytes between two places, turned round from outside to inside. -/
theorem reverseStrLoop_spelled {str : Word} (middle : List Byte) :
    ∀ (before behind : List Byte) (t : Trace), (before ++ middle ++ behind).length ≤ 2 ^ 32 →
      Spelled str (before ++ middle ++ behind) t →
      Spelled str (before ++ middle.reverse ++ behind)
        (reverseStrLoop str before.length (before.length + middle.length - 1) t) := by
  induction middle using List.bidirectionalRec with
  | nil =>
      intro before behind t _ spelled
      rw [reverseStrLoop, if_neg (by simp)]
      exact spelled
  | singleton c =>
      intro before behind t _ spelled
      rw [reverseStrLoop, if_neg (by simp)]
      exact spelled
  | cons_append c middle d ih =>
      intro before behind t small spelled
      have text : before ++ c :: (middle ++ [d]) ++ behind = before ++ c :: middle ++ d :: behind := by simp
      rw [text] at spelled small
      have place :
          before.length + (c :: (middle ++ [d])).length - 1 = before.length + middle.length + 1 := by
        simp [Nat.add_assoc]
      have next : (before ++ [d]).length + middle.length - 1 = before.length + middle.length + 1 - 1 := by
        simp [Nat.add_right_comm]
      have swapped := spelled.swap small rfl rfl
      have inner := ih (before ++ [d]) (c :: behind) _ (by simpa using small) (by simpa using swapped)
      rw [next] at inner
      rw [reverseStrLoop, place, if_pos (by omega)]
      simpa using inner

theorem reverseStr_spelled {str : Word} {text : List Byte} {t : Trace} (small : text.length < 2 ^ 32)
    (spelled : Spelled str (text ++ [0]) t) :
    Spelled str (text.reverse ++ [0]) (reverseStr str text.length t).2 := by
  have turned := reverseStrLoop_spelled text [] [0] t (by simpa using small) spelled
  simpa [reverseStr] using turned

/-! ## The digits -/

/-- What the `while` loop writes. -/
def remainders (num : Word) : List Byte :=
  if _done : num = 0 then [] else (48 + num.srem 10).setWidth 8 :: remainders (num.sdiv 10)
termination_by num.toInt.natAbs
decreasing_by
  rw [natAbs_div_ten]
  exact Nat.div_lt_self (natAbs_pos _done) (by decide)

theorem length_remainders {num : Word} {k : Nat} (small : num.toInt.natAbs < 10 ^ k) :
    (remainders num).length ≤ k := by
  induction k generalizing num with
  | zero =>
      have zero : num = 0 := by
        by_contra nonzero
        have positive := natAbs_pos nonzero
        omega
      rw [zero, remainders, dif_pos rfl, List.length_nil]
  | succ k ih =>
      rw [remainders]
      split
      case isTrue => exact Nat.zero_le _
      case isFalse =>
        refine Nat.succ_le_succ (ih ?_)
        rw [natAbs_div_ten]
        omega

/-- No number has more than ten digits. -/
theorem length_remainders_le (num : Word) : (remainders num).length ≤ 10 := by
  have lower := BitVec.le_toInt num
  have upper : num.toInt < 2 ^ 31 := BitVec.toInt_lt
  exact length_remainders (by omega)

/-- Digit by digit behind what is already there. -/
theorem digitsLoop_spelled {buffer num : Word} {bytes : List Byte} {t : Trace}
    (small : (bytes ++ remainders num).length < 2 ^ 32) (spelled : Spelled buffer bytes t) :
    (digitsLoop buffer num bytes.length t).1 = (bytes ++ remainders num).length ∧
      Spelled buffer (bytes ++ remainders num) (digitsLoop buffer num bytes.length t).2 := by
  fun_induction remainders num generalizing bytes t with
  | case1 =>
      rw [digitsLoop, dif_pos rfl, List.append_nil]
      exact ⟨rfl, spelled⟩
  | case2 num more ih =>
      have fits : bytes.length < 2 ^ 32 := by
        rw [List.length_append, List.length_cons] at small
        omega
      have stored := spelled.push fits ((48 + num.srem 10).setWidth 8)
      have rest := ih (by simpa using small) stored
      rw [digitsLoop, dif_neg more]
      simpa using rest

/-- The text of a number other than zero. -/
def itoaText (num : Word) : List Byte :=
  if num.slt 0 then minus :: (remainders (-num)).reverse else (remainders num).reverse

theorem length_itoaText (num : Word) : (itoaText num).length ≤ 11 := by
  have positive := length_remainders_le num
  have negative := length_remainders_le (-num)
  rw [itoaText]
  split <;> simp <;> omega

/-- The zero behind the text, and the text turned round. -/
theorem finish_spelled {buffer : Word} {text : List Byte} {t : Trace} (small : text.length < 2 ^ 32)
    (spelled : Spelled buffer text t) :
    Spelled buffer (text.reverse ++ [0])
      (reverseStr buffer text.length (t.store8 (buffer + BitVec.ofNat 32 text.length) 0)).2 :=
  reverseStr_spelled small (spelled.push small 0)

theorem itoa_spelled {num : Word} (nonzero : num ≠ 0) (buffer : Word) (m : Mem) :
    Spelled buffer (itoaText num ++ [0]) (itoa num buffer ⟨m, []⟩).2 := by
  have start : Spelled buffer [] ⟨m, []⟩ := ⟨by simp, by simp⟩
  have few : ∀ n : Word, (remainders n).length + 1 < 2 ^ 32 := by
    intro n
    have digits := length_remainders_le n
    omega
  have loop : ∀ n : Word, (digitsLoop buffer n 0 ⟨m, []⟩).1 = (remainders n).length ∧
      Spelled buffer (remainders n) (digitsLoop buffer n 0 ⟨m, []⟩).2 :=
    fun n => digitsLoop_spelled (Nat.lt_of_succ_lt (few n)) start
  rw [itoa, if_neg nonzero, itoaText]
  by_cases negative : num.slt 0
  · obtain ⟨place, spelled⟩ := loop (-num)
    have signed := spelled.push (Nat.lt_of_succ_lt (few _)) minus
    have finished := finish_spelled (by simpa using few (-num)) signed
    rw [List.reverse_append, List.length_append] at finished
    simp only [negative, if_true, place]
    exact finished
  · obtain ⟨place, spelled⟩ := loop num
    have finished := finish_spelled (Nat.lt_of_succ_lt (few _)) spelled
    simp only [negative, if_false, place, Bool.false_eq_true]
    exact finished

theorem toNat_srem_ten {num : Word} {n : Nat} (value : num.toInt = n) : (num.srem 10).toNat = n % 10 := by
  have remainder : (num.srem 10).toInt = (n % 10 : Nat) := by
    rw [BitVec.toInt_srem, value]
    rfl
  have small := (num.srem 10).isLt
  rw [BitVec.toInt_eq_toNat_cond] at remainder
  split at remainder <;> omega

theorem remainders_eq {num : Word} {n : Nat} (value : num.toInt = n) :
    remainders num = (Nat.digits 10 n).map digit := by
  fun_induction remainders num generalizing n with
  | case1 =>
      have zero : n = 0 := by simpa using value.symm
      simp [zero]
  | case2 num more ih =>
      have positive : 0 < n := by
        have magnitude := natAbs_pos more
        omega
      have quotient : (num.sdiv 10).toInt = (n / 10 : Nat) := by
        rw [toInt_div_ten, value]
        rfl
      have last : (48 + num.srem 10).setWidth 8 = digit (n % 10) := by
        have remainder := toNat_srem_ten value
        apply BitVec.eq_of_toNat_eq
        rw [toNat_digit (Nat.mod_lt n (by decide))]
        bv_omega
      rw [Nat.digits_def' (by decide) positive, List.map_cons, last, ih quotient]

/-- The remainders of the most negative number are negative themselves. -/
theorem itoaText_intMin :
    itoaText intMin = [0x2D, 0x2E, 0x2F, 0x2C, 0x29, 0x2C, 0x28, 0x2D, 0x2A, 0x2C, 0x28] := by
  simp [itoaText, remainders, intMin, minus]

theorem reverse_remainders {num : Word} {n : Nat} (value : num.toInt = n) (positive : n ≠ 0) :
    (remainders num).reverse = unsigned n := by
  rw [remainders_eq value, unsigned, if_neg positive]

theorem itoaText_eq {num : Word} (nonzero : num ≠ 0) (ordinary : num ≠ intMin) :
    itoaText num = numeral num.toInt := by
  have magnitude := natAbs_pos nonzero
  have sign : num.slt 0 = decide (num.toInt < 0) := by
    rw [BitVec.slt_eq_decide]
    rfl
  rw [itoaText, numeral, sign]
  by_cases negative : num.toInt < 0
  · have value : (-num).toInt = num.toInt.natAbs := by
      rw [BitVec.toInt_neg_of_ne_intMin ordinary]
      omega
    rw [decide_eq_true negative, if_pos rfl, if_pos negative, reverse_remainders value magnitude.ne']
  · have value : num.toInt = num.toInt.natAbs := by omega
    rw [decide_eq_false negative, if_neg (by decide), if_neg negative,
      reverse_remainders value magnitude.ne']

/-! ## Which numbers are converted -/

theorem isNumeral_itoaText_iff {num : Word} (nonzero : num ≠ 0) :
    IsNumeral (itoaText num) num.toInt ↔ num ≠ intMin := by
  constructor
  · rintro spelled rfl
    have dot : 0x2E ∈ itoaText intMin := by
      rw [itoaText_intMin]
      decide
    exact absurd (spelled.mem 0x2E dot) (by decide)
  · intro ordinary
    rw [itoaText_eq nonzero ordinary]
    exact isNumeral_numeral num.toInt

theorem itoaText_nonzero {num : Word} (nonzero : num ≠ 0) : ∀ c ∈ itoaText num, c ≠ 0 := by
  by_cases least : num = intMin
  · rw [least, itoaText_intMin]
    decide
  · exact ((isNumeral_itoaText_iff nonzero).mpr least).nonzero

theorem itoa_stringAt {num : Word} (nonzero : num ≠ 0) (buffer : Word) (m : Mem) :
    StringAt (itoa num buffer ⟨m, []⟩).2.mem id buffer (itoaText num) :=
  (itoa_spelled nonzero buffer m).stringAt (itoaText_nonzero nonzero)

theorem itoa_inside {num : Word} (nonzero : num ≠ 0) (buffer : Word) (m : Mem) :
    ∀ x ∈ (itoa num buffer ⟨m, []⟩).2.written, (x - buffer).toNat < 12 := by
  intro x member
  have inside := (itoa_spelled nonzero buffer m).written x member
  have short := length_itoaText num
  rw [List.length_append, List.length_singleton] at inside
  omega

/-- The text of zero goes on behind its digit. -/
theorem newline_mem_zero {buffer : Word} {m : Mem} {text : List Byte}
    (string : StringAt (itoa 0 buffer ⟨m, []⟩).2.mem id buffer text) : 0x0A ∈ text := by
  have apart : buffer ≠ buffer + 1 := by bv_omega
  have first : (itoa 0 buffer ⟨m, []⟩).2.mem buffer = 0x30 :=
    (store8_of_ne 0x0A apart).trans (store8_self m buffer 0x30)
  have second : (itoa 0 buffer ⟨m, []⟩).2.mem (buffer + 1) = 0x0A := store8_self ..
  cases string with
  | nil zero => exact absurd (first.symm.trans zero) (by decide)
  | cons _ _ rest =>
      cases rest with
      | nil zero => exact absurd (second.symm.trans zero) (by decide)
      | cons char _ _ =>
          have newline := second.symm.trans char
          simp [← newline]

/-- Zero and the most negative number are the ones that `itoa` gets wrong, whatever the buffer
    held before. -/
theorem itoa_converts_iff (num buffer : Word) (m : Mem) :
    Converted num buffer (itoa num buffer ⟨m, []⟩).2 ↔ num ≠ 0 ∧ num ≠ intMin := by
  constructor
  · intro converted
    obtain ⟨text, string, spelled⟩ := converted.text
    constructor
    · rintro rfl
      exact absurd (spelled.mem 0x0A (newline_mem_zero string)) (by decide)
    · rintro rfl
      have nonzero : intMin ≠ 0 := by decide
      cases string.unique (itoa_stringAt nonzero buffer m)
      exact (isNumeral_itoaText_iff nonzero).mp spelled rfl
  · rintro ⟨nonzero, ordinary⟩
    exact ⟨itoa_inside nonzero buffer m, itoaText num, itoa_stringAt nonzero buffer m,
      (isNumeral_itoaText_iff nonzero).mpr ordinary⟩

/-- In an empty buffer, zero becomes a digit and a newline. -/
theorem itoa_zero_newline :
    StringAt (itoa 0 0x1000 ⟨fun _ => 0, []⟩).2.mem id 0x1000 [0x30, 0x0A] ∧
      ¬ Converted 0 0x1000 (itoa 0 0x1000 ⟨fun _ => 0, []⟩).2 := by
  have string : StringAt (itoa 0 0x1000 ⟨fun _ => 0, []⟩).2.mem id 0x1000 [0x30, 0x0A] :=
    .cons (by decide) (by decide) (.cons (by decide) (by decide) (.nil (by decide)))
  refine ⟨string, fun converted => ?_⟩
  obtain ⟨text, other, spelled⟩ := converted.text
  cases string.unique other
  exact absurd (spelled.mem 0x0A (by decide)) (by decide)

end ConiferOS.User
