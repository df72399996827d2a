import ConiferOS.Lib.Tokens
import ConiferOS.Memory.Strings

/-! # Splitting a command line

`strtok` of the user library copies what is in front of the next delimiter and keeps its place in
a static variable. It does not skip delimiters: a delimiter at an end of the string, or next to
another one, gives an empty token, and so does an empty string.
-/

namespace ConiferOS.User

open Lib

/-- `none` when the end of the string is not reached after `fuel` bytes. -/
def strlen (m : Mem) : (fuel : Nat) → (ptr : Word) → Option Nat
  | 0, _ => none
  | fuel + 1, ptr => if m ptr = 0 then some 0 else (strlen m fuel (ptr + 1)).map (· + 1)

/-- Memory, and the static variable of `strtok`. -/
structure Strtok where
  trace : Trace
  remainder : Word

/-- The loop and what is behind it. -/
def strtokLoop (delim : Byte) (outTok : Word) : (fuel i : Nat) → Strtok → Option (Word × Strtok)
  | 0, _, _ => none
  | fuel + 1, i, s =>
      let c := s.trace.mem (s.remainder + BitVec.ofNat 32 i)
      if c = 0 then some (outTok, ⟨s.trace.store8 (outTok + BitVec.ofNat 32 i) 0, 0⟩)
      else if c = delim then
        some (outTok, ⟨s.trace.store8 (outTok + BitVec.ofNat 32 i) 0,
          s.remainder + BitVec.ofNat 32 i + 1⟩)
      else strtokLoop delim outTok fuel (i + 1)
        { s with trace := s.trace.store8 (outTok + BitVec.ofNat 32 i) c }

/-- `next_token` is never used, but its size is computed from `str`, which is `NULL` in all calls
    but the first. The page at `NULL` can be read. -/
def strtok (fuel : Nat) (str : Word) (delim : Byte) (outTok : Word) (s : Strtok) : Option (Word × Strtok) :=
  let s := if str ≠ 0 then { s with remainder := str } else s
  if s.remainder = 0 then some (0, s)
  else
    match strlen s.trace.mem fuel str with
    | none => none
    | some _ => strtokLoop delim outTok fuel 0 s

/-- The strings that are returned up to the first `NULL`, `none` when it has not come after
    `calls` calls; `between` is what the caller does to memory with each of them. -/
def tokens (fuel : Nat) (delim : Byte) (buf : Word) (between : Mem → Mem) :
    (calls : Nat) → (str : Word) → Strtok → Option (List (List Byte))
  | 0, _, _ => none
  | calls + 1, str, s =>
      match strtok fuel str delim buf s with
      | none => none
      | some (token, s) =>
          if token = 0 then some []
          else
            match readString s.trace.mem fuel token with
            | none => none
            | some text =>
                (tokens fuel delim buf between calls 0
                  { s with trace := ⟨between s.trace.mem, s.trace.written⟩ }).map (text :: ·)

/-! ## What is asked for -/

/-- A string, and a buffer of its size somewhere else. -/
structure StringAndBuffer (m : Mem) (str buf : Word) (text : List Byte) : Prop where
  string : StringAt m id str text
  str_ne : str ≠ 0
  buf_ne : buf ≠ 0
  inside : str.toNat + text.length < 2 ^ 32
  apart : ∀ i ≤ text.length, ∀ j ≤ text.length, str + BitVec.ofNat 32 i ≠ buf + BitVec.ofNat 32 j

/-- The caller leaves the string alone. -/
def Spares (str : Word) (text : List Byte) (between : Mem → Mem) : Prop :=
  ∀ m, ∀ i ≤ text.length, between m (str + BitVec.ofNat 32 i) = m (str + BitVec.ofNat 32 i)

/-- The calls come to an end, and return the tokens of the string. -/
def Tokenises (m : Mem) (str buf : Word) (text : List Byte) (delim : Byte) : Prop :=
  ∀ (remainder : Word) (between : Mem → Mem), Spares str text between →
    ∃ n, ∀ fuel ≥ n, ∀ calls ≥ n, ∃ all,
      tokens fuel delim buf between calls str ⟨⟨m, []⟩, remainder⟩ = some all ∧ TokensOf delim text all

/-! ## One call -/

theorem strlen_isSome {m : Mem} {ptr : Word} {fuel k : Nat} (enough : k < fuel)
    (zero : m (ptr + BitVec.ofNat 32 k) = 0) : ∃ n, strlen m fuel ptr = some n := by
  induction k generalizing fuel ptr with
  | zero =>
      obtain ⟨fuel, rfl⟩ := Nat.exists_eq_succ_of_ne_zero (Nat.ne_zero_of_lt enough)
      exact ⟨0, if_pos (by simpa using zero)⟩
  | succ k ih =>
      obtain ⟨fuel, rfl⟩ := Nat.exists_eq_succ_of_ne_zero (Nat.ne_zero_of_lt enough)
      rw [strlen]
      split
      case isTrue => exact ⟨0, rfl⟩
      case isFalse =>
        rw [← StringAt.next_address] at zero
        obtain ⟨n, length⟩ := ih (Nat.lt_of_succ_lt_succ enough) zero
        exact ⟨n + 1, by rw [length]; rfl⟩

section Loop

variable {delim : Byte} {buf : Word} {fuel i : Nat} {s : Strtok} {c : Byte}

theorem strtokLoop_end (zero : s.trace.mem (s.remainder + BitVec.ofNat 32 i) = 0) :
    strtokLoop delim buf (fuel + 1) i s =
      some (buf, ⟨s.trace.store8 (buf + BitVec.ofNat 32 i) 0, 0⟩) := by
  rw [strtokLoop, zero, if_pos rfl]

theorem strtokLoop_delim (here : s.trace.mem (s.remainder + BitVec.ofNat 32 i) = delim)
    (nonzero : delim ≠ 0) :
    strtokLoop delim buf (fuel + 1) i s =
      some (buf, ⟨s.trace.store8 (buf + BitVec.ofNat 32 i) 0, s.remainder + BitVec.ofNat 32 i + 1⟩) := by
  rw [strtokLoop, here, if_neg nonzero, if_pos rfl]

theorem strtokLoop_char (here : s.trace.mem (s.remainder + BitVec.ofNat 32 i) = c) (nonzero : c ≠ 0)
    (other : c ≠ delim) :
    strtokLoop delim buf (fuel + 1) i s = strtokLoop delim buf fuel (i + 1)
      { s with trace := s.trace.store8 (buf + BitVec.ofNat 32 i) c } := by
  rw [strtokLoop, here, if_neg nonzero, if_neg other]

/-- Induction on the piece that is copied. Behind it there is a delimiter, or the end. -/
theorem strtokLoop_copies {a tail : List Byte} (s : Strtok) (i : Nat) (clean : delim ∉ a)
    (ends : tail = [] ∨ tail.head? = some delim) (enough : a.length < fuel) (small : a.length < 2 ^ 32)
    (string : StringAt s.trace.mem id (s.remainder + BitVec.ofNat 32 i) (a ++ tail))
    (apart : ∀ k ≤ (a ++ tail).length, ∀ j ≤ a.length,
      s.remainder + BitVec.ofNat 32 (i + k) ≠ buf + BitVec.ofNat 32 (i + j)) :
    ∃ t, Copied s.trace t (buf + BitVec.ofNat 32 i) a ∧
      strtokLoop delim buf fuel i s =
        some (buf, ⟨t, if tail = [] then 0 else s.remainder + BitVec.ofNat 32 (i + a.length) + 1⟩) := by
  induction a generalizing fuel i s with
  | nil =>
      obtain ⟨fuel, rfl⟩ := Nat.exists_eq_succ_of_ne_zero (Nat.ne_zero_of_lt enough)
      refine ⟨_, .nil s.trace _, ?_⟩
      cases string with
      | nil zero => exact strtokLoop_end zero
      | cons char nonzero rest =>
          cases ends.resolve_left (List.cons_ne_nil _ _)
          exact strtokLoop_delim char nonzero
  | cons c a ih =>
      obtain ⟨fuel, rfl⟩ := Nat.exists_eq_succ_of_ne_zero (Nat.ne_zero_of_lt enough)
      obtain ⟨other, clean⟩ := List.ne_and_not_mem_of_not_mem_cons clean
      rw [List.length_cons] at small enough
      cases string with
      | cons char nonzero rest =>
          rw [StringAt.address_succ] at rest
          have kept : StringAt (s.trace.store8 (buf + BitVec.ofNat 32 i) c).mem id
              (s.remainder + BitVec.ofNat 32 (i + 1)) (a ++ tail) := by
            refine rest.congr fun k inside => store8_of_ne c ?_
            have place : s.remainder + BitVec.ofNat 32 (i + 1) + BitVec.ofNat 32 k =
                s.remainder + BitVec.ofNat 32 (i + (k + 1)) := by bv_omega
            rw [id, place]
            exact apart (k + 1) (by simpa using inside) 0 (Nat.zero_le _)
          have later : ∀ k ≤ (a ++ tail).length, ∀ j ≤ a.length,
              s.remainder + BitVec.ofNat 32 (i + 1 + k) ≠ buf + BitVec.ofNat 32 (i + 1 + j) := by
            intro k inside j bound
            rw [Nat.add_right_comm i 1 k, Nat.add_right_comm i 1 j]
            exact apart (k + 1) (by simpa using inside) (j + 1) (by simpa using bound)
          obtain ⟨t, copied, run⟩ := ih ⟨s.trace.store8 (buf + BitVec.ofNat 32 i) c, s.remainder⟩ (i + 1)
            clean (Nat.lt_of_succ_lt_succ enough) (by omega) kept later
          rw [← StringAt.address_succ] at copied
          refine ⟨t, copied.cons (by simpa using small) nonzero, ?_⟩
          rw [strtokLoop_char char nonzero (Ne.symm other), run, List.length_cons, Nat.add_right_comm i 1,
            Nat.add_assoc]

end Loop

section Calls

variable {fuel : Nat} {delim : Byte} {buf : Word} {s : Strtok}

theorem strtok_done (none : s.remainder = 0) : strtok fuel 0 delim buf s = some (0, s) := by
  simp [strtok, none]

/-- A string behind `NULL`, or at the pointer itself, has an end for `strlen`. -/
theorem strlen_string {m : Mem} {str r : Word} {text : List Byte} (place : str = 0 ∨ str = r)
    (inside : r.toNat + text.length < 2 ^ 32) (enough : r.toNat + text.length < fuel)
    (string : StringAt m id r text) : ∃ n, strlen m fuel str = some n := by
  have zero : m (r + BitVec.ofNat 32 text.length) = 0 := string.terminator
  rcases place with rfl | rfl
  · refine strlen_isSome enough ?_
    have address :
        (0 : Word) + BitVec.ofNat 32 (r.toNat + text.length) = r + BitVec.ofNat 32 text.length := by
      bv_omega
    rw [address, zero]
  · exact strlen_isSome (by omega) zero

/-- A call that goes on at `r`. -/
theorem strtok_piece {str r : Word} {a tail : List Byte} (place : str = 0 ∧ s.remainder = r ∨ str = r)
    (nonnull : r ≠ 0) (clean : delim ∉ a) (ends : tail = [] ∨ tail.head? = some delim)
    (inside : r.toNat + (a ++ tail).length < 2 ^ 32) (enough : r.toNat + (a ++ tail).length < fuel)
    (string : StringAt s.trace.mem id r (a ++ tail))
    (apart : ∀ k ≤ (a ++ tail).length, ∀ j ≤ a.length,
      r + BitVec.ofNat 32 k ≠ buf + BitVec.ofNat 32 j) :
    ∃ t, Copied s.trace t buf a ∧
      strtok fuel str delim buf s =
        some (buf, ⟨t, if tail = [] then 0 else r + BitVec.ofNat 32 a.length + 1⟩) := by
  have start : (if str ≠ 0 then { s with remainder := str } else s) = { s with remainder := r } := by
    rcases place with ⟨rfl, rfl⟩ | rfl
    · rfl
    · rw [if_pos nonnull]
  obtain ⟨length, counted⟩ := strlen_string (place.imp_left And.left) inside enough string
  have short : a.length ≤ (a ++ tail).length := by simp
  have loop : ∃ t, Copied s.trace t (buf + BitVec.ofNat 32 0) a ∧
      strtokLoop delim buf fuel 0 { s with remainder := r } =
        some (buf, ⟨t, if tail = [] then 0 else r + BitVec.ofNat 32 (0 + a.length) + 1⟩) := by
    refine strtokLoop_copies { s with remainder := r } 0 clean ends (by omega) (by omega) ?_ ?_
    · simpa using string
    · simpa using apart
  rw [BitVec.add_zero, Nat.zero_add] at loop
  simp only [strtok, start, if_neg nonnull, counted]
  exact loop

end Calls

/-! ## All calls -/

theorem tokens_succ {fuel calls : Nat} {delim : Byte} {buf str : Word} {between : Mem → Mem}
    {s : Strtok} {t : Trace} {remainder : Word} {a : List Byte} (nonnull : buf ≠ 0)
    (call : strtok fuel str delim buf s = some (buf, ⟨t, remainder⟩)) (copy : StringAt t.mem id buf a)
    (enough : a.length < fuel) :
    tokens fuel delim buf between (calls + 1) str s =
      (tokens fuel delim buf between calls 0 ⟨⟨between t.mem, t.written⟩, remainder⟩).map (a :: ·) := by
  simp only [tokens, call, if_neg nonnull, copy.readString_eq enough]

theorem tokens_done {fuel calls : Nat} {delim : Byte} {buf : Word} {between : Mem → Mem} {s : Strtok}
    (none : s.remainder = 0) : tokens fuel delim buf between (calls + 1) 0 s = some [] := by
  simp only [tokens, strtok_done none, if_true]

/-- Induction on the pieces of the string: each call returns one, also an empty one. -/
theorem tokens_eq {delim : Byte} {buf : Word} (nonnull : buf ≠ 0) {between : Mem → Mem} {fuel : Nat}
    (text : List Byte) :
    ∀ {calls : Nat} {str r : Word} {s : Strtok}, (str = 0 ∧ s.remainder = r ∨ str = r) → r ≠ 0 →
      r.toNat + text.length < 2 ^ 32 → r.toNat + text.length < fuel → text.length + 1 < calls →
      StringAt s.trace.mem id r text → Spares r text between →
      (∀ i ≤ text.length, ∀ j ≤ text.length, r + BitVec.ofNat 32 i ≠ buf + BitVec.ofNat 32 j) →
      tokens fuel delim buf between calls str s = some (text.splitOn delim) := by
  induction text using splitInduction delim with
  | last a clean =>
      intro calls str r s place start inside enough many string spares apart
      obtain ⟨calls, rfl⟩ : ∃ n, calls = n + 2 := ⟨calls - 2, by omega⟩
      obtain ⟨t, copied, call⟩ : ∃ t, Copied s.trace t buf a ∧
          strtok fuel str delim buf s = some (buf, ⟨t, 0⟩) :=
        strtok_piece place start clean (.inl rfl) (by simpa using inside) (by simpa using enough)
          (by simpa using string) (by simpa using apart)
      rw [tokens_succ nonnull call copied.copy (by omega), tokens_done rfl, List.splitOn_eq_singleton clean]
      rfl
  | more a rest clean ih =>
      intro calls str r s place start inside enough many string spares apart
      have length : (a ++ delim :: rest).length = a.length + 1 + rest.length := by
        rw [List.length_append, List.length_cons]
        omega
      obtain ⟨calls, rfl⟩ := Nat.exists_eq_succ_of_ne_zero (Nat.ne_zero_of_lt many)
      obtain ⟨t, copied, call⟩ : ∃ t, Copied s.trace t buf a ∧
          strtok fuel str delim buf s = some (buf, ⟨t, r + BitVec.ofNat 32 a.length + 1⟩) :=
        strtok_piece place start clean (.inr rfl) inside enough string
          fun k bound j below => apart k bound j (by omega)
      rw [length] at inside enough many apart
      have place' : ∀ i, r + BitVec.ofNat 32 a.length + 1 + BitVec.ofNat 32 i =
          r + BitVec.ofNat 32 (a.length + 1 + i) := by
        intro i
        bv_omega
      have kept : StringAt (between t.mem) id (r + BitVec.ofNat 32 a.length + 1) rest := by
        have behind : StringAt s.trace.mem id (r + BitVec.ofNat 32 a.length) (delim :: rest) := string.drop
        cases behind with
        | cons char nonzero string =>
            refine string.congr fun i bound => ?_
            rw [id, place', spares t.mem _ (by omega)]
            exact copied.frame _ fun j below => apart _ (by omega) j (by omega)
      have later : tokens fuel delim buf between calls 0
          ⟨⟨between t.mem, t.written⟩, r + BitVec.ofNat 32 a.length + 1⟩ = some (rest.splitOn delim) := by
        refine ih (.inl ⟨rfl, rfl⟩) (by bv_omega) (by bv_omega) (by bv_omega) (by omega) kept ?_ ?_
        · intro m i bound
          rw [place']
          exact spares m _ (by omega)
        · intro i bound j below
          rw [place']
          exact apart _ (by omega) j (by omega)
      rw [tokens_succ nonnull call copied.copy (by omega), later,
        List.splitOn_append_cons_self_of_not_mem clean]
      rfl

/-- The pieces between the delimiters, empty or not. -/
theorem tokens_splitOn {m : Mem} {str buf : Word} {text : List Byte}
    (given : StringAndBuffer m str buf text) (delim : Byte) (remainder : Word)
    {between : Mem → Mem} (spares : Spares str text between) {fuel calls : Nat}
    (enough : str.toNat + text.length < fuel) (many : text.length + 1 < calls) :
    tokens fuel delim buf between calls str ⟨⟨m, []⟩, remainder⟩ = some (text.splitOn delim) :=
  tokens_eq given.buf_ne text (.inr rfl) given.str_ne given.inside enough many given.string spares
    given.apart

theorem tokenises_iff_splitOn {m : Mem} {str buf : Word} {text : List Byte}
    (given : StringAndBuffer m str buf text) (delim : Byte) :
    Tokenises m str buf text delim ↔ TokensOf delim text (text.splitOn delim) := by
  constructor
  · intro tokenises
    have spares : Spares str text id := fun _ _ _ => rfl
    obtain ⟨n, right⟩ := tokenises 0 id spares
    obtain ⟨all, run, tokens⟩ := right (n + (str.toNat + text.length + 1)) (by omega)
      (n + (text.length + 2)) (by omega)
    cases run.symm.trans (tokens_splitOn given delim 0 spares (by omega) (by omega))
    exact tokens
  · intro tokens remainder between spares
    refine ⟨str.toNat + text.length + 2, fun fuel enough calls many => ⟨_, ?_, tokens⟩⟩
    exact tokens_splitOn given delim remainder spares (by omega) (by omega)

/-- The calls return the tokens exactly when no delimiter is at an end of the string or next to
    another one, and the string is not empty. -/
theorem strtok_tokenises_iff {m : Mem} {str buf : Word} {text : List Byte}
    (given : StringAndBuffer m str buf text) (delim : Byte) :
    Tokenises m str buf text delim ↔ WellDelimited delim text := by
  rw [tokenises_iff_splitOn given, tokensOf_splitOn_iff, nil_notMem_splitOn_iff]

/-- `a b` -/
theorem strtok_tokenises_two :
    Tokenises (memoryOf 0x1000 [0x61, 0x20, 0x62]) 0x1000 0x2000 [0x61, 0x20, 0x62] 0x20 := by
  refine (strtok_tokenises_iff ⟨?_, by decide, by decide, by decide, by decide⟩ 0x20).mpr ?_
  · exact .cons (by decide) (by decide) (.cons (by decide) (by decide)
      (.cons (by decide) (by decide) (.nil (by decide))))
  · exact ⟨by decide, by decide, by decide, by decide⟩

/-- Two spaces between `a` and `b` make an empty argument. -/
theorem strtok_empty_token :
    tokens 8 0x20 0x2000 id 8 0x1000 ⟨⟨memoryOf 0x1000 [0x61, 0x20, 0x20, 0x62], []⟩, 0⟩ =
        some [[0x61], [], [0x62]] ∧
      ¬ Tokenises (memoryOf 0x1000 [0x61, 0x20, 0x20, 0x62]) 0x1000 0x2000
        [0x61, 0x20, 0x20, 0x62] 0x20 := by
  have string : StringAt (memoryOf 0x1000 [0x61, 0x20, 0x20, 0x62]) id 0x1000 [0x61, 0x20, 0x20, 0x62] :=
    .cons (by decide) (by decide) (.cons (by decide) (by decide) (.cons (by decide) (by decide)
      (.cons (by decide) (by decide) (.nil (by decide)))))
  refine ⟨by decide, fun tokenises => ?_⟩
  have tokens :=
    (tokenises_iff_splitOn ⟨string, by decide, by decide, by decide, by decide⟩ 0x20).mp tokenises
  exact tokens.nonempty (by decide)

end ConiferOS.User
