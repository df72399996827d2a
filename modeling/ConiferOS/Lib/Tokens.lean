import Mathlib

/-! # Tokens

A token of a list is a stretch without delimiters that is not empty and cannot be made longer.
Splitting at every delimiter gives the tokens, and an empty piece wherever there is nothing
between two delimiters or at an end.
-/

namespace ConiferOS.Lib

section

variable {α : Type*} {d : α} {text : List α}

/-- The elements from `i` up to `j`. -/
@[mk_iff]
structure IsToken (d : α) (text : List α) (i j : Nat) : Prop where
  nonempty : i < j
  inside : j ≤ text.length
  clean : ∀ k, i ≤ k → k < j → text[k]? ≠ some d
  left : i = 0 ∨ text[i - 1]? = some d
  right : j = text.length ∨ text[j]? = some d

/-- All tokens from left to right. -/
def TokensOf (d : α) (text : List α) (tokens : List (List α)) : Prop :=
  ∃ spans : List (Nat × Nat), spans.Pairwise (fun s s' => s.1 < s'.1) ∧
    (∀ i j, (i, j) ∈ spans ↔ IsToken d text i j) ∧
    tokens = spans.map fun s => (text.take s.2).drop s.1

theorem TokensOf.nonempty {tokens : List (List α)} (all : TokensOf d text tokens) : [] ∉ tokens := by
  obtain ⟨spans, -, member_iff, rfl⟩ := all
  intro member
  obtain ⟨⟨i, j⟩, span, empty⟩ := List.mem_map.mp member
  have token := (member_iff i j).mp span
  have length := congrArg List.length empty
  have inside := token.inside
  have longer := token.nonempty
  simp at length
  omega

/-- A list has no delimiter, or goes on behind its first one. -/
@[elab_as_elim]
theorem splitInduction [DecidableEq α] {motive : List α → Prop} (d : α)
    (last : ∀ a, d ∉ a → motive a) (more : ∀ a rest, d ∉ a → motive rest → motive (a ++ d :: rest))
    (text : List α) : motive text := by
  induction size : text.length using Nat.strong_induction_on generalizing text with
  | _ n ih =>
      by_cases found : d ∈ text
      · obtain ⟨a, rest, rfl, clean⟩ := List.eq_append_cons_of_mem found
        rw [List.length_append, List.length_cons] at size
        exact more a rest clean (ih rest.length (by omega) rest rfl)
      · exact last text found

theorem getElem?_ne_of_notMem (clean : d ∉ text) (k : Nat) : text[k]? ≠ some d :=
  fun found => clean (List.mem_of_getElem? found)

theorem isToken_clean_iff (clean : d ∉ text) (i j : Nat) :
    IsToken d text i j ↔ i = 0 ∧ j = text.length ∧ text ≠ [] := by
  constructor
  · intro token
    have first : i = 0 := token.left.resolve_right (getElem?_ne_of_notMem clean _)
    have whole : j = text.length := token.right.resolve_right (getElem?_ne_of_notMem clean _)
    have longer := token.nonempty
    refine ⟨first, whole, List.ne_nil_of_length_pos (by omega)⟩
  · rintro ⟨rfl, rfl, nonempty⟩
    exact ⟨List.length_pos_iff.mpr nonempty, le_rfl, fun k _ _ => getElem?_ne_of_notMem clean k,
      .inl rfl, .inl rfl⟩

theorem getElem?_behind (a rest : List α) (d : α) (k : Nat) :
    (a ++ d :: rest)[k + (a.length + 1)]? = rest[k]? := by
  rw [List.getElem?_append_right (by omega)]
  have place : k + (a.length + 1) - a.length = k + 1 := by omega
  rw [place, List.getElem?_cons_succ]

/-- The tokens behind a delimiter are those of the rest. -/
theorem isToken_behind_iff (a rest : List α) (d : α) (i j : Nat) :
    IsToken d (a ++ d :: rest) (i + (a.length + 1)) (j + (a.length + 1)) ↔ IsToken d rest i j := by
  have length : (a ++ d :: rest).length = rest.length + (a.length + 1) := by
    rw [List.length_append, List.length_cons]
    omega
  have left : (a ++ d :: rest)[i + (a.length + 1) - 1]? = some d ↔ i = 0 ∨ rest[i - 1]? = some d := by
    cases i with
    | zero => simp
    | succ i =>
        have place : i + 1 + (a.length + 1) - 1 = i + (a.length + 1) := by omega
        rw [place, getElem?_behind]
        simp
  have clean : (∀ k, i + (a.length + 1) ≤ k → k < j + (a.length + 1) → (a ++ d :: rest)[k]? ≠ some d) ↔
      ∀ k, i ≤ k → k < j → rest[k]? ≠ some d := by
    constructor
    · intro free k lower upper
      rw [← getElem?_behind a rest d k]
      exact free _ (by omega) (by omega)
    · intro free k lower upper
      obtain ⟨k, rfl⟩ : ∃ k', k = k' + (a.length + 1) := ⟨k - (a.length + 1), by omega⟩
      rw [getElem?_behind]
      exact free k (by omega) (by omega)
  simp only [isToken_iff, length, left, clean, getElem?_behind]
  simp

/-- A token does not reach across a delimiter. -/
theorem isToken_front_iff {a : List α} (clean : d ∉ a) (rest : List α) {i j : Nat} (front : i ≤ a.length) :
    IsToken d (a ++ d :: rest) i j ↔ i = 0 ∧ j = a.length ∧ a ≠ [] := by
  have before : ∀ k < a.length, (a ++ d :: rest)[k]? ≠ some d := by
    intro k inside
    rw [List.getElem?_append_left inside]
    exact getElem?_ne_of_notMem clean k
  have delimiter : (a ++ d :: rest)[a.length]? = some d := by simp
  constructor
  · intro token
    have longer := token.nonempty
    have short : j ≤ a.length := by
      by_contra across
      exact token.clean a.length front (by omega) delimiter
    have first : i = 0 := by
      rcases token.left with first | found
      · exact first
      · exact absurd found (before (i - 1) (by omega))
    have whole : j = a.length := by
      by_contra shorter
      rcases token.right with ends | found
      · rw [List.length_append, List.length_cons] at ends
        omega
      · exact before j (by omega) found
    exact ⟨first, whole, List.ne_nil_of_length_pos (by omega)⟩
  · rintro ⟨rfl, rfl, nonempty⟩
    exact ⟨List.length_pos_iff.mpr nonempty, by simp, fun k _ inside => before k inside,
      .inl rfl, .inr delimiter⟩

theorem stretch_behind (a rest : List α) (d : α) (i j : Nat) :
    ((a ++ d :: rest).take (j + (a.length + 1))).drop (i + (a.length + 1)) = (rest.take j).drop i := by
  have shorter : j + (a.length + 1) - a.length = j + 1 := by omega
  have later : i + (a.length + 1) - a.length = i + 1 := by omega
  rw [List.take_append, List.take_of_length_le (by omega), List.drop_append,
    List.drop_eq_nil_of_le (by omega), List.nil_append, shorter, later, List.take_succ_cons,
    List.drop_succ_cons]

/-- Where the first piece is. -/
def firstSpan (a : List α) : List (Nat × Nat) := if a = [] then [] else [(0, a.length)]

theorem mem_firstSpan {a : List α} {i j : Nat} :
    (i, j) ∈ firstSpan a ↔ i = 0 ∧ j = a.length ∧ a ≠ [] := by
  rw [firstSpan]
  split <;> simp [*]

theorem pairwise_firstSpan (a : List α) : (firstSpan a).Pairwise fun s s' => s.1 < s'.1 := by
  rw [firstSpan]
  split <;> simp

theorem map_firstSpan (a rest : List α) :
    ((firstSpan a).map fun s => ((a ++ rest).take s.2).drop s.1) = [a].filter (· ≠ []) := by
  rw [firstSpan]
  split <;> simp [*]

theorem TokensOf.last {a : List α} (clean : d ∉ a) : TokensOf d a ([a].filter (· ≠ [])) := by
  refine ⟨firstSpan a, pairwise_firstSpan a, fun i j => ?_, ?_⟩
  · rw [mem_firstSpan, isToken_clean_iff clean]
  · rw [← map_firstSpan a [], List.append_nil]

theorem TokensOf.more {a rest : List α} {tokens : List (List α)} (clean : d ∉ a)
    (all : TokensOf d rest tokens) :
    TokensOf d (a ++ d :: rest) ([a].filter (· ≠ []) ++ tokens) := by
  obtain ⟨spans, sorted, member_iff, rfl⟩ := all
  refine ⟨firstSpan a ++ spans.map (fun s => (s.1 + (a.length + 1), s.2 + (a.length + 1))), ?_,
    fun i j => ?_, ?_⟩
  · refine List.pairwise_append.mpr ⟨pairwise_firstSpan a, ?_, ?_⟩
    · exact List.pairwise_map.mpr (sorted.imp fun less => Nat.add_lt_add_right less _)
    · rintro ⟨i, j⟩ here s later
      obtain ⟨s, -, rfl⟩ := List.mem_map.mp later
      obtain ⟨rfl, -⟩ := mem_firstSpan.mp here
      exact Nat.succ_pos _
  · rw [List.mem_append, List.mem_map]
    rcases Nat.lt_or_ge a.length i with behind | front
    · have notFirst : (i, j) ∉ firstSpan a := by
        rw [mem_firstSpan]
        omega
      rw [or_iff_right notFirst]
      constructor
      · rintro ⟨⟨i', j'⟩, span, same⟩
        obtain ⟨rfl, rfl⟩ := Prod.mk.inj same
        exact (isToken_behind_iff a rest d i' j').mpr ((member_iff i' j').mp span)
      · intro token
        have longer := token.nonempty
        obtain ⟨i, rfl⟩ := Nat.exists_eq_add_of_le' behind
        obtain ⟨j, rfl⟩ : ∃ j', j = j' + (a.length + 1) := ⟨j - (a.length + 1), by omega⟩
        exact ⟨(i, j), (member_iff i j).mpr ((isToken_behind_iff a rest d i j).mp token), rfl⟩
    · have notBehind : ¬ ∃ s ∈ spans, (s.1 + (a.length + 1), s.2 + (a.length + 1)) = (i, j) := by
        rintro ⟨s, -, same⟩
        have start := congrArg Prod.fst same
        simp only at start
        omega
      rw [or_iff_left notBehind, mem_firstSpan, isToken_front_iff clean rest front]
  · rw [List.map_append, map_firstSpan, List.map_map]
    simp only [Function.comp_def, stretch_behind]

/-- No delimiter is at an end or next to another one, and there is something at all. -/
structure WellDelimited (d : α) (text : List α) : Prop where
  nonempty : text ≠ []
  first : text.head? ≠ some d
  last : text.getLast? ≠ some d
  doubled : ¬ [d, d] <:+: text

/-- Two delimiters meet behind a piece, or further on. -/
theorem doubled_append_iff {a : List α} (clean : d ∉ a) (rest : List α) :
    [d, d] <:+: a ++ d :: rest ↔ rest.head? = some d ∨ [d, d] <:+: rest := by
  induction a with
  | nil =>
      cases rest with
      | nil => simp [List.infix_cons_iff]
      | cons e rest => simp [List.infix_cons_iff, eq_comm]
  | cons e a ih =>
      obtain ⟨first, clean⟩ := not_or.mp (List.mem_cons.not.mp clean)
      simpa [List.infix_cons_iff, first] using ih clean

theorem wellDelimited_append_iff {a : List α} (clean : d ∉ a) (rest : List α) :
    WellDelimited d (a ++ d :: rest) ↔ a ≠ [] ∧ WellDelimited d rest := by
  have first : (a ++ d :: rest).head? ≠ some d ↔ a ≠ [] := by
    cases a with
    | nil => simp
    | cons c a => simpa [eq_comm] using (List.ne_and_not_mem_of_not_mem_cons clean).1
  have last : (a ++ d :: rest).getLast? ≠ some d ↔ rest ≠ [] ∧ rest.getLast? ≠ some d := by
    cases rest with
    | nil => simp
    | cons c rest => simp
  constructor
  · intro well
    have nonempty := last.mp well.last
    have apart := not_or.mp ((doubled_append_iff clean rest).not.mp well.doubled)
    exact ⟨first.mp well.first, nonempty.1, apart.1, nonempty.2, apart.2⟩
  · rintro ⟨nonempty, well⟩
    refine ⟨by simp, first.mpr nonempty, last.mpr ⟨well.nonempty, well.last⟩, ?_⟩
    exact (doubled_append_iff clean rest).not.mpr (not_or.mpr ⟨well.first, well.doubled⟩)

variable [DecidableEq α]

/-- The pieces that are not empty. -/
theorem tokensOf_splitOn (d : α) (text : List α) :
    TokensOf d text ((text.splitOn d).filter (· ≠ [])) := by
  induction text using splitInduction d with
  | last a clean =>
      rw [List.splitOn_eq_singleton clean]
      exact .last clean
  | more a rest clean ih =>
      rw [List.splitOn_append_cons_self_of_not_mem clean, ← List.singleton_append (x := a),
        List.filter_append]
      exact ih.more clean

/-- All pieces are tokens exactly when none is empty. -/
theorem tokensOf_splitOn_iff (d : α) (text : List α) :
    TokensOf d text (text.splitOn d) ↔ [] ∉ text.splitOn d := by
  refine ⟨TokensOf.nonempty, fun nonempty => ?_⟩
  have kept : (text.splitOn d).filter (· ≠ []) = text.splitOn d := by
    rw [List.filter_eq_self]
    intro piece member
    exact decide_eq_true fun empty => nonempty (empty ▸ member)
  exact kept ▸ tokensOf_splitOn d text

theorem nil_notMem_splitOn_iff (d : α) (text : List α) :
    [] ∉ text.splitOn d ↔ WellDelimited d text := by
  induction text using splitInduction d with
  | last a clean =>
      rw [List.splitOn_eq_singleton clean, List.mem_singleton]
      constructor
      · intro nonempty
        refine ⟨Ne.symm nonempty, fun found => clean (List.mem_of_head? found),
          fun found => clean (List.mem_of_getLast? found), fun found => clean (found.subset (by simp))⟩
      · exact fun well => Ne.symm well.nonempty
  | more a rest clean ih =>
      rw [List.splitOn_append_cons_self_of_not_mem clean, List.mem_cons, not_or, ih,
        wellDelimited_append_iff clean, eq_comm]

end

end ConiferOS.Lib
