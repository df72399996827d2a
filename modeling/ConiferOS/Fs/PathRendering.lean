import ConiferOS.Fs.PathParser
import ConiferOS.Fs.PathWalk
import ConiferOS.Lib.Tokens

/-! # Paths and their rendering

What `pparser_parse` makes of a path, against the text of the path: the drive digit, `:/` and
the parts with slashes between them. The loop over the parts ends at the first empty one,
which need not be at the end of the path.
-/

namespace ConiferOS.Fs

open Lib

def slash : Byte := 0x2F

/-- The text of a drive and parts. -/
def render (driveNo : Int) (parts : List (List Byte)) : List Byte :=
  BitVec.ofInt 8 (48 + driveNo) :: 0x3A :: slash :: [slash].intercalate parts

def ParsedPath.rendered (root : ParsedPath) : List Byte :=
  render root.driveNo (root.first.map (·.part))

/-! ## One part -/

/-- The loop of `pparser_get_path_part` and the skipped slash: where the path goes on, `i`
    and the buffer. -/
def copyPart : (path : List Byte) → (i : Nat) → (buffer : Nat → Byte) → List Byte × Nat × (Nat → Byte)
  | [], i, buffer => ([], i, buffer)
  | c :: path, i, buffer =>
      if c = slash then (path, i, buffer) else copyPart path (i + 1) (Function.update buffer i c)

/-- What is in the buffer of a part, which was cleared before. -/
def ParsedPart.buffer (part : ParsedPart) : Nat → Byte := cstr part.part

section Part

variable {c : Byte} (path : List Byte)

@[simp] theorem nextPart_nil : nextPart [] = [] := rfl

@[simp] theorem afterPart_nil : afterPart [] = [] := rfl

@[simp] theorem nextPart_slash : nextPart (slash :: path) = [] := rfl

@[simp] theorem afterPart_slash : afterPart (slash :: path) = path := rfl

theorem nextPart_cons (clean : c ≠ slash) : nextPart (c :: path) = c :: nextPart path :=
  List.takeWhile_cons_of_pos (decide_eq_true clean)

theorem afterPart_cons (clean : c ≠ slash) : afterPart (c :: path) = afterPart path := by
  have passed : (c :: path).dropWhile (· ≠ 0x2F) = path.dropWhile (· ≠ 0x2F) :=
    List.dropWhile_cons_of_pos (decide_eq_true clean)
  rw [afterPart, passed, afterPart]

theorem update_cstr (s : List Byte) (c : Byte) :
    Function.update (cstr s) s.length c = cstr (s ++ [c]) := by
  funext i
  induction s generalizing i with
  | nil => cases i <;> rfl
  | cons d s ih =>
      cases i with
      | zero => rfl
      | succ i => simpa [Function.update_apply] using ih i

/-- Induction on what is left of the path; `s` has been copied. -/
theorem copyPart_append (s : List Byte) :
    copyPart path s.length (cstr s) =
      (afterPart path, s.length + (nextPart path).length, cstr (s ++ nextPart path)) := by
  induction path generalizing s with
  | nil => simp [copyPart]
  | cons c path ih =>
      by_cases ends : c = slash
      · simp [copyPart, ends]
      · have next := ih (s ++ [c])
        simpa [copyPart, ends, update_cstr, nextPart_cons, afterPart_cons, add_assoc, add_comm,
          add_left_comm] using next

/-- The name is in the buffer, with zeros behind it. -/
theorem copyPart_eq :
    copyPart path 0 (fun _ => 0) = (afterPart path, (nextPart path).length, cstr (nextPart path)) := by
  have copied := copyPart_append path []
  rwa [List.length_nil, Nat.zero_add, List.nil_append] at copied

theorem slash_notMem_nextPart : slash ∉ nextPart path := by
  induction path with
  | nil => simp
  | cons c path ih =>
      by_cases ends : c = slash
      · simp [ends]
      · simpa [nextPart_cons path ends, ih] using Ne.symm ends

/-- Behind a part there is a slash or nothing. -/
theorem nextPart_append :
    path = nextPart path ∧ afterPart path = [] ∨ path = nextPart path ++ slash :: afterPart path := by
  induction path with
  | nil => simp
  | cons c path ih =>
      by_cases ends : c = slash
      · simp [ends]
      · simpa [nextPart_cons path ends, afterPart_cons path ends] using ih

theorem afterPart_length_le : (afterPart path).length ≤ path.length := by
  rcases nextPart_append path with ⟨-, rest⟩ | whole
  · simp [rest]
  · have length := congrArg List.length whole
    simp only [List.length_append, List.length_cons] at length
    omega

theorem afterPart_shorter (nonempty : nextPart path ≠ []) : (afterPart path).length < path.length := by
  have positive := List.length_pos_iff.mpr nonempty
  rcases nextPart_append path with ⟨whole, rest⟩ | whole
  · rw [rest, whole]
    exact positive
  · have length := congrArg List.length whole
    simp only [List.length_append, List.length_cons] at length
    omega

end Part

/-! ## The parts of a path -/

/-- The parts up to the first empty one. -/
def partsOf (path : List Byte) : List (List Byte) :=
  if nonempty : nextPart path = [] then [] else
    have := afterPart_shorter path nonempty
    nextPart path :: partsOf (afterPart path)
termination_by path.length

theorem partsOf_of_empty {path : List Byte} (empty : nextPart path = []) : partsOf path = [] := by
  rw [partsOf, dif_pos empty]

theorem partsOf_of_nonempty {path : List Byte} (nonempty : nextPart path ≠ []) :
    partsOf path = nextPart path :: partsOf (afterPart path) := by
  rw [partsOf, dif_neg nonempty]

section Parser

variable {σ : Type} {A : Allocator σ} (s : DriverState σ) (path : List Byte)

theorem pparserGetPathPart_ensures :
    (pparserGetPathPart A path).Ensures s fun buffer _ => buffer = none ↔ nextPart path = [] := by
  refine .next fun buffer s => ?_
  split
  case isTrue empty => exact .next fun _ s => .pure (iff_of_true rfl empty)
  case isFalse nonempty =>
    split
    case isTrue => exact .throw _
    case isFalse =>
      split
      case isTrue => exact .throw _
      case isFalse => exact .pure (iff_of_false (by simp) nonempty)

theorem parsePathPart_ensures :
    (parsePathPart A path).Ensures s fun part _ => part.map (·.part) = (partsOf path).head? := by
  refine (pparserGetPathPart_ensures s path).bind fun buffer s found => ?_
  cases buffer with
  | none => exact .pure (by simp [partsOf_of_empty (found.mp rfl)])
  | some buffer =>
      have nonempty : nextPart path ≠ [] := found.not.mp (by simp)
      refine .next fun part s => ?_
      split
      case isTrue => exact .throw _
      case isFalse => exact .pure (by simp [partsOf_of_nonempty nonempty])

theorem partsOf_of_head {part : List Byte} (head : (partsOf path).head? = some part) :
    nextPart path ≠ [] ∧ partsOf path = part :: partsOf (afterPart path) := by
  by_cases empty : nextPart path = []
  · simp [partsOf_of_empty empty] at head
  · rw [partsOf_of_nonempty empty] at head ⊢
    exact ⟨empty, by simpa using head⟩

/-- The loop returns the parts up to the first empty one. -/
theorem parseParts_ensures :
    (parseParts A path).Ensures s fun parts _ => parts.map (·.part) = partsOf path := by
  induction path using (measure List.length).wf.induction generalizing s with
  | _ path ih =>
      rw [parseParts]
      refine (parsePathPart_ensures s path).bind fun part s found => ?_
      cases part with
      | none => exact .pure (by simpa using found.symm)
      | some part =>
          obtain ⟨-, parts⟩ := partsOf_of_head path found.symm
          dsimp only
          split
          case isTrue shorter =>
            refine (ih _ shorter s).bind fun rest s later => .pure ?_
            rw [parts, List.map_cons, later]
          case isFalse => exact .throw _

theorem parseFromDrive_ensures (driveNo : Int) :
    (parseFromDrive A driveNo path).Ensures s fun root _ =>
      root.map (fun root => (root.driveNo, root.first.map (·.part))) =
        if partsOf path = [] then none else some (driveNo, partsOf path) := by
  have created : (pparserCreateRoot A driveNo).Ensures s fun root _ => root.driveNo = driveNo := by
    refine .next fun root s => ?_
    split
    case isTrue => exact .throw _
    case isFalse => exact .pure rfl
  refine created.bind fun root s drive => ?_
  refine (parsePathPart_ensures s path).bind fun part s found => ?_
  cases part with
  | none => exact .pure (if_pos (by simpa using found.symm)).symm
  | some part =>
      obtain ⟨-, parts⟩ := partsOf_of_head path found.symm
      refine (parseParts_ensures s _).bind fun rest s later => .pure ?_
      simp [parts, later, drive]

end Parser

/-! ## Calls that return -/

section Returns

variable {σ : Type} {A : Allocator σ} (serves : A.Serves) (s : DriverState σ) {path : List Byte}
include serves

theorem parsePathPart_returns (short : path.length ≤ maxFilePathChars) :
    (parsePathPart A path).Yields s fun _ _ => True := by
  have fits : (nextPart path).length ≤ maxFilePathChars :=
    (List.takeWhile_prefix _).length_le.trans short
  have buffer : (pparserGetPathPart A path).Yields s fun _ _ => True := by
    refine (alloc_yields serves _ s).bind fun buffer s nonnull => ?_
    split
    case isTrue => exact (free_yields buffer s).bind fun _ s _ => .pure trivial
    case isFalse =>
      rw [if_neg (not_lt.mpr fits)]
      exact .pure trivial
  refine buffer.bind fun buffer s _ => ?_
  cases buffer with
  | none => exact .pure trivial
  | some buffer =>
      refine (alloc_yields serves _ s).bind fun part s nonnull => ?_
      rw [if_neg nonnull]
      exact .pure trivial

theorem parseParts_returns (short : path.length ≤ maxFilePathChars) :
    (parseParts A path).Yields s fun _ _ => True := by
  induction path using (measure List.length).wf.induction generalizing s with
  | _ path ih =>
      rw [parseParts]
      refine ((parsePathPart_ensures s path).yields (parsePathPart_returns serves s short)).bind
        fun part s found => ?_
      cases part with
      | none => exact .pure trivial
      | some part =>
          obtain ⟨nonempty, -⟩ := partsOf_of_head path found.symm
          have shorter := afterPart_shorter path nonempty
          dsimp only
          rw [dif_pos shorter]
          exact (ih _ shorter s (shorter.le.trans short)).bind fun rest s _ => .pure trivial

/-- With room for what is allocated, every path is parsed or turned down. -/
theorem pparserParse_returns (path : List Byte) : (pparserParse A path).Yields s fun _ _ => True := by
  by_cases rejected : PathRejected path
  · rw [pparserParse_rejected A rejected]
    exact .pure trivial
  · have short : path.length ≤ maxFilePathChars := not_lt.mp fun long => rejected (.inl long)
    have rest : (path.drop 3).length ≤ maxFilePathChars := by
      rw [List.length_drop]
      omega
    rw [pparserParse_accepted A rejected]
    have created : (pparserCreateRoot A (ctoi (path.getD 0 0))).Yields s fun _ _ => True := by
      refine (alloc_yields serves _ s).bind fun root s nonnull => ?_
      rw [if_neg nonnull]
      exact .pure trivial
    refine created.bind fun root s _ => ?_
    refine (parsePathPart_returns serves s rest).bind fun part s _ => ?_
    cases part with
    | none => exact .pure trivial
    | some part =>
        have shorter : (afterPart (path.drop 3)).length ≤ maxFilePathChars :=
          (afterPart_length_le _).trans rest
        exact (parseParts_returns serves s shorter).bind fun rest s _ => .pure trivial

end Returns

/-! ## A rendered path -/

section Rendered

variable {c : List Byte} (clean : slash ∉ c)
include clean

theorem nextPart_of_clean : nextPart c = c ∧ afterPart c = [] := by
  induction c with
  | nil => simp
  | cons d c ih =>
      obtain ⟨first, clean⟩ := not_or.mp (List.mem_cons.not.mp clean)
      simp [nextPart_cons c (Ne.symm first), afterPart_cons c (Ne.symm first), ih clean]

theorem nextPart_of_slash (rest : List Byte) :
    nextPart (c ++ slash :: rest) = c ∧ afterPart (c ++ slash :: rest) = rest := by
  induction c with
  | nil => simp
  | cons d c ih =>
      obtain ⟨first, clean⟩ := not_or.mp (List.mem_cons.not.mp clean)
      simp [nextPart_cons _ (Ne.symm first), afterPart_cons _ (Ne.symm first), ih clean]

end Rendered

/-- A name that can stand between slashes. -/
structure Component (c : List Byte) : Prop where
  nonempty : c ≠ []
  clean : slash ∉ c
  nonzero : 0 ∉ c

theorem partsOf_append {c : List Byte} (nonempty : c ≠ []) (clean : slash ∉ c) (rest : List Byte) :
    partsOf (c ++ slash :: rest) = c :: partsOf rest := by
  obtain ⟨next, after⟩ := nextPart_of_slash clean rest
  rw [partsOf_of_nonempty (by rwa [next]), next, after]

theorem partsOf_intercalate {parts : List (List Byte)} (nonempty : parts ≠ [])
    (components : ∀ c ∈ parts, Component c) :
    partsOf ([slash].intercalate parts) = parts ∧
      partsOf ([slash].intercalate parts ++ [slash]) = parts := by
  induction parts with
  | nil => exact absurd rfl nonempty
  | cons c parts ih =>
      have component := components c (by simp)
      have append := partsOf_append component.nonempty component.clean
      cases parts with
      | nil =>
          obtain ⟨next, after⟩ := nextPart_of_clean component.clean
          have whole : partsOf c = [c] := by
            rw [partsOf_of_nonempty (by rw [next]; exact component.nonempty), next, after,
              partsOf_of_empty nextPart_nil]
          simpa [append, partsOf_of_empty nextPart_nil] using whole
      | cons d parts =>
          obtain ⟨plain, trailing⟩ := ih (by simp) fun c member => components c (by simp [member])
          simp [List.intercalate_cons_cons, append, plain, trailing]

/-- A root for the drive with exactly these parts, each with a zero behind it in its buffer. -/
def ParsesAs (driveNo : Int) (parts : List (List Byte)) (result : Option ParsedPath) : Prop :=
  ∃ root, result = some root ∧ root.driveNo = driveNo ∧ root.first.map (·.part) = parts ∧
    ∀ part ∈ root.first, ∃ n < maxFilePathChars, (List.range n).map part.buffer = part.part ∧
      part.buffer n = 0

theorem buffer_terminated {part : ParsedPart} (short : part.part.length < maxFilePathChars) :
    ∃ n < maxFilePathChars, (List.range n).map part.buffer = part.part ∧ part.buffer n = 0 := by
  refine ⟨part.part.length, short, ?_, ?_⟩
  · apply List.ext_getElem
    · simp
    · intro i _ inside
      simp [ParsedPart.buffer, cstr, inside]
  · simp [ParsedPart.buffer, cstr]

theorem render_accepted {driveNo : Nat} (digit : driveNo < 10) {rest : List Byte}
    (short : rest.length + 3 ≤ maxFilePathChars) :
    ¬ PathRejected (BitVec.ofInt 8 (48 + driveNo) :: 0x3A :: slash :: rest) ∧
      ctoi (BitVec.ofInt 8 (48 + driveNo)) = driveNo := by
  have digits : ∀ d < 10, isDigit (BitVec.ofInt 8 (48 + (d : Nat))) = true ∧
      ctoi (BitVec.ofInt 8 (48 + (d : Nat))) = d := by decide
  obtain ⟨isDigit, value⟩ := digits driveNo digit
  refine ⟨?_, value⟩
  rintro (long | invalid)
  · simp only [List.length_cons] at long
    omega
  · simp [pathValidForm, strnlen, isDigit, slash, maxFilePathChars] at invalid

theorem length_le_intercalate {parts : List (List Byte)} {c : List Byte} (member : c ∈ parts) :
    c.length ≤ ([slash].intercalate parts).length := by
  induction parts with
  | nil => simp at member
  | cons d parts ih =>
      cases parts with
      | nil => simp_all
      | cons e parts =>
          rw [List.intercalate_cons_cons]
          rcases List.mem_cons.mp member with rfl | member
          · simp
          · have later := ih member
            simp only [List.length_append]
            omega

theorem parsesAs_of_map {driveNo : Int} {parts : List (List Byte)} {result : Option ParsedPath}
    (parsed : result.map (fun root => (root.driveNo, root.first.map (·.part))) = some (driveNo, parts))
    (short : ∀ c ∈ parts, c.length < maxFilePathChars) : ParsesAs driveNo parts result := by
  obtain ⟨root, rfl, same⟩ := Option.map_eq_some_iff.mp parsed
  cases same
  refine ⟨root, rfl, rfl, rfl, fun part member => buffer_terminated (short part.part ?_)⟩
  exact List.mem_map_of_mem member

/-- A path that was rendered is parsed into what it was rendered from. -/
theorem path_rendering_inverted {driveNo : Nat} (digit : driveNo < 10) {parts : List (List Byte)}
    (nonempty : parts ≠ []) (components : ∀ c ∈ parts, Component c) {path : List Byte}
    (rendered : path = render driveNo parts ∨ path = render driveNo parts ++ [slash])
    (short : path.length ≤ maxFilePathChars) {σ : Type} (A : Allocator σ) (s : DriverState σ) :
    (A.Serves → (pparserParse A path).Yields s fun root _ => ParsesAs driveNo parts root) ∧
      (pparserParse A path).Ensures s fun root _ => ParsesAs driveNo parts root := by
  obtain ⟨plain, trailing⟩ := partsOf_intercalate nonempty components
  obtain ⟨rest, whole, split, long⟩ : ∃ rest,
      path = BitVec.ofInt 8 (48 + driveNo) :: 0x3A :: slash :: rest ∧ partsOf rest = parts ∧
        ([slash].intercalate parts).length ≤ rest.length := by
    rcases rendered with rfl | rfl
    · exact ⟨_, rfl, plain, le_rfl⟩
    · exact ⟨_, rfl, trailing, by simp⟩
  have room : rest.length + 3 ≤ maxFilePathChars := by
    rw [whole] at short
    exact short
  obtain ⟨accepted, drive⟩ := render_accepted digit room
  have ensures : (pparserParse A path).Ensures s fun root _ => ParsesAs driveNo parts root := by
    rw [whole, pparserParse_accepted A accepted]
    intro root s' run
    have parsed := parseFromDrive_ensures s _ _ root s' run
    refine parsesAs_of_map ?_ fun c member => ?_
    · simpa [split, nonempty, drive] using parsed
    · have inside := length_le_intercalate member
      omega
  exact ⟨fun serves => ensures.yields (pparserParse_returns serves s path), ensures⟩

/-- `0:/a/b` and a slash. -/
theorem path_rendering_inverted_two :
    (pparserParse plentiful (render 0 [[0x61], [0x62]] ++ [slash])).Yields ⟨(), freshStreams⟩
      fun root _ => ParsesAs 0 [[0x61], [0x62]] root := by
  have components : ∀ c ∈ [[0x61], [(0x62 : Byte)]], Component c := by
    intro c member
    have either : c = [0x61] ∨ c = [0x62] := by simpa using member
    rcases either with rfl | rfl
    · exact ⟨by simp, by decide, by decide⟩
    · exact ⟨by simp, by decide, by decide⟩
  have inverted := path_rendering_inverted (by decide) (by simp) components (.inr rfl)
    (show (render 0 [[0x61], [0x62]] ++ [slash]).length ≤ maxFilePathChars by decide)
    plentiful ⟨(), freshStreams⟩
  exact inverted.1 plentiful_serves

/-! ## Slashes in a row -/

/-- Nothing but one trailing slash is missing from the rendering of the parts. -/
def Kept (path : List Byte) : Prop :=
  path = [slash].intercalate (partsOf path) ∨ path = [slash].intercalate (partsOf path) ++ [slash]

theorem kept_append_iff {c : List Byte} (nonempty : c ≠ []) (clean : slash ∉ c) (rest : List Byte) :
    Kept (c ++ slash :: rest) ↔ rest = [] ∨ nextPart rest ≠ [] ∧ Kept rest := by
  rw [Kept, Kept, partsOf_append nonempty clean]
  by_cases last : nextPart rest = []
  · simp [partsOf_of_empty last, last]
  · have more : rest ≠ [] := by
      rintro rfl
      exact last nextPart_nil
    rw [partsOf_of_nonempty last, List.intercalate_cons_cons]
    simp [last, more]

/-- Induction on the parts: behind the first one, the rest of the path is kept or not. -/
theorem kept_iff {path : List Byte} (nonempty : nextPart path ≠ []) :
    Kept path ↔ ¬ [slash, slash] <:+: path := by
  induction path using (measure List.length).wf.induction with
  | _ path ih =>
      have clean := slash_notMem_nextPart path
      have shorter := afterPart_shorter path nonempty
      rcases nextPart_append path with ⟨whole, after⟩ | whole
      · have parts := partsOf_of_nonempty nonempty
        rw [after, partsOf_of_empty nextPart_nil] at parts
        refine iff_of_true (.inl ?_) fun doubled => clean ?_
        · simpa [parts] using whole
        · rw [← whole]
          exact doubled.subset (by simp)
      · have kept := kept_append_iff nonempty clean (afterPart path)
        have doubled := doubled_append_iff clean (afterPart path)
        rw [← whole] at kept doubled
        rw [kept, doubled]
        cases after : afterPart path with
        | nil => simp
        | cons d rest =>
            by_cases again : d = slash
            · simp [again]
            · have next : nextPart (d :: rest) ≠ [] := by simp [nextPart_cons rest again]
              rw [after] at shorter
              simp [next, again, ih _ shorter next]

theorem accepted_form {path : List Byte} (accepted : ¬ PathRejected path) :
    ∃ c rest, path = c :: 0x3A :: slash :: rest ∧ BitVec.ofInt 8 (48 + ctoi c) = c := by
  have valid : pathValidForm path = true := by simpa using (not_or.mp accepted).2
  obtain ⟨long, digit, form⟩ := of_decide_eq_true valid
  rcases path with _ | ⟨c, _ | ⟨d, _ | ⟨e, rest⟩⟩⟩
  iterate 3 simp [strnlen, maxFilePathChars] at long
  have value : 48 + ctoi c = c.toInt := by
    rw [ctoi, if_pos (by simpa using digit)]
    omega
  obtain ⟨rfl, rfl⟩ : d = 0x3A ∧ e = slash := by simpa [slash] using form
  exact ⟨c, rest, rfl, by rw [value, BitVec.ofInt_toInt]⟩

/-- What a root is made of. -/
theorem accepted_parts {σ : Type} {A : Allocator σ} {s s' : DriverState σ} {path : List Byte}
    {root : ParsedPath} (run : (pparserParse A path).run s = .ok (some root, s')) :
    ∃ c rest, path = c :: 0x3A :: slash :: rest ∧ nextPart rest ≠ [] ∧
      root.rendered = c :: 0x3A :: slash :: [slash].intercalate (partsOf rest) := by
  have accepted : ¬ PathRejected path := by
    intro rejected
    rw [pparserParse_rejected A rejected] at run
    cases run
  obtain ⟨c, rest, rfl, digit⟩ := accepted_form accepted
  rw [pparserParse_accepted A accepted] at run
  have parsed := parseFromDrive_ensures s _ _ (some root) s' run
  split at parsed
  case isTrue => simp at parsed
  case isFalse nonempty =>
    obtain ⟨drive, parts⟩ : root.driveNo = ctoi c ∧ root.first.map (·.part) = partsOf rest := by
      simpa using parsed
    refine ⟨c, rest, rfl, fun empty => nonempty (partsOf_of_empty empty), ?_⟩
    rw [ParsedPath.rendered, render, drive, parts, digit]

/-- A path with a first part is accepted. -/
theorem pparserParse_accepts {σ : Type} {A : Allocator σ} (serves : A.Serves) (s : DriverState σ)
    {path : List Byte} (accepted : ¬ PathRejected path) (nonempty : partsOf (path.drop 3) ≠ []) :
    (pparserParse A path).Yields s fun result _ => ∃ root, result = some root ∧
      root.driveNo = ctoi (path.getD 0 0) ∧ root.first.map (·.part) = partsOf (path.drop 3) := by
  obtain ⟨result, s', run, -⟩ := pparserParse_returns serves s path
  refine ⟨result, s', run, ?_⟩
  rw [pparserParse_accepted A accepted] at run
  have parsed := parseFromDrive_ensures s _ _ result s' run
  rw [if_neg nonempty] at parsed
  obtain ⟨root, rfl, same⟩ := Option.map_eq_some_iff.mp parsed
  obtain ⟨drive, parts⟩ := Prod.mk.injEq .. ▸ same
  exact ⟨root, rfl, drive, parts⟩

/-- `0:/a//b`. -/
def doubledPath : List Byte := [0x30, 0x3A, 0x2F, 0x61, 0x2F, 0x2F, 0x62]

theorem doubledPath_parts : partsOf (doubledPath.drop 3) = [[0x61]] := by
  have first : nextPart [0x61, 0x2F, 0x2F, 0x62] = [0x61] := by decide
  have second : nextPart (afterPart [0x61, 0x2F, 0x2F, 0x62]) = [] := by decide
  have nonempty : nextPart [0x61, 0x2F, 0x2F, 0x62] ≠ [] := by decide
  calc partsOf [0x61, 0x2F, 0x2F, 0x62] = [0x61] :: partsOf (afterPart [0x61, 0x2F, 0x2F, 0x62]) := by
        rw [partsOf_of_nonempty nonempty, first]
    _ = [[0x61]] := by rw [partsOf_of_empty second]

end ConiferOS.Fs
