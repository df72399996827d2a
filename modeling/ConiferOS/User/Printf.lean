import ConiferOS.User.Itoa

/-! # Formatted printing

`printf` of the user library goes through the format with one pointer, which a directive moves
twice. Behind a percent sign at the end of the format it is moved past the terminator, and the
loop goes on with whatever is there. Integers are printed as `itoa` writes them.
-/

namespace ConiferOS.User

open Lib

def percent : Byte := 0x25

/-- The offset of `p` in the format, the next argument, the offsets that have been read, and the
    characters handed to `coniferos_putchar` and `print`. -/
structure Printing where
  p : Nat
  v1 : Word
  reads : List Nat
  out : List Byte

namespace Printing

/-- `*p` -/
def char (m : Mem) (fmt : Word) (s : Printing) : Byte := m (fmt + BitVec.ofNat 32 s.p)

def read (s : Printing) : Printing := { s with reads := s.p :: s.reads }

def next (s : Printing) : Printing := { s with p := s.p + 1 }

def vaArg (s : Printing) : Printing := { s with v1 := s.v1 + 4 }

def putchar (c : Byte) (s : Printing) : Printing := { s with out := s.out ++ [c] }

def print (text : List Byte) (s : Printing) : Printing := { s with out := s.out ++ text }

end Printing

/-- The body of the loop. `str` is an array of its own, with zeros in it. -/
def printfBody (m : Mem) (fmt : Word) (fuel : Nat) (s : Printing) : Option Printing :=
  if s.char m fmt ≠ percent then some (s.putchar (s.char m fmt))
  else
    let s := s.next.read
    if s.char m fmt = 0x69 then
      let ival := m.load32 s.v1
      let str := (itoa ival 0 ⟨fun _ => 0, []⟩).2.mem
      (readString str fuel 0).map fun text => s.vaArg.print text
    else if s.char m fmt = 0x73 then
      let sval := m.load32 s.v1
      (readString m fuel sval).map fun text => s.vaArg.print text
    else some (s.putchar (s.char m fmt))

/-- `none` when the loop, or one of the strings, has not come to an end after `fuel` steps. -/
def printfLoop (m : Mem) (fmt : Word) : (fuel : Nat) → Printing → Option Printing
  | 0, _ => none
  | fuel + 1, s =>
      let s := s.read
      if s.char m fmt = 0 then some s
      else
        match printfBody m fmt fuel s with
        | none => none
        | some s => printfLoop m fmt fuel s.next

/-- `v1` is where the arguments behind `fmt` begin. -/
def printf (fuel : Nat) (m : Mem) (fmt v1 : Word) : Option (Int × Printing) :=
  (printfLoop m fmt fuel ⟨0, v1, [], []⟩).map fun s => (0, s)

/-! ## What is asked for -/

inductive Directive where
  | char (c : Byte)
  | int
  | str
  /-- A percent sign at the end of the format. -/
  | lone
  deriving DecidableEq

def directives : (format : List Byte) → List Directive
  | [] => []
  | c :: rest =>
      if c ≠ percent then .char c :: directives rest
      else
        match rest with
        | [] => [.lone]
        | x :: rest =>
            if x = 0x69 then .int :: directives rest
            else if x = 0x73 then .str :: directives rest
            else .char x :: directives rest

inductive Arg where
  | int (value : Word)
  | str (text : List Byte)

/-- One integer for each `%i` and one string for each `%s`. -/
inductive Asks : List Directive → List Arg → Prop where
  | nil : Asks [] []
  | char : Asks ds args → Asks (.char c :: ds) args
  | int : Asks ds args → Asks (.int :: ds) (.int value :: args)
  | str : Asks ds args → Asks (.str :: ds) (.str text :: args)
  | lone : Asks [.lone] []

/-- The arguments are on the stack, from `v1` on. -/
inductive Passed (m : Mem) : (v1 : Word) → List Arg → Prop where
  | nil : Passed m v1 []
  | int : m.load32 v1 = value → Passed m (v1 + 4) args → Passed m v1 (.int value :: args)
  | str : StringAt m id (m.load32 v1) text → Passed m (v1 + 4) args → Passed m v1 (.str text :: args)

/-- The output, with the text that an integer gets. -/
def output (int : Word → List Byte) : List Directive → List Arg → List Byte
  | .char c :: ds, args => c :: output int ds args
  | .int :: ds, .int value :: args => int value ++ output int ds args
  | .str :: ds, .str text :: args => text ++ output int ds args
  | _, _ => []

/-- `printf` comes to an end with the output, and does not read behind the format. -/
def Formats (m : Mem) (fmt v1 : Word) (format : List Byte) (args : List Arg) : Prop :=
  ∃ n, ∀ fuel ≥ n, ∃ s, printf fuel m fmt v1 = some (0, s) ∧
    s.out = output (fun value => numeral value.toInt) (directives format) args ∧
    ∀ k ∈ s.reads, k ≤ format.length

/-! ## One directive -/

section Loop

variable {m : Mem} {fmt : Word} {fuel : Nat} {s : Printing} {c : Byte} {text : List Byte}

theorem printfLoop_end (zero : s.char m fmt = 0) : printfLoop m fmt (fuel + 1) s = some s.read := by
  rw [printfLoop]
  exact if_pos zero

theorem printfLoop_char (here : s.char m fmt = c) (nonzero : c ≠ 0) (plain : c ≠ percent) :
    printfLoop m fmt (fuel + 1) s = printfLoop m fmt fuel (s.read.putchar c).next := by
  have same : s.read.char m fmt = c := here
  simp only [printfLoop, printfBody, same, if_neg nonzero, if_pos plain]

/-- Behind a percent sign. -/
theorem printfLoop_percent (here : s.char m fmt = percent) (second : s.next.char m fmt = c) :
    printfLoop m fmt (fuel + 1) s =
      match
        if c = 0x69 then
          (readString (itoa (m.load32 s.v1) 0 ⟨fun _ => 0, []⟩).2.mem fuel 0).map
            fun text => s.read.next.read.vaArg.print text
        else if c = 0x73 then
          (readString m fuel (m.load32 s.v1)).map fun text => s.read.next.read.vaArg.print text
        else some (s.read.next.read.putchar c) with
      | none => none
      | some s => printfLoop m fmt fuel s.next := by
  have same : s.read.char m fmt = percent := here
  have same' : s.read.next.read.char m fmt = c := second
  have nonzero : percent ≠ 0 := by decide
  simp only [printfLoop, printfBody, same, same', if_neg nonzero, ne_eq, not_true_eq_false, if_false]
  rfl

theorem printfLoop_other (here : s.char m fmt = percent) (second : s.next.char m fmt = c)
    (notInt : c ≠ 0x69) (notStr : c ≠ 0x73) :
    printfLoop m fmt (fuel + 1) s = printfLoop m fmt fuel (s.read.next.read.putchar c).next := by
  rw [printfLoop_percent here second, if_neg notInt, if_neg notStr]

theorem printfLoop_int (here : s.char m fmt = percent) (second : s.next.char m fmt = 0x69)
    (string : readString (itoa (m.load32 s.v1) 0 ⟨fun _ => 0, []⟩).2.mem fuel 0 = some text) :
    printfLoop m fmt (fuel + 1) s = printfLoop m fmt fuel (s.read.next.read.vaArg.print text).next := by
  rw [printfLoop_percent here second, if_pos rfl, string]
  rfl

theorem printfLoop_str (here : s.char m fmt = percent) (second : s.next.char m fmt = 0x73)
    (string : readString m fuel (m.load32 s.v1) = some text) :
    printfLoop m fmt (fuel + 1) s = printfLoop m fmt fuel (s.read.next.read.vaArg.print text).next := by
  rw [printfLoop_percent here second, if_neg (by decide), if_pos rfl, string]
  rfl

end Loop

/-- With enough fuel the loop comes from one state to another. -/
def Leads (m : Mem) (fmt : Word) (s s' : Printing) : Prop :=
  ∃ n k, ∀ fuel ≥ n, printfLoop m fmt (fuel + k) s = printfLoop m fmt fuel s'

namespace Leads

variable {m : Mem} {fmt : Word} {s s' s'' : Printing}

theorem refl (s : Printing) : Leads m fmt s s := ⟨0, 0, fun _ _ => rfl⟩

theorem step {n : Nat} (once : ∀ fuel > n, printfLoop m fmt (fuel + 1) s = printfLoop m fmt fuel s')
    (rest : Leads m fmt s' s'') : Leads m fmt s s'' := by
  obtain ⟨n', k, later⟩ := rest
  refine ⟨max (n + 1) n', k + 1, fun fuel enough => ?_⟩
  rw [← Nat.add_assoc, once (fuel + k) (by omega), later fuel (by omega)]

end Leads

/-! ## Integers -/

/-- What `printf` prints for an integer. -/
def printed (value : Word) : List Byte := if value = 0 then [0x30, 0x0A] else itoaText value

theorem stringAt_printed (value : Word) :
    StringAt (itoa value 0 ⟨fun _ => 0, []⟩).2.mem id 0 (printed value) := by
  rw [printed]
  split
  case isTrue zero =>
    subst zero
    exact .cons (by decide) (by decide) (.cons (by decide) (by decide) (.nil (by decide)))
  case isFalse nonzero => exact itoa_stringAt nonzero 0 _

theorem printed_eq_iff (value : Word) :
    printed value = numeral value.toInt ↔ value ≠ 0 ∧ value ≠ intMin := by
  constructor
  · intro same
    have spelled := same ▸ isNumeral_numeral value.toInt
    constructor
    · rintro rfl
      exact absurd (spelled.mem 0x0A (by decide)) (by decide)
    · rintro rfl
      have nonzero : intMin ≠ 0 := by decide
      rw [printed, if_neg nonzero] at spelled
      exact (isNumeral_itoaText_iff nonzero).mp spelled rfl
  · rintro ⟨nonzero, ordinary⟩
    rw [printed, if_neg nonzero, itoaText_eq nonzero ordinary]

/-- Zero gets one character too many. -/
theorem length_numeral_le (value : Word) : (numeral value.toInt).length ≤ (printed value).length := by
  by_cases right : value ≠ 0 ∧ value ≠ intMin
  · rw [(printed_eq_iff value).mpr right]
  · rcases Classical.not_and_iff_not_or_not.mp right with zero | least
    · rw [not_not.mp zero]
      decide
    · have number : intMin.toInt = -2147483648 := by decide
      rw [not_not.mp least, printed, if_neg (by decide), itoaText_intMin, number]
      simp [numeral, Numeral.unsigned]

/-- Texts that are not shorter than they should be make the right output only if each is right. -/
theorem output_eq_iff {f g : Word → List Byte} (longer : ∀ value, (g value).length ≤ (f value).length)
    {ds : List Directive} {args : List Arg} (asks : Asks ds args) :
    (output g ds args).length ≤ (output f ds args).length ∧
      (output f ds args = output g ds args ↔ ∀ value, .int value ∈ args → f value = g value) := by
  induction asks with
  | nil => simp [output]
  | char _ ih => simpa [output] using ih
  | str _ ih => simpa [output] using ih
  | lone => simp [output]
  | int asks ih =>
      rename_i ds args value
      obtain ⟨longerRest, same⟩ := ih
      have longerText := longer value
      have pieces : f value ++ output f ds args = g value ++ output g ds args ↔
          f value = g value ∧ output f ds args = output g ds args := by
        refine ⟨fun equal => ?_, fun equal => by rw [equal.1, equal.2]⟩
        have lengths := congrArg List.length equal
        rw [List.length_append, List.length_append] at lengths
        exact List.append_inj equal (by omega)
      refine ⟨?_, ?_⟩
      · simp only [output, List.length_append]
        omega
      · rw [output, output, pieces, same]
        simp

/-! ## The whole format -/

/-- The loop comes to the rest of the format, up to which it has printed `text`. -/
def Comes (m : Mem) (fmt : Word) (limit : Nat) (rest text : List Byte) (s : Printing) : Prop :=
  ∃ s', Leads m fmt s s' ∧ StringAt m id (fmt + BitVec.ofNat 32 s'.p) rest ∧
    s'.p + rest.length = limit ∧ s'.out = s.out ++ text ∧ ∀ k ∈ s'.reads, k ≤ limit

theorem Comes.step {m : Mem} {fmt : Word} {limit n : Nat} {rest piece text : List Byte} {s s' : Printing}
    (once : ∀ fuel > n, printfLoop m fmt (fuel + 1) s = printfLoop m fmt fuel s')
    (emitted : s'.out = s.out ++ piece) (comes : Comes m fmt limit rest text s') :
    Comes m fmt limit rest (piece ++ text) s := by
  obtain ⟨last, leads, string, place, out, reads⟩ := comes
  refine ⟨last, leads.step once, string, place, ?_, reads⟩
  rw [out, emitted, List.append_assoc]

/-- A percent sign with nothing behind it. -/
def leftOver (ds : List Directive) : List Byte := if .lone ∈ ds then [percent] else []

theorem leftOver_cons {d : Directive} (other : d ≠ .lone) (ds : List Directive) :
    leftOver (d :: ds) = leftOver ds := by
  simp [leftOver, Ne.symm other]

/-- The loop is at the rest of a format that ends at `limit`, and the arguments for it are next. -/
structure At (m : Mem) (fmt : Word) (limit : Nat) (format : List Byte) (args : List Arg) (s : Printing) :
    Prop where
  string : StringAt m id (fmt + BitVec.ofNat 32 s.p) format
  passed : Passed m s.v1 args
  place : s.p + format.length = limit
  reads : ∀ k ∈ s.reads, k ≤ limit

namespace At

variable {m : Mem} {fmt : Word} {limit : Nat} {c x : Byte} {rest text : List Byte} {arg : Arg}
  {args : List Arg} {s : Printing}

theorem plain (here : At m fmt limit (c :: rest) args s) :
    s.char m fmt = c ∧ c ≠ 0 ∧ At m fmt limit rest args (s.read.putchar c).next := by
  obtain ⟨string, passed, place, reads⟩ := here
  rw [List.length_cons] at place
  cases string with
  | cons char nonzero behind =>
      rw [StringAt.address_succ] at behind
      refine ⟨char, nonzero, behind, passed, ?_, List.forall_mem_cons.mpr ⟨by omega, reads⟩⟩
      rw [← place, Nat.add_comm rest.length, ← Nat.add_assoc]
      rfl

/-- The second character of a directive. -/
theorem second (here : At m fmt limit (c :: x :: rest) args s) :
    s.next.char m fmt = x ∧ At m fmt limit rest args (s.read.next.read.putchar x).next := by
  obtain ⟨-, -, string, passed, place, reads⟩ := here.plain
  have inner : At m fmt limit (x :: rest) args s.read.next := ⟨string, passed, place, reads⟩
  obtain ⟨char, -, behind⟩ := inner.plain
  exact ⟨char, behind⟩

/-- One argument less. -/
theorem vaArg (here : At m fmt limit rest (arg :: args) (s.putchar c).next) (text : List Byte) :
    At m fmt limit rest args (s.vaArg.print text).next := by
  obtain ⟨string, passed, place, reads⟩ := here
  cases passed with
  | int _ passed => exact ⟨string, passed, place, reads⟩
  | str _ passed => exact ⟨string, passed, place, reads⟩

end At

/-- Induction on the directives. -/
theorem printf_comes {m : Mem} {fmt : Word} {limit : Nat} {format : List Byte} {args : List Arg}
    {s : Printing} (here : At m fmt limit format args s) (asks : Asks (directives format) args) :
    Comes m fmt limit (leftOver (directives format)) (output printed (directives format) args) s := by
  fun_induction directives format generalizing args s with
  | case1 => exact ⟨s, .refl s, here.string, here.place, by simp [output], here.reads⟩
  | case2 c rest plain ih =>
      cases asks with
      | char asks =>
          obtain ⟨char, nonzero, behind⟩ := here.plain
          have once : ∀ fuel > 0, printfLoop m fmt (fuel + 1) s =
              printfLoop m fmt fuel (s.read.putchar c).next :=
            fun fuel _ => printfLoop_char char nonzero plain
          rw [leftOver_cons (by simp)]
          exact Comes.step once rfl (ih behind asks)
  | case3 c sign =>
      obtain rfl := not_not.mp sign
      exact ⟨s, .refl s, here.string, here.place, by simp [output], here.reads⟩
  | case4 c sign rest ih =>
      obtain rfl := not_not.mp sign
      cases asks with
      | @int _ args value asks =>
          obtain ⟨char, behind⟩ := here.second
          have once : ∀ fuel > (printed value).length, printfLoop m fmt (fuel + 1) s =
              printfLoop m fmt fuel (s.read.next.read.vaArg.print (printed value)).next := by
            intro fuel enough
            refine printfLoop_int here.plain.1 char ?_
            cases here.passed with
            | int loaded _ =>
                rw [loaded]
                exact (stringAt_printed value).readString_eq enough
          rw [leftOver_cons (by simp)]
          exact Comes.step once rfl (ih (behind.vaArg _) asks)
  | case5 c sign rest _ ih =>
      obtain rfl := not_not.mp sign
      cases asks with
      | @str _ args text asks =>
          obtain ⟨char, behind⟩ := here.second
          have once : ∀ fuel > text.length, printfLoop m fmt (fuel + 1) s =
              printfLoop m fmt fuel (s.read.next.read.vaArg.print text).next := by
            intro fuel enough
            refine printfLoop_str here.plain.1 char ?_
            cases here.passed with
            | str string _ => exact string.readString_eq enough
          rw [leftOver_cons (by simp)]
          exact Comes.step once rfl (ih (behind.vaArg _) asks)
  | case6 c sign x rest notInt notStr ih =>
      obtain rfl := not_not.mp sign
      cases asks with
      | char asks =>
          obtain ⟨char, behind⟩ := here.second
          have once : ∀ fuel > 0, printfLoop m fmt (fuel + 1) s =
              printfLoop m fmt fuel (s.read.next.read.putchar x).next :=
            fun fuel _ => printfLoop_other here.plain.1 char notInt notStr
          rw [leftOver_cons (by simp)]
          exact Comes.step once rfl (ih behind asks)

/-- Nothing that was read is forgotten. -/
theorem printfBody_reads {m : Mem} {fmt : Word} {fuel : Nat} {s s' : Printing}
    (run : printfBody m fmt fuel s = some s') : s.reads ⊆ s'.reads := by
  simp only [printfBody] at run
  split_ifs at run
  · cases run
    exact List.Subset.refl _
  · obtain ⟨text, -, rfl⟩ := Option.map_eq_some_iff.mp run
    exact List.subset_cons_self _ _
  · obtain ⟨text, -, rfl⟩ := Option.map_eq_some_iff.mp run
    exact List.subset_cons_self _ _
  · cases run
    exact List.subset_cons_self _ _

theorem printfLoop_reads {m : Mem} {fmt : Word} {fuel : Nat} {s s' : Printing}
    (run : printfLoop m fmt fuel s = some s') : s.p ∈ s'.reads ∧ s.reads ⊆ s'.reads := by
  induction fuel generalizing s with
  | zero => cases run
  | succ fuel ih =>
      have kept : s.read.reads ⊆ s'.reads := by
        simp only [printfLoop] at run
        split at run
        case isTrue =>
          cases run
          exact List.Subset.refl _
        case isFalse =>
          split at run
          case h_1 => cases run
          case h_2 next body => exact List.Subset.trans (printfBody_reads body) (ih run).2
      exact ⟨kept List.mem_cons_self, fun k member => kept (List.mem_cons_of_mem _ member)⟩

section Whole

variable {m : Mem} {fmt v1 : Word} {format : List Byte} {args : List Arg}

theorem printf_start (string : StringAt m id fmt format) (passed : Passed m v1 args) :
    At m fmt format.length format args ⟨0, v1, [], []⟩ :=
  ⟨by simpa using string, passed, Nat.zero_add _, by simp⟩

theorem printf_of_leads {n k fuel : Nat} {s : Printing} (enough : n + k ≤ fuel)
    (leads : ∀ fuel ≥ n, printfLoop m fmt (fuel + k) ⟨0, v1, [], []⟩ = printfLoop m fmt fuel s) :
    printf fuel m fmt v1 = (printfLoop m fmt (fuel - k) s).map fun s => (0, s) := by
  have rest := leads (fuel - k) (by omega)
  rw [Nat.sub_add_cancel (by omega)] at rest
  rw [printf, rest]

/-- Without a lone percent sign the loop ends at the terminator. -/
theorem printf_returns (string : StringAt m id fmt format) (passed : Passed m v1 args)
    (asks : Asks (directives format) args) (none : .lone ∉ directives format) :
    ∃ n, ∀ fuel ≥ n, ∃ s, printf fuel m fmt v1 = some (0, s) ∧
      s.out = output printed (directives format) args ∧ ∀ k ∈ s.reads, k ≤ format.length := by
  obtain ⟨s, ⟨n, k, leads⟩, ends, place, out, reads⟩ := printf_comes (printf_start string passed) asks
  rw [leftOver, if_neg none] at ends place
  refine ⟨n + 1 + k, fun fuel enough => ⟨s.read, ?_, out, ?_⟩⟩
  · obtain ⟨last, positive⟩ := Nat.exists_eq_succ_of_ne_zero (by omega : fuel - k ≠ 0)
    cases ends with
    | nil zero =>
        rw [printf_of_leads (by omega) leads, positive, printfLoop_end zero]
        rfl
  · exact List.forall_mem_cons.mpr ⟨place.le, reads⟩

/-- A lone percent sign takes the loop to the byte behind the terminator. -/
theorem printf_reads_behind (string : StringAt m id fmt format) (passed : Passed m v1 args)
    (asks : Asks (directives format) args) (lone : .lone ∈ directives format) :
    ∃ n, ∀ fuel ≥ n, ∀ s, printf fuel m fmt v1 = some (0, s) → format.length + 1 ∈ s.reads := by
  obtain ⟨s, ⟨n, k, leads⟩, ends, place, -, -⟩ := printf_comes (printf_start string passed) asks
  rw [leftOver, if_pos lone] at ends place
  refine ⟨n + 1 + k, fun fuel enough s' run => ?_⟩
  obtain ⟨last, positive⟩ := Nat.exists_eq_succ_of_ne_zero (by omega : fuel - k ≠ 0)
  cases ends with
  | cons sign _ behind =>
      rw [StringAt.address_succ] at behind
      cases behind with
      | nil zero =>
          rw [printf_of_leads (by omega) leads, positive,
            printfLoop_other sign zero (by decide) (by decide)] at run
          obtain ⟨final, rest, same⟩ := Option.map_eq_some_iff.mp run
          cases same
          rw [← place]
          exact (printfLoop_reads rest).1

theorem not_formats_of_lone (string : StringAt m id fmt format) (passed : Passed m v1 args)
    (asks : Asks (directives format) args) (lone : .lone ∈ directives format) :
    ¬ Formats m fmt v1 format args := by
  rintro ⟨n, right⟩
  obtain ⟨n', behind⟩ := printf_reads_behind string passed asks lone
  obtain ⟨s, run, -, inside⟩ := right (max n n') (le_max_left n n')
  have beyond := inside _ (behind _ (le_max_right n n') s run)
  omega

/-- The output is right exactly when the format does not end in a lone percent sign and no
    integer is zero or the most negative one. -/
theorem printf_formats_iff (string : StringAt m id fmt format) (passed : Passed m v1 args)
    (asks : Asks (directives format) args) :
    Formats m fmt v1 format args ↔
      .lone ∉ directives format ∧ ∀ value, .int value ∈ args → value ≠ 0 ∧ value ≠ intMin := by
  have texts := (output_eq_iff length_numeral_le asks).2
  simp only [printed_eq_iff] at texts
  rw [← texts]
  constructor
  · rintro ⟨n, right⟩
    have none : .lone ∉ directives format :=
      fun lone => not_formats_of_lone string passed asks lone ⟨n, right⟩
    obtain ⟨n', returns⟩ := printf_returns string passed asks none
    obtain ⟨s, run, out, -⟩ := right (max n n') (le_max_left n n')
    obtain ⟨s', run', out', -⟩ := returns (max n n') (le_max_right n n')
    cases run.symm.trans run'
    exact ⟨none, out'.symm.trans out⟩
  · rintro ⟨none, same⟩
    rw [Formats, ← same]
    exact printf_returns string passed asks none

end Whole

/-- `x%i` with the argument `5`. -/
theorem printf_formats_five :
    Formats (memoryOf 0x1000 [0x78, 0x25, 0x69, 0, 5]) 0x1000 0x1004 [0x78, 0x25, 0x69] [.int 5] := by
  refine (printf_formats_iff ?_ ?_ ?_).mpr ⟨by decide, fun value member => ?_⟩
  · exact .cons (by decide) (by decide) (.cons (by decide) (by decide)
      (.cons (by decide) (by decide) (.nil (by decide))))
  · exact .int (by decide) .nil
  · exact .char (.int .nil)
  · cases List.mem_singleton.mp member
    exact ⟨by decide, by decide⟩

/-- `%` prints a zero byte and the `x` behind the terminator; and `%i` of zero ends in a newline. -/
theorem printf_goes_on :
    (∃ s, printf 8 (memoryOf 0x1000 [0x25, 0, 0x78]) 0x1000 0x2000 = some (0, s) ∧
        s.out = [0, 0x78] ∧ 2 ∈ s.reads) ∧
      ¬ Formats (memoryOf 0x1000 [0x25, 0, 0x78]) 0x1000 0x2000 [0x25] [] ∧
      (∃ s, printf 8 (memoryOf 0x1000 [0x25, 0x69]) 0x1000 0x2000 = some (0, s) ∧
        s.out = [0x30, 0x0A]) := by
  have string : StringAt (memoryOf 0x1000 [0x25, 0, 0x78]) id 0x1000 [0x25] :=
    .cons (by decide) (by decide) (.nil (by decide))
  refine ⟨⟨_, rfl, by decide, by decide⟩, ?_, ⟨_, rfl, by decide⟩⟩
  exact not_formats_of_lone string .nil .lone (by decide)

end ConiferOS.User
