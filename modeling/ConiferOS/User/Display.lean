import ConiferOS.Print.Screen
import ConiferOS.User.Command
import ConiferOS.User.Printf

/-! # What the user sees

The command line on the screen and the command that the shell runs, and the arguments of `echo` on
their way from the address space of the process to the screen.
-/

namespace ConiferOS.User

open Lib Print

/-! ## The command line -/

/-- No backspace comes while the line is empty. -/
def Editing (keys : List Byte) : Prop :=
  Run.Always edit (fun line key => key = backspace → line ≠ []) [] keys

instance (keys : List Byte) : Decidable (Editing keys) := inferInstanceAs (Decidable (Run.Always ..))

section Editing

variable {before line keys : List Byte}

theorem edit_append {key : Byte} (kept : key = backspace → line ≠ []) :
    edit (before ++ line) key = before ++ edit line key := by
  rw [edit, edit]
  split
  case isTrue back => exact List.dropLast_append_of_ne_nil (kept back)
  case isFalse => exact List.append_assoc ..

/-- The keys do not get at the text in front of the line. -/
theorem final_edit_append (kept : Run.Always edit (fun line key => key = backspace → line ≠ []) line keys) :
    Run.final edit (before ++ line) keys = before ++ Run.final edit line keys := by
  induction keys generalizing line with
  | nil => rfl
  | cons key keys ih => rw [Run.final_cons, edit_append kept.1, ih kept.2, Run.final_cons]

theorem final_press_stray (kept : Run.Always edit (fun line key => key = backspace → line ≠ []) line keys) :
    (Run.final Editor.press ⟨line, false⟩ keys).stray = false := by
  induction keys generalizing line with
  | nil => rfl
  | cons key keys ih =>
      have pressed : Editor.press ⟨line, false⟩ key = ⟨edit line key, false⟩ := by
        have erase := kept.1
        unfold Editor.press edit
        grind
      rw [Run.final_cons, pressed]
      exact ih kept.2

theorem Editing.kept (editing : Editing keys) : (Editor.after keys).kept = edited keys := by
  rw [Editor.kept, ← after_line, Editor.after, final_press_stray editing]
  rfl

end Editing

namespace Shell

end Shell

/-! ## Echo -/

/-- Memory at a call of `printf`, and where the arguments behind the format would be. -/
structure PrintfCall where
  mem : Mem
  v1 : Word

/-- The loop of `main` in `echo.c`, with the text that it has printed; `calls` are the calls of
    `printf` in their order. -/
def echoLoop (fuel : Nat) (calls : Nat → PrintfCall) (literal argv : Word) :
    (remaining i : Nat) → (out : List Byte) → Option (List Byte)
  | 0, _, out => some out
  | remaining + 1, i, out =>
      match printf fuel (calls (2 * i)).mem literal (calls (2 * i)).v1 with
      | none => none
      | some (_, s) =>
          let call := calls (2 * i + 1)
          match printf fuel call.mem (call.mem.load32 (argv + BitVec.ofNat 32 (4 * i))) call.v1 with
          | none => none
          | some (_, s') => echoLoop fuel calls literal argv remaining (i + 1) (out ++ s.out ++ s'.out)

/-- `literal` is the address of `"\n"`. -/
def echoMain (fuel : Nat) (calls : Nat → PrintfCall) (literal argc argv : Word) : Option (List Byte) :=
  match echoLoop fuel calls literal argv argc.toInt.toNat 0 [] with
  | none => none
  | some out =>
      let call := calls (2 * argc.toInt.toNat)
      (printf fuel call.mem literal call.v1).map fun (_, s) => out ++ s.out

section Plain

variable {text : List Byte}

/-- Without a percent sign a format is only characters. -/
theorem directives_plain (plain : percent ∉ text) : directives text = text.map .char := by
  induction text with
  | nil => rfl
  | cons c text ih =>
      have other : c ≠ percent := (List.ne_of_not_mem_cons plain).symm
      rw [directives.eq_def]
      simp only [if_pos other, ih (List.not_mem_of_not_mem_cons plain), List.map_cons]

theorem asks_chars (text : List Byte) : Asks (text.map .char) [] := by
  induction text with
  | nil => exact .nil
  | cons c text ih => exact .char ih

theorem output_chars (text : List Byte) : output printed (text.map .char) [] = text := by
  induction text with
  | nil => rfl
  | cons c text ih => rw [List.map_cons, output, ih]

/-- It does not matter what is behind the format. -/
theorem printf_plain {m : Mem} {fmt : Word} (string : StringAt m id fmt text) (plain : percent ∉ text)
    (v1 : Word) : ∃ n, ∀ fuel ≥ n, ∃ s, printf fuel m fmt v1 = some (0, s) ∧ s.out = text := by
  have chars := directives_plain plain
  obtain ⟨n, returns⟩ := printf_returns string (.nil : Passed m v1 [])
    (chars ▸ asks_chars text) (by simp [chars])
  refine ⟨n, fun fuel enough => ?_⟩
  obtain ⟨s, run, out, -⟩ := returns fuel enough
  rw [chars, output_chars] at out
  exact ⟨s, run, out⟩

end Plain

section Echo

variable {calls : Nat → PrintfCall} {literal argv : Word} {args : List (List Byte)}

/-- The text of `echo`. -/
def echoed (args : List (List Byte)) : List Byte := args.flatMap (newline :: ·) ++ [newline]

/-- At every call of `printf` the literal and the arguments are there. -/
structure EchoStrings (calls : Nat → PrintfCall) (literal argv : Word) (args : List (List Byte)) : Prop where
  literal : ∀ n, StringAt (calls n).mem id literal [newline]
  args : ∀ n i, ∀ bound : i < args.length,
    StringAt (calls n).mem id ((calls n).mem.load32 (argv + BitVec.ofNat 32 (4 * i))) args[i]

/-- Induction on the arguments that are left. -/
theorem echoLoop_prints (strings : EchoStrings calls literal argv args)
    (plain : ∀ arg ∈ args, percent ∉ arg) {remaining i : Nat} (left : i + remaining = args.length) :
    ∃ n, ∀ fuel ≥ n, ∀ out, echoLoop fuel calls literal argv remaining i out =
      some (out ++ (args.drop i).flatMap (newline :: ·)) := by
  induction remaining generalizing i with
  | zero =>
      refine ⟨0, fun fuel _ out => ?_⟩
      rw [echoLoop, List.drop_of_length_le (by omega), List.flatMap_nil, List.append_nil]
  | succ remaining ih =>
      have bound : i < args.length := by omega
      obtain ⟨n₁, breaks⟩ := printf_plain (strings.literal (2 * i)) (by decide) (calls (2 * i)).v1
      obtain ⟨n₂, prints⟩ := printf_plain (strings.args (2 * i + 1) i bound)
        (plain _ (List.getElem_mem bound)) (calls (2 * i + 1)).v1
      obtain ⟨n₃, rest⟩ := ih (i := i + 1) (by omega)
      refine ⟨max n₁ (max n₂ n₃), fun fuel enough out => ?_⟩
      obtain ⟨s, run, line⟩ := breaks fuel (by omega)
      obtain ⟨s', run', arg⟩ := prints fuel (by omega)
      rw [echoLoop]
      simp only [run, run', line, arg]
      rw [rest fuel (by omega), List.drop_eq_getElem_cons bound, List.flatMap_cons]
      simp only [List.append_assoc, List.cons_append, List.nil_append]

theorem echoMain_prints (strings : EchoStrings calls literal argv args)
    (plain : ∀ arg ∈ args, percent ∉ arg) (few : args.length < 2 ^ 31) :
    ∃ n, ∀ fuel ≥ n, echoMain fuel calls literal (BitVec.ofNat 32 args.length) argv = some (echoed args) := by
  have count : (BitVec.ofNat 32 args.length).toInt.toNat = args.length := by
    rw [BitVec.toInt_eq_toNat_cond, BitVec.toNat_ofNat]
    omega
  obtain ⟨n₁, loop⟩ := echoLoop_prints strings plain (Nat.zero_add args.length)
  obtain ⟨n₂, breaks⟩ := printf_plain (strings.literal (2 * args.length)) (by decide)
    (calls (2 * args.length)).v1
  refine ⟨max n₁ n₂, fun fuel enough => ?_⟩
  obtain ⟨s, run, line⟩ := breaks fuel (by omega)
  simp only [echoMain, count, loop fuel (by omega), run, Option.map_some, line]
  rfl

open Process

/-- A program that has not written over its arguments. -/
structure Untouched (view : Word → Word) (main : MainCall) (count : Nat) (m : Mem) : Prop where
  argv : ∀ i < count, m.load32 (main.argv + BitVec.ofNat 32 (4 * i)) =
    loadVia view main.mem (main.argv + BitVec.ofNat 32 (4 * i))
  strings : ∀ i < count, ∀ k ≤ maxCmmdArgLen,
    m (loadVia view main.mem (main.argv + BitVec.ofNat 32 (4 * i)) + BitVec.ofNat 32 k) =
      main.mem (view (loadVia view main.mem (main.argv + BitVec.ofNat 32 (4 * i)) + BitVec.ofNat 32 k))

/-- A program that has written nothing. -/
theorem untouched_start (view : Word → Word) (main : MainCall) (count : Nat) :
    Untouched view main count fun x => main.mem (view x) :=
  ⟨fun _ _ => rfl, fun _ _ _ _ => rfl⟩

theorem echoStrings {l : LoadFrame} {child : Child} {ret : Word} (passed : ArgsPassed l child ret args)
    (short : ∀ arg ∈ args, arg.length < maxCmmdArgLen)
    (string : ∀ n, StringAt (calls n).mem id literal [newline])
    (untouched : ∀ n, Untouched child.pages.translate
      (start child.pages.translate child.mem (taskStackVirtAddr - 8) ret) args.length (calls n).mem) :
    EchoStrings calls literal (start child.pages.translate child.mem (taskStackVirtAddr - 8) ret).argv
      args := by
  refine ⟨string, fun n i bound => ?_⟩
  obtain ⟨text, found, whole, -⟩ := passed.argv i bound
  have length := short _ (List.getElem_mem bound)
  rw [whole length] at found
  rw [(untouched n).argv i bound]
  exact found.congr fun k inside => (untouched n).strings i bound k (by omega)

/-- A child with the argument `A`, and the literal at the start of its program. -/
def echoChild : Child where
  written := []
  mem := (((Mem.place (fun _ => 0) 0x3FEFF8 [0, 0, 0, 2, 1, 0, 0, 0]).place 0x2000000
    [0x14, 0, 0, 2]).place 0x2000014 [0x41, 0]).place 0x400000 [newline, 0]
  pages := PageMap.linear 7

/-- Its `main`. -/
def echoStart : MainCall := start echoChild.pages.translate echoChild.mem (taskStackVirtAddr - 8) 0

theorem echoChild_passed : ArgsPassed lettersLoad echoChild 0 [[0x41]] where
  inside := by simp [echoChild]
  argc := by decide
  argv := by
    intro i bound
    obtain rfl : i = 0 := by simpa using bound
    have short : ¬ maxCmmdArgLen ≤ [(0x41 : Byte)].length := by decide
    exact ⟨[0x41], .cons (by decide) (by decide) (.nil (by decide)), fun _ => rfl,
      fun long => absurd long short⟩

end Echo

end ConiferOS.User
