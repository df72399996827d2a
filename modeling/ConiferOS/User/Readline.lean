import ConiferOS.Config
import ConiferOS.Lib.Run

/-! # Reading a line

`coniferos_terminal_readline` uses one counter as the bound of its loop and as the place of the
next character, and moves it back on a backspace. A backspace on an empty line is kept as a
character, and a full buffer is closed one byte behind its end.
-/

namespace ConiferOS.User

open Lib

def backspace : Byte := 0x08
def carriageReturn : Byte := 13

/-- `polls` are the results of `coniferos_get_key`, zero if no key is waiting. `none`: no key
    came yet. -/
def coniferosGetKeyBlocking : (polls : List Byte) → Option (Byte × List Byte)
  | [] => none
  | key :: polls => if key = 0 then coniferosGetKeyBlocking polls else some (key, polls)

structure Readline where
  i : Int
  /-- The stores to `out`, index and value, newest first. -/
  stores : List (Int × Byte)
  /-- The arguments of `coniferos_putchar`. -/
  echo : List Byte

def Readline.put (index : Int) (c : Byte) (s : Readline) : Readline :=
  { s with stores := (index, c) :: s.stores }

/-- The body of the loop behind the test for a carriage return, and the increment. -/
def readlineKey (key : Byte) (s : Readline) : Readline :=
  let s := { s with echo := s.echo ++ [key] }
  if key = backspace ∧ 1 ≤ s.i then
    let s := s.put (s.i - 1) 0x00
    { s with i := s.i - 2 + 1 }
  else
    let s := s.put s.i key
    { s with i := s.i + 1 }

inductive Outcome where
  | waiting (s : Readline)
  | returned (s : Readline)

def Outcome.state : Outcome → Readline
  | .waiting s => s
  | .returned s => s

/-- The keys behind the zeros. -/
def pressed (polls : List Byte) : List Byte := polls.filter (· ≠ 0)

theorem coniferosGetKeyBlocking_none {polls : List Byte} (none : coniferosGetKeyBlocking polls = none) :
    pressed polls = [] := by
  induction polls with
  | nil => rfl
  | cons key polls ih => grind [coniferosGetKeyBlocking, pressed]

theorem coniferosGetKeyBlocking_some {polls rest : List Byte} {key : Byte}
    (some : coniferosGetKeyBlocking polls = some (key, rest)) :
    pressed polls = key :: pressed rest ∧ rest.length < polls.length := by
  induction polls with
  | nil => simp [coniferosGetKeyBlocking] at some
  | cons poll polls ih => grind [coniferosGetKeyBlocking, pressed]

def readlineLoop (max : Int) (polls : List Byte) (s : Readline) : Outcome :=
  if s.i < max then
    match _key : coniferosGetKeyBlocking polls with
    | none => .waiting s
    | some (key, polls) =>
        if key = carriageReturn then .returned (s.put s.i 0x00)
        else readlineLoop max polls (readlineKey key s)
  else .returned (s.put s.i 0x00)
termination_by polls.length
decreasing_by exact (coniferosGetKeyBlocking_some _key).2

def coniferosTerminalReadline (max : Int) (polls : List Byte) : Outcome :=
  readlineLoop max polls ⟨0, [], []⟩

/-! ## Editing -/

/-- What a key does to a line. -/
def edit (line : List Byte) (key : Byte) : List Byte :=
  if key = backspace then line.dropLast else line ++ [key]

def edited (keys : List Byte) : List Byte := keys.foldl edit []

/-- The keys before the first carriage return. -/
def typed (polls : List Byte) : List Byte := (pressed polls).takeWhile (· ≠ carriageReturn)

/-- What the last store to `out[index]` left there. -/
def Readline.cell (s : Readline) (index : Int) : Option Byte :=
  (s.stores.find? (·.1 = index)).map (·.2)

def Readline.Holds (s : Readline) (text : List Byte) : Prop :=
  ∀ (j : Nat) (c : Byte), text[j]? = some c → s.cell j = some c

def Readline.Inside (max : Int) (s : Readline) : Prop :=
  ∀ store ∈ s.stores, 0 ≤ store.1 ∧ store.1 < max

/-- Nothing is stored outside of the buffer; and a line that fits is there when the carriage
    return has come. -/
structure LineEdited (max : Int) (polls : List Byte) : Prop where
  inside : (coniferosTerminalReadline max polls).state.Inside max
  line : carriageReturn ∈ polls →
    (∀ keys, keys <+: typed polls → (edited keys).length ≤ max - 1) →
    ∃ s, coniferosTerminalReadline max polls = .returned s ∧ s.Holds (edited (typed polls) ++ [0])

/-! ## What the loop keeps -/

/-- The line, and whether a backspace is stored in front of it. -/
structure Editor where
  line : List Byte
  stray : Bool

def Editor.press (e : Editor) (key : Byte) : Editor :=
  if key ≠ backspace then { e with line := e.line ++ [key] }
  else if e.line = [] then { e with stray := !e.stray }
  else { e with line := e.line.dropLast }

def Editor.kept (e : Editor) : List Byte := if e.stray then backspace :: e.line else e.line

def Editor.after (keys : List Byte) : Editor := Run.final press ⟨[], false⟩ keys

/-- The place behind the line is inside the buffer all the time, and no backspace is in front of
    it when the carriage return comes. -/
structure Fits (max : Int) (polls : List Byte) : Prop where
  room : ∀ keys, keys <+: typed polls → (Editor.after keys).kept.length < max
  clean : carriageReturn ∈ polls → (Editor.after (typed polls)).stray = false

theorem press_line (e : Editor) (key : Byte) : (e.press key).line = edit e.line key := by
  unfold Editor.press edit
  grind

theorem after_line (keys : List Byte) : (Editor.after keys).line = edited keys := by
  refine Run.final_related (fun (e : Editor) line => e.line = line) (fun e line key same => ?_) rfl
  rw [press_line, same]

/-- A backspace takes the last place back if there is one. -/
theorem press_kept (e : Editor) (key : Byte) :
    (e.press key).kept =
      if key = backspace ∧ e.kept ≠ [] then e.kept.dropLast else e.kept ++ [key] := by
  obtain ⟨line, stray⟩ := e
  cases line with
  | nil =>
      cases stray <;> by_cases back : key = backspace <;> simp [Editor.press, Editor.kept, back]
  | cons c line =>
      cases stray <;> by_cases back : key = backspace <;> simp [Editor.press, Editor.kept, back]

theorem backspace_notMem_edited (keys : List Byte) : backspace ∉ edited keys := by
  refine List.foldlRecOn (motive := fun line => backspace ∉ line) _ _ (by simp) fun line clean key _ => ?_
  unfold edit
  split
  case isTrue => exact fun member => clean (List.mem_of_mem_dropLast member)
  case isFalse other => simp [clean, Ne.symm other]

/-- The counter is behind the line, and the line is in the buffer. -/
structure Tracks (max : Int) (s : Readline) (kept : List Byte) : Prop where
  counter : s.i = kept.length
  holds : s.Holds kept
  inside : s.Inside max

theorem Holds.put {s : Readline} {text : List Byte} (holds : s.Holds text) (c : Byte) :
    (s.put text.length c).Holds (text ++ [c]) := by
  intro j c' found
  rcases lt_trichotomy j text.length with before | rfl | behind
  · have apart : (text.length : Int) ≠ j := by omega
    have same : text[j]? = some c' := by rwa [List.getElem?_append_left before] at found
    simpa [Readline.put, Readline.cell, apart] using holds j c' same
  · simpa [Readline.put, Readline.cell] using found
  · simp [List.getElem?_append, behind.not_gt, (Nat.sub_pos_of_lt behind).ne'] at found

theorem Holds.put_last {s : Readline} {text : List Byte} (holds : s.Holds text) {index : Int}
    (last : index = text.length - 1) (c : Byte) : (s.put index c).Holds text.dropLast := by
  intro j c' found
  have before : j < text.length - 1 := by
    simpa using (List.getElem?_eq_some_iff.mp found).1
  have apart : index ≠ j := by omega
  have same : text[j]? = some c' := by
    rw [← found, List.getElem?_dropLast, if_pos before]
  simpa [Readline.put, Readline.cell, apart] using holds j c' same

theorem Inside.put {max : Int} {s : Readline} (inside : s.Inside max) {index : Int} (low : 0 ≤ index)
    (high : index < max) (key : Byte) : (s.put index key).Inside max :=
  List.forall_mem_cons.mpr ⟨⟨low, high⟩, inside⟩

theorem readlineKey_tracks {max : Int} {s : Readline} {e : Editor} (tracks : Tracks max s e.kept)
    (room : e.kept.length < max) (key : Byte) : Tracks max (readlineKey key s) (e.press key).kept := by
  obtain ⟨counter, holds, inside⟩ := tracks
  have same : (key = backspace ∧ 1 ≤ s.i) = (key = backspace ∧ e.kept ≠ []) := by
    rw [counter, ← List.length_pos_iff]
    norm_cast
  rw [press_kept, readlineKey]
  simp only [same]
  split
  case isTrue erase =>
    have positive : 0 < e.kept.length := List.length_pos_iff.mpr erase.2
    refine ⟨?_, Holds.put_last holds (by simp [counter]) 0, Inside.put inside ?_ ?_ 0⟩
    all_goals simp [Readline.put, counter]; omega
  case isFalse =>
    refine ⟨by simp [Readline.put, counter], ?_, Inside.put inside ?_ ?_ key⟩
    · have behind := Holds.put holds key
      rwa [← counter] at behind
    · simp [counter]
    · simpa [counter] using room

/-! ## The loop -/

theorem typed_of_none {polls : List Byte} (none : coniferosGetKeyBlocking polls = none) :
    typed polls = [] ∧ carriageReturn ∉ polls := by
  have empty := coniferosGetKeyBlocking_none none
  refine ⟨by simp [typed, empty], fun member => ?_⟩
  have kept : carriageReturn ∈ pressed polls := List.mem_filter.mpr ⟨member, by decide⟩
  simp [empty] at kept

theorem typed_of_some {polls rest : List Byte} {key : Byte}
    (some : coniferosGetKeyBlocking polls = some (key, rest)) :
    typed polls = (if key = carriageReturn then [] else key :: typed rest) ∧
      (key ≠ carriageReturn → (carriageReturn ∈ polls ↔ carriageReturn ∈ rest)) := by
  have first := (coniferosGetKeyBlocking_some some).1
  have member : ∀ polls, carriageReturn ∈ polls ↔ carriageReturn ∈ pressed polls := by
    intro polls
    have nonzero : carriageReturn ≠ 0#8 := by decide
    simp [pressed, nonzero]
  refine ⟨?_, fun other => ?_⟩
  · rw [typed, first]
    split <;> simp [*, typed]
  · rw [member polls, first, member rest]
    simp [Ne.symm other]

theorem forall_prefix_cons {P : List Byte → Prop} {key : Byte} {keys : List Byte} :
    (∀ p, p <+: key :: keys → P p) ↔ P [] ∧ ∀ p, p <+: keys → P (key :: p) := by
  simp only [List.prefix_cons_iff]
  grind

/-- The stores are inside the buffer exactly when the place behind the line always is. -/
theorem readlineLoop_inside_iff {max : Int} {polls : List Byte} {s : Readline} {e : Editor}
    (tracks : Tracks max s e.kept) :
    (readlineLoop max polls s).state.Inside max ↔
      ∀ keys, keys <+: typed polls → (Run.final Editor.press e keys).kept.length < max := by
  fun_induction readlineLoop max polls s generalizing e with
  | case1 polls s room none =>
      rw [tracks.counter] at room
      simpa [Outcome.state, (typed_of_none none).1, room] using tracks.inside
  | case2 polls s room rest some =>
      rw [tracks.counter] at room
      have stored : (s.put s.i 0).Inside max :=
        Inside.put tracks.inside (by simp [tracks.counter]) (by simpa [tracks.counter] using room) 0
      simpa [Outcome.state, (typed_of_some some).1, room] using stored
  | case3 polls s room key rest some other ih =>
      rw [tracks.counter] at room
      rw [ih (readlineKey_tracks tracks room key), (typed_of_some some).1, if_neg other,
        forall_prefix_cons]
      simp [room]
  | case4 polls s full =>
      refine iff_of_false (fun inside => ?_) fun room => ?_
      · exact full (inside (s.i, 0) (List.mem_cons_self ..)).2
      · exact full (tracks.counter ▸ room [] (List.nil_prefix))

/-- With room, the carriage return closes the line. -/
theorem readlineLoop_returns {max : Int} {polls : List Byte} {s : Readline} {e : Editor}
    (tracks : Tracks max s e.kept)
    (room : ∀ keys, keys <+: typed polls → (Run.final Editor.press e keys).kept.length < max)
    (pressed : carriageReturn ∈ polls) :
    ∃ s', readlineLoop max polls s = .returned s' ∧
      s'.Holds ((Run.final Editor.press e (typed polls)).kept ++ [0]) := by
  fun_induction readlineLoop max polls s generalizing e with
  | case1 polls s _ none => exact absurd pressed (typed_of_none none).2
  | case2 polls s _ rest some =>
      refine ⟨_, rfl, ?_⟩
      have closed := Holds.put tracks.holds 0
      simpa [(typed_of_some some).1, tracks.counter] using closed
  | case3 polls s small key rest some other ih =>
      obtain ⟨keys, member⟩ := typed_of_some some
      rw [if_neg other] at keys
      rw [keys, forall_prefix_cons] at room
      rw [keys]
      exact ih (readlineKey_tracks tracks room.1 key) room.2 ((member other).mp pressed)
  | case4 polls s full => exact absurd (tracks.counter ▸ room [] (List.nil_prefix)) full

theorem start_tracks (max : Int) : Tracks max ⟨0, [], []⟩ (Editor.kept ⟨[], false⟩) :=
  ⟨rfl, by simp [Readline.Holds, Editor.kept], by simp [Readline.Inside]⟩

theorem line_length_le_kept (e : Editor) : e.line.length ≤ e.kept.length := by
  unfold Editor.kept
  split <;> simp

/-- A buffer that holds the line does not hold it behind a backspace. -/
theorem stray_eq_false {keys : List Byte} {s : Readline} (line : s.Holds (edited keys ++ [0]))
    (kept : s.Holds ((Editor.after keys).kept ++ [0])) : (Editor.after keys).stray = false := by
  by_contra stray
  have stored : s.cell 0 = some backspace := by
    refine kept 0 backspace ?_
    rw [Editor.kept, if_pos (eq_true_of_ne_false stray)]
    rfl
  have wanted : ∃ c ∈ edited keys ++ [0], s.cell 0 = some c := by
    cases text : edited keys ++ [0] with
    | nil => simp at text
    | cons c rest => exact ⟨c, by simp, line 0 c (by rw [text]; rfl)⟩
  obtain ⟨c, member, found⟩ := wanted
  have same : backspace = c := Option.some.inj (stored.symm.trans found)
  subst same
  rcases List.mem_append.mp member with inLine | isNul
  · exact backspace_notMem_edited keys inLine
  · exact absurd (List.mem_singleton.mp isNul) (by decide)

/-- The line is edited as it should be exactly when it fits with the backspace that may be
    stored in front of it, and none is left there in the end. -/
theorem line_edited_iff (max : Int) (polls : List Byte) : LineEdited max polls ↔ Fits max polls := by
  have inside : (coniferosTerminalReadline max polls).state.Inside max ↔
      ∀ keys, keys <+: typed polls → (Editor.after keys).kept.length < max :=
    readlineLoop_inside_iff (start_tracks max)
  constructor
  · intro right
    have room := inside.mp right.inside
    refine ⟨room, fun pressed => ?_⟩
    have short : ∀ keys, keys <+: typed polls → (edited keys).length ≤ max - 1 := by
      intro keys before
      have kept : (Editor.after keys).kept.length < max := room keys before
      have longer := line_length_le_kept (Editor.after keys)
      rw [after_line] at longer
      omega
    obtain ⟨s, returned, line⟩ := right.line pressed short
    obtain ⟨_, returned', kept⟩ := readlineLoop_returns (start_tracks max) room pressed
    cases returned.symm.trans returned'
    exact stray_eq_false line kept
  · intro fits
    refine ⟨inside.mpr fits.room, fun pressed _ => ?_⟩
    obtain ⟨s, returned, kept⟩ := readlineLoop_returns (start_tracks max) fits.room pressed
    refine ⟨s, returned, ?_⟩
    have clean : (Editor.after (typed polls)).kept = edited (typed polls) := by
      rw [Editor.kept, fits.clean pressed, ← after_line]
      rfl
    rw [← clean]
    exact kept

/-- A backspace on an empty line becomes its first character. -/
theorem line_starts_with_backspace :
    coniferosTerminalReadline 8 [backspace, carriageReturn] =
        .returned ⟨1, [(1, 0), (0, backspace)], [backspace]⟩ ∧
      edited (typed [backspace, carriageReturn]) = [] ∧
      ¬ LineEdited 8 [backspace, carriageReturn] := by
  have run : coniferosTerminalReadline 8 [backspace, carriageReturn] =
      .returned ⟨1, [(1, 0), (0, backspace)], [backspace]⟩ := by
    simp [coniferosTerminalReadline, readlineLoop, coniferosGetKeyBlocking, readlineKey, Readline.put,
      backspace, carriageReturn]
  have keys : typed [backspace, carriageReturn] = [backspace] := by decide
  have short : ∀ keys, keys <+: typed [backspace, carriageReturn] →
      (edited keys).length ≤ (8 - 1 : Int) := by
    rw [keys, forall_prefix_cons]
    simp [edited, edit]
  refine ⟨run, by decide, fun right => ?_⟩
  obtain ⟨s, returned, line⟩ := right.line (by decide) short
  cases returned.symm.trans run
  exact absurd (line 0 0 (by decide)) (by decide)

end ConiferOS.User
