import ConiferOS.Keyboard.Ps2
import ConiferOS.Process.ExecveArguments
import ConiferOS.User.Shell

/-! # From the keys to the arguments

The loop of the shell's `main`, and one round of it through `execve` to the `main` of the child.
-/

namespace ConiferOS.User.Shell

open Lib

/-- `"0:/"` -/
def pathPrefix : List Byte := [0x30, 0x3a, 0x2f]

def prompt : List Byte := [0x3e, 0x20]

/-- Where the literal and the two arrays of `main` and `parse_command` are. -/
structure Places where
  literal : Word
  pathBuf : Word
  tokenBuf : Word

/-- The arguments of `coniferos_execve`, and memory at the call. -/
structure Call where
  filename : Word
  argv : Word
  argc : Int
  mem : Mem

/-- The stores of `coniferos_terminal_readline`, newest first. -/
def storeLine (out : Word) (stores : List (Int × Byte)) (t : Trace) : Trace :=
  stores.foldr (fun store t => t.store8 (out + BitVec.ofInt 32 store.1) store.2) t

/-- One round of the loop of `main`; `none` when it does not come to its call. -/
def command (fuel : Nat) (p : Places) (polls : List Byte) (s : ShellState) : Option (Call × ShellState) :=
  let s := { s with printed := s.printed ++ prompt }
  let s := s.onTrace fun t => strncpyTrace id t p.pathBuf p.literal pathPrefix.length
  match coniferosTerminalReadline (maxCommandLen - pathPrefix.length) polls with
  | .waiting _ => none
  | .returned line =>
      let s := { s with printed := s.printed ++ line.echo }
      let s := s.onTrace (storeLine (p.pathBuf + BitVec.ofNat 32 pathPrefix.length) line.stores)
      match parseCommand fuel fuel p.pathBuf maxCommandLen p.tokenBuf s with
      | none => none
      | some (root, s) =>
          match createArgvArray fuel root s with
          | none => none
          | some (argv, argc, s) => some (⟨root, argv, argc, s.mem⟩, s)

/-- The rounds of the loop, one for each line. -/
def session (fuel : Nat) (p : Places) : (lines : List (List Byte)) → ShellState → Option (List Call × ShellState)
  | [], s => some ([], s)
  | polls :: lines, s =>
      match command fuel p polls s with
      | none => none
      | some (call, s) =>
          match session fuel p lines s with
          | none => none
          | some (calls, s) => some (call :: calls, s)

/-! ## The line -/

section Line

variable {out : Word} {stores : List (Int × Byte)} {max : Nat} {t : Trace}

theorem storeLine_cell (small : max ≤ 2 ^ 31) (inside : ∀ store ∈ stores, 0 ≤ store.1 ∧ store.1 < max) {j : Nat}
    {c : Byte} (bound : j < max) (cell : (stores.find? (·.1 = (j : Int))).map (·.2) = some c) :
    (storeLine out stores t).mem (out + BitVec.ofNat 32 j) = c := by
  induction stores with
  | nil => cases cell
  | cons store stores ih =>
      obtain ⟨here, others⟩ := List.forall_mem_cons.mp inside
      obtain ⟨i, index⟩ := Int.eq_ofNat_of_zero_le here.1
      rw [storeLine, List.foldr_cons, ← storeLine, Trace.store8, index, BitVec.ofInt_natCast]
      by_cases same : i = j
      · subst same
        rw [List.find?_cons_of_pos (by simpa using index)] at cell
        exact (store8_self _ _ _).trans (Option.some.inj cell)
      · rw [List.find?_cons_of_neg (by rw [index]; simpa using same)] at cell
        exact (store8_of_ne _ (by bv_omega)).trans (ih others cell)

theorem storeLine_frame (small : max ≤ 2 ^ 31) (inside : ∀ store ∈ stores, 0 ≤ store.1 ∧ store.1 < max) {x : Word}
    (outside : max ≤ (x - out).toNat) : (storeLine out stores t).mem x = t.mem x := by
  induction stores with
  | nil => rfl
  | cons store stores ih =>
      obtain ⟨here, others⟩ := List.forall_mem_cons.mp inside
      obtain ⟨i, index⟩ := Int.eq_ofNat_of_zero_le here.1
      rw [storeLine, List.foldr_cons, ← storeLine, Trace.store8, index, BitVec.ofInt_natCast]
      exact (store8_of_ne _ (by bv_omega)).trans (ih others)

end Line

/-- The line comes to its end, and there is room in the buffer all the time. -/
structure Entered (polls : List Byte) : Prop where
  ended : carriageReturn ∈ polls
  room : ∀ keys, keys <+: typed polls →
    (Editor.after keys).kept.length < (maxCommandLen - pathPrefix.length : Int)

/-- What is in `path_buf` then. -/
def line (polls : List Byte) : List Byte := pathPrefix ++ (Editor.after (typed polls)).kept

def words (polls : List Byte) : List (List Byte) := (line polls).splitOn space

theorem Entered.length {polls : List Byte} (entered : Entered polls) : (line polls).length < 1024 := by
  have room := entered.room (typed polls) (List.prefix_refl _)
  have start : pathPrefix.length = 3 := rfl
  have size : maxCommandLen = 1024 := rfl
  rw [line, List.length_append]
  omega

theorem mem_of_mem_edited {keys : List Byte} {c : Byte} : c ∈ edited keys → c ∈ keys := by
  refine List.foldlRecOn (motive := fun line => c ∈ line → c ∈ keys) _ _ (by simp) fun line ih key member => ?_
  unfold edit
  split
  case isTrue => exact fun found => ih (List.mem_of_mem_dropLast found)
  case isFalse =>
    intro found
    rcases List.mem_append.mp found with earlier | last
    · exact ih earlier
    · exact List.mem_singleton.mp last ▸ member

theorem typed_nonzero {polls : List Byte} : ∀ c ∈ typed polls, c ≠ 0 := by
  intro c member
  have kept : c ∈ pressed polls := (List.takeWhile_prefix _).subset member
  simpa using (List.mem_filter.mp kept).2

theorem kept_nonzero {keys : List Byte} (nonzero : ∀ c ∈ keys, c ≠ 0) :
    ∀ c ∈ (Editor.after keys).kept, c ≠ 0 := by
  intro c member
  have inLine : c = backspace ∨ c ∈ edited keys := by
    rw [← after_line]
    unfold Editor.kept at member
    split at member
    · exact List.mem_cons.mp member
    · exact .inr member
  rcases inLine with rfl | found
  · decide
  · exact nonzero c (mem_of_mem_edited found)

/-- Every key of the line is echoed. -/
theorem readlineLoop_echo {max : Int} {polls : List Byte} {s : Readline} {e : Editor}
    (tracks : Tracks max s e.kept)
    (room : ∀ keys, keys <+: typed polls → (Run.final Editor.press e keys).kept.length < max)
    (pressed : carriageReturn ∈ polls) :
    (readlineLoop max polls s).state.echo = s.echo ++ typed polls := by
  fun_induction readlineLoop max polls s generalizing e with
  | case1 polls s _ none => exact absurd pressed (typed_of_none none).2
  | case2 polls s _ rest some => simp [Outcome.state, (typed_of_some some).1, Readline.put]
  | case3 polls s small key rest some other ih =>
      obtain ⟨keys, member⟩ := typed_of_some some
      rw [if_neg other] at keys
      rw [keys, forall_prefix_cons] at room
      have one : (readlineKey key s).echo = s.echo ++ [key] := by
        unfold readlineKey
        dsimp only
        split <;> rfl
      rw [keys, ih (readlineKey_tracks tracks room.1 key) room.2 ((member other).mp pressed), one,
        List.append_assoc, List.singleton_append]
  | case4 polls s full => exact absurd (tracks.counter ▸ room [] (List.nil_prefix)) full

theorem line_stored {polls : List Byte} (entered : Entered polls) {pathBuf literal : Word} {t : Trace}
    (string : StringAt t.mem id literal pathPrefix)
    (apart : ∀ k ≤ 3, 1024 ≤ (literal + BitVec.ofNat 32 k - pathBuf).toNat) :
    ∃ r, coniferosTerminalReadline (maxCommandLen - pathPrefix.length) polls = .returned r ∧
      r.echo = typed polls ∧ StringAt (storeLine (pathBuf + BitVec.ofNat 32 pathPrefix.length) r.stores
        (strncpyTrace id t pathBuf literal pathPrefix.length)).mem id pathBuf (line polls) ∧
      ∀ x, 1024 ≤ (x - pathBuf).toNat →
        (storeLine (pathBuf + BitVec.ofNat 32 pathPrefix.length) r.stores
          (strncpyTrace id t pathBuf literal pathPrefix.length)).mem x = t.mem x := by
  have start : pathPrefix.length = 3 := rfl
  have size : maxCommandLen = 1024 := rfl
  have direct : Direct id pathBuf pathPrefix.length := fun _ _ => rfl
  obtain ⟨copy, frame⟩ := strncpy_text direct (by decide) string fun k inside j bound => by
    have far := apart k inside
    rw [id]
    bv_omega
  rw [List.take_of_length_le le_rfl] at copy frame
  obtain ⟨r, returned, holds⟩ := readlineLoop_returns (start_tracks _) entered.room entered.ended
  have echo := readlineLoop_echo (start_tracks _) entered.room entered.ended
  rw [returned] at echo
  have stored : r.Inside (maxCommandLen - pathPrefix.length) := by
    have inside := (readlineLoop_inside_iff (start_tracks _)).mpr entered.room
    rwa [returned] at inside
  have inside : ∀ store ∈ r.stores, 0 ≤ store.1 ∧ store.1 < (1021 : Nat) := stored
  have length := entered.length
  rw [line, List.length_append, start] at length
  have cell : ∀ j c, ((Editor.after (typed polls)).kept ++ [0])[j]? = some c →
      (storeLine (pathBuf + BitVec.ofNat 32 pathPrefix.length) r.stores
        (strncpyTrace id t pathBuf literal pathPrefix.length)).mem
          (pathBuf + BitVec.ofNat 32 pathPrefix.length + BitVec.ofNat 32 j) = c := by
    intro j c found
    have bound := (List.getElem?_eq_some_iff.mp found).1
    rw [List.length_append, List.length_singleton] at bound
    exact storeLine_cell (by decide) inside (by omega) (holds j c found)
  refine ⟨r, returned, echo, ?_, fun x outside => ?_⟩
  · refine StringAt.append (fun i inside' => ?_) (by decide) ?_
    · rw [id, storeLine_frame (by decide : 1021 ≤ 2 ^ 31) inside (by rw [start] at *; bv_omega), strncpyTrace_mem]
      exact copy.byte i inside'
    · rw [← List.append_nil (Editor.after (typed polls)).kept]
      refine StringAt.append (fun i inside' => ?_) (kept_nonzero typed_nonzero) (.nil ?_)
      · exact cell i _ (by rw [List.getElem?_append_left inside', List.getElem?_eq_getElem inside'])
      · exact cell _ 0 (by simp)
  · rw [storeLine_frame (by decide : 1021 ≤ 2 ^ 31) inside (by rw [start]; bv_omega), strncpyTrace_mem]
    refine frame x ?_
    rintro j bound rfl
    bv_omega

/-! ## A round -/

/-- The literal and the arrays are apart from each other and from the blocks of the heap. -/
structure Places.Ok (p : Places) (heap : List Word) : Prop where
  pathBuf_ne : p.pathBuf ≠ 0
  tokenBuf_ne : p.tokenBuf ≠ 0
  top : p.pathBuf.toNat + 1024 ≤ 2 ^ 32
  blocks : Blocks heap
  pathBuf : ∀ j < 1024, Away heap (p.pathBuf + BitVec.ofNat 32 j)
  tokenBuf : ∀ j < 1024, Away heap (p.tokenBuf + BitVec.ofNat 32 j)
  apart : ∀ i < 1024, ∀ j < 1024, p.pathBuf + BitVec.ofNat 32 i ≠ p.tokenBuf + BitVec.ofNat 32 j
  literal : ∀ k ≤ 3, Away heap (p.literal + BitVec.ofNat 32 k) ∧
    1024 ≤ (p.literal + BitVec.ofNat 32 k - p.pathBuf).toNat ∧
    1024 ≤ (p.literal + BitVec.ofNat 32 k - p.tokenBuf).toNat

theorem Away.subset {tokens tokens' : List Word} {x : Word} (away : Away tokens x)
    (subset : tokens' ⊆ tokens) : Away tokens' x :=
  fun token member => away token (subset member)

theorem Blocks.perm {tokens tokens' : List Word} (blocks : Blocks tokens) (perm : tokens.Perm tokens') :
    Blocks tokens' where
  aligned token member := blocks.aligned token (perm.mem_iff.mpr member)
  nonnull token member := blocks.nonnull token (perm.mem_iff.mpr member)
  distinct := perm.nodup_iff.mp blocks.distinct

theorem Places.Ok.drop {p : Places} {blocks : List Word} (ok : p.Ok blocks) (n : Nat) : p.Ok (blocks.drop n) where
  pathBuf_ne := ok.pathBuf_ne
  tokenBuf_ne := ok.tokenBuf_ne
  top := ok.top
  blocks := ok.blocks.sublist (List.drop_sublist _ _)
  pathBuf j bound := (ok.pathBuf j bound).subset (List.drop_subset _ _)
  tokenBuf j bound := (ok.tokenBuf j bound).subset (List.drop_subset _ _)
  apart := ok.apart
  literal k bound :=
    ⟨(ok.literal k bound).1.subset (List.drop_subset _ _), (ok.literal k bound).2⟩

/-- A round took these blocks. -/
structure Round (p : Places) (s s' : ShellState) (call : Call) (tokens : List Word) (pieces : List (List Byte)) :
    Prop where
  count : call.argc = tokens.length
  mem : call.mem = s'.mem
  chain : Chain call.mem (call.filename :: tokens) pieces
  pointers : Pointers call.mem call.argv tokens
  blocks : s.blocks = call.filename :: (tokens ++ call.argv :: s'.blocks)
  asked : s'.asked = s.asked ++ List.replicate pieces.length commandTokenSize ++ [pieces.length * 4]
  freed : s'.freed = s.freed
  literal : StringAt s'.mem id p.literal pathPrefix

theorem length_splitOn_le (text : List Byte) : (text.splitOn space).length ≤ text.length + 1 := by
  induction text using splitInduction space with
  | last a clean =>
      rw [List.splitOn_eq_singleton clean, List.length_singleton]
      omega
  | more a rest clean ih =>
      rw [List.splitOn_append_cons_self_of_not_mem clean, List.length_cons, List.length_append, List.length_cons]
      omega

theorem command_round {fuel : Nat} {p : Places} {polls : List Byte} {s : ShellState} (ok : p.Ok s.blocks)
    (string : StringAt s.mem id p.literal pathPrefix) (entered : Entered polls)
    (supply : (words polls).length < s.blocks.length) (enough : 2 ^ 32 < fuel) :
    ∃ call s' tokens, command fuel p polls s = some (call, s') ∧ Round p s s' call tokens (words polls) ∧
      s'.printed = s.printed ++ (prompt ++ typed polls) := by
  have short := entered.length
  have pieces : (words polls).length ≤ (line polls).length + 1 := length_splitOn_le _
  have nonempty : 0 < (words polls).length := List.length_pos_of_ne_nil (List.splitOn_ne_nil _ _)
  obtain ⟨root, tokens, argv, more, count, blocks⟩ : ∃ root tokens argv more,
      tokens.length + 1 = (words polls).length ∧ s.blocks = root :: (tokens ++ argv :: more) := by
    obtain ⟨root, rest, same⟩ := List.exists_cons_of_length_pos (Nat.zero_lt_of_lt supply)
    rw [same, List.length_cons] at supply
    refine ⟨root, rest.take ((words polls).length - 1), rest[(words polls).length - 1],
      rest.drop ((words polls).length - 1 + 1), ?_, ?_⟩
    · rw [List.length_take]
      omega
    · rw [same, List.cons_getElem_drop_succ, List.take_append_drop]
  have part : (root :: tokens ++ [argv]).Sublist s.blocks := by
    rw [blocks, List.cons_append]
    exact ((List.Sublist.refl tokens).append (List.singleton_sublist.mpr List.mem_cons_self)).cons_cons _
  have own : Blocks (argv :: root :: tokens) := (ok.blocks.sublist part).perm (List.perm_append_singleton _ _)
  have members : root :: tokens ⊆ s.blocks := fun token member => part.subset (List.mem_append_left _ member)
  have member : [argv] ⊆ s.blocks := fun token found => part.subset (List.mem_append_right _ found)
  obtain ⟨r, returned, echo, stored, kept⟩ := line_stored entered string fun k bound => (ok.literal k bound).2.1
  have ready : Ready ⟨⟨storeLine (p.pathBuf + BitVec.ofNat 32 pathPrefix.length) r.stores
      (strncpyTrace id s.strtok.trace p.pathBuf p.literal pathPrefix.length), s.strtok.remainder⟩, s.blocks,
      s.asked, s.freed, s.printed ++ prompt ++ r.echo⟩ p.tokenBuf root p.pathBuf (line polls) tokens :=
    ⟨stored, ok.tokenBuf_ne, short, by have top := ok.top; omega, own.tail,
      fun j bound => (ok.tokenBuf j bound).subset members,
      fun i bound => ⟨(ok.pathBuf i (by omega)).subset members, fun j => ok.apart i (by omega) j⟩⟩
  have top := ok.top
  obtain ⟨s', parsed, listed⟩ := parseCommand_listed fuel fuel ready ok.pathBuf_ne
    (by omega) (by omega) count blocks
  have array := createArgvArray_eq fuel listed.chain own listed.blocks (by omega)
  obtain ⟨pointers, frame⟩ := withArgv_pointers listed.chain.tail.2
    (own.sublist ((List.sublist_cons_self _ _).cons_cons _)) (by omega)
  refine ⟨⟨root, argv, tokens.length, (withArgv argv tokens s'.strtok.trace).mem⟩,
    ⟨⟨withArgv argv tokens s'.strtok.trace, s'.strtok.remainder⟩, more, s'.asked ++ [(tokens.length + 1) * 4],
      s'.freed, s'.printed⟩, tokens, ?_, ?_, ?_⟩
  · simp only [command, ShellState.onTrace, returned, parsed, array]
    rfl
  · refine ⟨rfl, rfl, ?_, pointers, blocks, ?_, listed.freed, ?_⟩
    · exact listed.chain.congr fun token found i inside => frame _ (own.apart found inside)
    · rw [listed.asked, List.length_cons, count]
    · refine string.congr fun k bound => ?_
      obtain ⟨away, outside, outside'⟩ := ok.literal k bound
      exact (frame _ (away.subset member)).trans
        ((listed.frame _ (away.subset members) outside' trivial).trans (kept _ outside))
  · rw [listed.printed, echo, List.append_assoc]

/-- What a call of `coniferos_execve` is given: the words, each cut to the size of a token. -/
structure Spelled (call : Call) (pieces : List (List Byte)) : Prop where
  filename : StringAt call.mem id call.filename ((pieces.headD []).take maxCmmdArgLen)
  argc : call.argc = pieces.length - 1
  argv : ∀ i piece, pieces.tail[i]? = some piece →
    StringAt call.mem id (call.mem.load32 (call.argv + BitVec.ofNat 32 (4 * i))) (piece.take maxCmmdArgLen)
  null : call.mem.load32 (call.argv + BitVec.ofNat 32 (4 * pieces.tail.length)) = 0

theorem Chain.length {m : Mem} : ∀ {tokens : List Word} {texts : List (List Byte)}, Chain m tokens texts →
    tokens.length = texts.length := by
  intro tokens
  induction tokens with
  | nil =>
      intro texts chain
      cases texts with
      | nil => rfl
      | cons text texts => exact chain.elim
  | cons token tokens ih =>
      intro texts chain
      cases texts with
      | nil => exact chain.elim
      | cons text texts => exact congrArg (· + 1) (ih chain.2.2)

theorem Chain.string {m : Mem} : ∀ {tokens : List Word} {texts : List (List Byte)} {i : Nat} {token : Word}
    {text : List Byte}, Chain m tokens texts → tokens[i]? = some token → texts[i]? = some text →
    StringAt m id token (text.take maxCmmdArgLen) := by
  intro tokens
  induction tokens with
  | nil =>
      intro texts i token text _ found
      simp at found
  | cons first tokens ih =>
      intro texts i token text chain found found'
      cases texts with
      | nil => exact chain.elim
      | cons text' texts =>
          cases i with
          | zero =>
              obtain rfl : first = token := by simpa using found
              obtain rfl : text' = text := by simpa using found'
              exact chain.1
          | succ i => exact ih chain.2.2 (by simpa using found) (by simpa using found')

theorem Round.spelled {p : Places} {s s' : ShellState} {call : Call} {tokens : List Word}
    {pieces : List (List Byte)} (round : Round p s s' call tokens pieces) : Spelled call pieces := by
  have length := round.chain.length
  have chain := round.chain
  cases pieces with
  | nil => exact chain.elim
  | cons first pieces =>
      have same : tokens.length = pieces.length := Nat.succ.inj length
      refine ⟨chain.1, ?_, fun i piece found => ?_, ?_⟩
      · rw [round.count, List.length_cons, same]
        omega
      · have bound : i < tokens.length := by
          rw [same]
          exact (List.getElem?_eq_some_iff.mp found).1
        have token := List.getElem?_eq_getElem bound
        rw [round.pointers.pointers i _ token]
        exact chain.2.2.string token found
      · rw [List.tail_cons, ← same]
        exact round.pointers.null

/-- The blocks that a line takes: one for each word and one for the array. -/
def blocksOf (polls : List Byte) : Nat := (words polls).length + 1

/-- The literal on the program's page, the arrays on two pages of its stack. -/
def somePlaces : Places := ⟨0x400000, 0x3FD000, 0x3FE000⟩

def someShell : ShellState where
  strtok := ⟨⟨fun x => pathPrefix.getD (x - 0x400000).toNat 0, []⟩, 0⟩
  blocks := [0x1040000, 0x1041000, 0x1042000, 0x1043000, 0x1044000]
  asked := []
  freed := []
  printed := []

/-- The shell's heap is far behind its program and its stack. -/
theorem someShell_range : ∀ block ∈ someShell.blocks,
    block.toNat % 4096 = 0 ∧ 0x1040000 ≤ block.toNat ∧ block.toNat < 0x1045000 := by
  simp [someShell]

theorem someShell_away {x : Word} (low : x.toNat < 0x1000000) : Away someShell.blocks x := by
  intro block member same
  have range := someShell_range block member
  have numbers := congrArg BitVec.toNat same
  rw [Page.toNat_number, Page.toNat_number] at numbers
  omega

theorem someShell_blocks : Blocks someShell.blocks where
  aligned block member := (someShell_range block member).1
  nonnull block member := by
    have range := someShell_range block member
    rintro rfl
    exact absurd range.2.1 (by decide)
  distinct := by decide

theorem somePlaces_ok : somePlaces.Ok someShell.blocks where
  pathBuf_ne := by decide
  tokenBuf_ne := by decide
  top := by decide
  blocks := someShell_blocks
  pathBuf j bound := someShell_away (by rw [somePlaces]; bv_omega)
  tokenBuf j bound := someShell_away (by rw [somePlaces]; bv_omega)
  apart i _ j _ := by
    rw [somePlaces]
    bv_omega
  literal k bound := by
    refine ⟨someShell_away ?_, ?_, ?_⟩
    all_goals rw [somePlaces]; bv_omega

theorem someShell_literal : StringAt someShell.mem id somePlaces.literal pathPrefix :=
  .cons rfl (by decide) (.cons rfl (by decide) (.cons rfl (by decide) (.nil rfl)))

theorem kept_length_le (keys : List Byte) (e : Editor) :
    (Run.final Editor.press e keys).kept.length ≤ e.kept.length + keys.length := by
  induction keys generalizing e with
  | nil => exact le_rfl
  | cons key keys ih =>
      have pressed : (e.press key).kept.length ≤ e.kept.length + 1 := by
        rw [press_kept]
        split
        case isTrue => simp only [List.length_dropLast]; omega
        case isFalse => simp
      rw [Run.final_cons, List.length_cons]
      have rest := ih (e.press key)
      omega

theorem entered_of_short {polls : List Byte} (ended : carriageReturn ∈ polls)
    (short : (typed polls).length < 1021) : Entered polls := by
  refine ⟨ended, fun keys before => ?_⟩
  have bound := before.length_le
  have start : pathPrefix.length = 3 := rfl
  have size : maxCommandLen = 1024 := rfl
  have empty : (Editor.kept ⟨[], false⟩).length = 0 := rfl
  have kept := kept_length_le keys ⟨[], false⟩
  rw [Editor.after]
  omega

section Execve

open Process Paging Keyboard

/-- The shell's memory as the kernel sees it, for a call with so many arguments: the blocks of the
    shell's heap are mapped to memory that the call does not use. -/
structure Mapped (f : ExecveFrame) (argc : Nat) (pages : PageMap) (m user : Mem) (heap : List Word) : Prop where
  kernelStack : ∀ i < 4 * argc,
    pages.translate (f.argvKernelCopy + BitVec.ofNat 32 i) = f.argvKernelCopy + BitVec.ofNat 32 i
  bytes : ∀ block ∈ heap, ∀ i < 4096,
    m (pages.translate (block + BitVec.ofNat 32 i)) = user (block + BitVec.ofNat 32 i) ∧
      UserByte f argc pages (block + BitVec.ofNat 32 i)

/-- The arguments on a line, as the shell cuts them. -/
def arguments (text : List Byte) : List (List Byte) :=
  (text.splitOn space).tail.map (·.take maxCmmdArgLen)

variable {f : ExecveFrame} {argc : Nat} {pages : PageMap} {m user : Mem} {heap : List Word}

theorem Mapped.string (mapped : Mapped f argc pages m user heap) {block : Word} (member : block ∈ heap)
    {text : List Byte} (string : StringAt user id block text) (short : text.length < 4096) :
    UserString f argc pages m block text where
  string := string.congr fun i inside => (mapped.bytes block member i (by omega)).1
  user i inside := (mapped.bytes block member i (by omega)).2

theorem Mapped.load (mapped : Mapped f argc pages m user heap) {block : Word} (member : block ∈ heap) {i : Nat}
    (inside : 4 * i + 4 ≤ 4096) :
    loadVia pages.translate m (block + BitVec.ofNat 32 (4 * i)) =
      user.load32 (block + BitVec.ofNat 32 (4 * i)) := by
  have byte : ∀ k < 4, m (pages.translate (block + BitVec.ofNat 32 (4 * i) + BitVec.ofNat 32 k)) =
      user (id (block + BitVec.ofNat 32 (4 * i) + BitVec.ofNat 32 k)) := by
    intro k small
    have place : block + BitVec.ofNat 32 (4 * i) + BitVec.ofNat 32 k = block + BitVec.ofNat 32 (4 * i + k) := by
      bv_omega
    rw [place]
    exact (mapped.bytes block member (4 * i + k) (by omega)).1
  exact show loadVia pages.translate m _ = loadVia id user _ from loadVia_congr byte

/-- A round of the shell is a proper caller of `execve`. -/
theorem Round.caller {p : Places} {s s' : ShellState} {call : Call} {tokens : List Word} {text : List Byte}
    (round : Round p s s' call tokens (text.splitOn space))
    (mapped : Mapped f (arguments text).length pages m call.mem s.blocks)
    (path : ((text.splitOn space).headD []).length < maxFilePathChars)
    (few : (arguments text).length ≤ maxNumArgs) :
    call.argc = (arguments text).length ∧
      Caller f pages m call.argv call.filename ((text.splitOn space).headD []) (arguments text) := by
  have size : maxCmmdArgLen = 128 := rfl
  have most : maxNumArgs = 5 := rfl
  have longest : maxFilePathChars = 128 := rfl
  have spelled := round.spelled
  have blocks := round.blocks
  have length : tokens.length + 1 = (text.splitOn space).length := round.chain.length
  have args : (arguments text).length = tokens.length := by
    rw [arguments, List.length_map, List.length_tail]
    omega
  have filename : call.filename ∈ s.blocks := by simp [blocks]
  have argv : call.argv ∈ s.blocks := by simp [blocks]
  refine ⟨by rw [round.count, args], mapped.kernelStack, ?_, path, fun i bound => ?_, fun i inside => ?_⟩
  · have string := spelled.filename
    rw [List.take_of_length_le (by omega)] at string
    exact mapped.string filename string (by omega)
  · exact (mapped.bytes _ argv i (by omega)).2
  · have bound : i < tokens.length := args ▸ inside
    have token := List.getElem?_eq_getElem bound
    have member : tokens[i] ∈ s.blocks := by simp [blocks]
    obtain ⟨word, found, cut⟩ : ∃ word, (text.splitOn space).tail[i]? = some word ∧
        (arguments text)[i] = word.take maxCmmdArgLen := by
      have known : ((text.splitOn space).tail.map (·.take maxCmmdArgLen))[i]? = some (arguments text)[i] :=
        List.getElem?_eq_getElem inside
      rw [List.getElem?_map] at known
      obtain ⟨word, found, cut⟩ := Option.map_eq_some_iff.mp known
      exact ⟨word, found, cut.symm⟩
    have string := spelled.argv i word found
    have short := List.length_take_le maxCmmdArgLen word
    rw [round.pointers.pointers i _ token] at string
    rw [cut, mapped.load argv (by omega), round.pointers.pointers i _ token]
    exact mapped.string member string (by omega)

/-- With every page mapped to itself. -/
theorem someShell_mapped (user : Mem) :
    Mapped lettersFrame 1 (PageMap.linear 7) user user someShell.blocks where
  kernelStack _ _ := PageMap.translate_linear 7 _
  bytes block member i inside := by
    have range := someShell_range block member
    have place : (block + BitVec.ofNat 32 i).toNat = block.toNat + i := by bv_omega
    -- The blocks of the call are on pages below.
    have apart : ∀ q : Word, q.toNat < 0x1040000 →
        Page.number (block + BitVec.ofNat 32 i) ≠ Page.number q := by
      intro q low same
      have numbers := congrArg BitVec.toNat same
      rw [Page.toNat_number, Page.toNat_number, place] at numbers
      omega
    have start : kernelHeapAddress.toNat = 0x1000000 := rfl
    have tmp : (0x1001000 : Word).toNat < 0x1040000 := by decide
    refine ⟨by rw [PageMap.translate_linear], fun k _ => apart _ tmp, ?_⟩
    rw [PageMap.translate_linear]
    refine ⟨by omega, fun k _ => apart _ tmp, fun k bound => apart _ ?_, fun _ => apart _ (by decide)⟩
    obtain rfl : k = 0 := by omega
    decide

end Execve

end ConiferOS.User.Shell
