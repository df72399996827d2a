import ConiferOS.Memory.BoundedCopy
import ConiferOS.Lib.Page
import ConiferOS.User.Strtok

/-! # The shell

`shell.c` splits a command line into a linked list of tokens and makes the arguments of
`coniferos_execve` from it. A token of 128 characters has no room for the zero behind it: the zero
that ends it is the low byte of the pointer to the next token, which is at the start of a page.
-/

namespace ConiferOS.User.Shell

open Lib

def maxCommandLen : Nat := 1024

/-- The shell's `MAX_CMMD_ARG_LEN`; the kernel has another one. -/
def maxCmmdArgLen : Nat := 128

def space : Byte := 0x20

structure ShellState where
  strtok : Strtok
  /-- What the next calls of `malloc` return. -/
  blocks : List Word
  /-- The sizes that were asked for. -/
  asked : List Nat
  freed : List Word
  printed : List Byte

namespace ShellState

def mem (s : ShellState) : Mem := s.strtok.trace.mem

def malloc (size : Nat) (s : ShellState) : Word × ShellState :=
  (s.blocks.headD 0, { s with blocks := s.blocks.tail, asked := s.asked ++ [size] })

def onTrace (f : Trace → Trace) (s : ShellState) : ShellState :=
  { s with strtok := { s.strtok with trace := f s.strtok.trace } }

end ShellState

/-- `sizeof(struct command_token)` -/
def commandTokenSize : Nat := maxCmmdArgLen + 4

/-- `itr->next` -/
def next (m : Mem) (token : Word) : Word := m.load32 (token + BitVec.ofNat 32 maxCmmdArgLen)

def setNext (token v : Word) (t : Trace) : Trace := t.store32 (token + BitVec.ofNat 32 maxCmmdArgLen) v

/-- `strncpy` into `token`, and `next = 0`. -/
def fillToken (node token : Word) (t : Trace) : Trace :=
  setNext node 0 (strncpyTrace id t node token maxCmmdArgLen)

/-- The loop of `parse_command`, from the `memset` in front of each further `strtok` on; `none`
    when it is not through after so many calls. -/
def parseArguments (fuel : Nat) (tokenBuf root : Word) :
    (calls : Nat) → (current : Word) → ShellState → Option (Word × ShellState)
  | 0, _, _ => none
  | calls + 1, current, s =>
      let s := s.onTrace (·.fill tokenBuf 1024 0)
      match strtok fuel 0 space tokenBuf s.strtok with
      | none => none
      | some (token, strtok) =>
          let s := { s with strtok := strtok }
          if token = 0 then some (root, s)
          else
            let (nextArg, s) := s.malloc commandTokenSize
            if nextArg = 0 then some (0, { s with freed := root :: s.freed })
            else
              let s := s.onTrace (fillToken nextArg token)
              let s := s.onTrace (setNext current nextArg)
              parseArguments fuel tokenBuf root calls nextArg s

def parseCommand (fuel calls : Nat) (command : Word) (commandLen : Int) (tokenBuf : Word) (s : ShellState) :
    Option (Word × ShellState) :=
  if maxCommandLen < commandLen then some (0, s)
  else
    match strtok fuel command space tokenBuf s.strtok with
    | none => none
    | some (token, strtok) =>
        let s := { s with strtok := strtok }
        if token = 0 then some (0, s)
        else
          let (root, s) := s.malloc commandTokenSize
          if root = 0 then some (0, s)
          else parseArguments fuel tokenBuf root calls root (s.onTrace (fillToken root token))

/-- `none` when the end of the list is not reached after `fuel` tokens. -/
def countTokens (m : Mem) : (fuel : Nat) → (itr : Word) → Option Nat
  | 0, _ => none
  | fuel + 1, itr => if itr = 0 then some 0 else (countTokens m fuel (next m itr)).map (· + 1)

/-- `argv[i] = itr->token; itr = itr->next` -/
def fillArgv (argv : Word) : (remaining i : Nat) → (itr : Word) → Trace → Trace
  | 0, _, _, t => t
  | remaining + 1, i, itr, t =>
      let t := t.store32 (argv + BitVec.ofNat 32 (4 * i)) itr
      fillArgv argv remaining (i + 1) (next t.mem itr) t

def allocationMessage : List Byte :=
  "shell.c: ERROR: could not allocate memory for argv".toList.map fun c => BitVec.ofNat 8 c.toNat

/-- The array and `*arg_count`, which `main` sets to zero before the call. -/
def createArgvArray (fuel : Nat) (command : Word) (s : ShellState) : Option (Word × Int × ShellState) :=
  if command = 0 then some (0, 0, s)
  else
    match countTokens s.mem fuel (next s.mem command) with
    | none => none
    | some count =>
        let (argv, s) := s.malloc ((count + 1) * 4)
        if argv = 0 then some (0, 0, { s with printed := s.printed ++ allocationMessage })
        else
          let s := s.onTrace (fillArgv argv count 0 (next s.mem command))
          let s := s.onTrace (·.store32 (argv + BitVec.ofNat 32 (4 * count)) 0)
          some (argv, count, s)

/-! ## Tokens in memory -/

/-- The tokens are linked in this order, and each has its text. -/
def Chain (m : Mem) : List Word → List (List Byte) → Prop
  | [], [] => True
  | token :: tokens, text :: texts =>
      StringAt m id token (text.take maxCmmdArgLen) ∧ next m token = tokens.headD 0 ∧ Chain m tokens texts
  | _, _ => False

theorem Chain.tail {m : Mem} {token : Word} {tokens : List Word} {texts : List (List Byte)}
    (chain : Chain m (token :: tokens) texts) : next m token = tokens.headD 0 ∧ Chain m tokens texts.tail := by
  cases texts with
  | nil => exact chain.elim
  | cons text texts => exact chain.2

/-- Not on the page of a token. -/
def Away (tokens : List Word) (x : Word) : Prop := ∀ token ∈ tokens, Page.number x ≠ Page.number token

/-- Blocks of the heap: pages of their own. -/
structure Blocks (tokens : List Word) : Prop where
  aligned : ∀ token ∈ tokens, token.toNat % 4096 = 0
  nonnull : ∀ token ∈ tokens, token ≠ 0
  distinct : tokens.Nodup

theorem Blocks.sublist {tokens tokens' : List Word} (blocks : Blocks tokens) (sublist : tokens'.Sublist tokens) :
    Blocks tokens' where
  aligned token member := blocks.aligned token (sublist.subset member)
  nonnull token member := blocks.nonnull token (sublist.subset member)
  distinct := blocks.distinct.sublist sublist

theorem Blocks.tail {token : Word} {tokens : List Word} (blocks : Blocks (token :: tokens)) : Blocks tokens :=
  blocks.sublist (List.sublist_cons_self _ _)

/-- The pages of two blocks are different. -/
theorem Blocks.away {token : Word} {tokens : List Word} (blocks : Blocks (token :: tokens)) {i : Nat}
    (inside : i < 4096) : Away tokens (token + BitVec.ofNat 32 i) := by
  intro other member same
  have aligned := blocks.aligned token List.mem_cons_self
  have aligned' := blocks.aligned other (List.mem_cons_of_mem _ member)
  rw [Page.number_add aligned inside] at same
  have equal : token = other := by
    rw [← Page.base_number aligned, ← Page.base_number aligned', same]
  exact (List.nodup_cons.mp blocks.distinct).1 (equal ▸ member)

theorem Away.far {tokens : List Word} {x token : Word} (away : Away tokens x) (member : token ∈ tokens)
    (aligned : token.toNat % 4096 = 0) : 4096 ≤ (x - token).toNat := by
  by_contra near
  exact away token member (Page.number_eq_of_sub_lt aligned (by omega))

/-- A text in a token stays what it is when `next` is set to the start of a page. -/
theorem text_kept {m m' : Mem} {token : Word} {text : List Byte}
    (string : StringAt m id token (text.take maxCmmdArgLen))
    (same : ∀ i < maxCmmdArgLen, m' (token + BitVec.ofNat 32 i) = m (token + BitVec.ofNat 32 i))
    (aligned : (next m' token).toNat % 4096 = 0) : StringAt m' id token (text.take maxCmmdArgLen) := by
  have short : (text.take maxCmmdArgLen).length ≤ maxCmmdArgLen := List.length_take_le _ _
  have low : m' (token + BitVec.ofNat 32 maxCmmdArgLen) = 0 := by
    have byte : m' (token + BitVec.ofNat 32 maxCmmdArgLen) = (next m' token).setWidth 8 := by
      rw [next, Mem.load32, BitVec.setWidth_append, dif_pos (by decide), BitVec.setWidth_eq]
    rw [byte]
    apply BitVec.eq_of_toNat_eq
    rw [BitVec.toNat_setWidth, show (0 : Byte).toNat = 0 from rfl]
    omega
  refine string.congr fun i inside => ?_
  rcases Nat.lt_or_ge i maxCmmdArgLen with before | full
  · exact same i before
  · obtain rfl : i = maxCmmdArgLen := by omega
    have last : (text.take maxCmmdArgLen).length = maxCmmdArgLen := by omega
    have zero := string.terminator
    rw [last] at zero
    exact low.trans zero.symm

/-! ## Parsing -/

/-- Not the link of a token. -/
def Unlinked (current x : Word) : Prop := 4 ≤ (x - (current + BitVec.ofNat 32 maxCmmdArgLen)).toNat

/-- The rest of the command line at `r`, and the blocks: one for the token before it, and those for
    its own. -/
structure Ready (s : ShellState) (tokenBuf current r : Word) (text : List Byte) (tokens : List Word) : Prop where
  string : StringAt s.mem id r text
  buf_ne : tokenBuf ≠ 0
  short : text.length < 1024
  inside : r.toNat + text.length < 2 ^ 32
  blocks : Blocks (current :: tokens)
  buffer : ∀ j < 1024, Away (current :: tokens) (tokenBuf + BitVec.ofNat 32 j)
  apart : ∀ i ≤ text.length, Away (current :: tokens) (r + BitVec.ofNat 32 i) ∧
    ∀ j < 1024, r + BitVec.ofNat 32 i ≠ tokenBuf + BitVec.ofNat 32 j

/-- A piece of the line has become the last token. What `kept` excludes may have changed as well. -/
structure Filled (s s' : ShellState) (tokenBuf : Word) (kept : Word → Prop) (token : Word) (more : List Word)
    (a : List Byte) : Prop where
  blocks : s'.blocks = more
  asked : s'.asked = s.asked ++ [commandTokenSize]
  freed : s'.freed = s.freed
  printed : s'.printed = s.printed
  string : StringAt s'.mem id token (a.take maxCmmdArgLen)
  last : next s'.mem token = 0
  frame : ∀ x, Away [token] x → 1024 ≤ (x - tokenBuf).toNat → kept x → s'.mem x = s.mem x

/-- The pieces of the line have become tokens. -/
structure Listed (s s' : ShellState) (tokenBuf : Word) (kept : Word → Prop) (tokens more : List Word)
    (pieces : List (List Byte)) : Prop where
  blocks : s'.blocks = more
  asked : s'.asked = s.asked ++ List.replicate tokens.length commandTokenSize
  freed : s'.freed = s.freed
  printed : s'.printed = s.printed
  chain : Chain s'.mem tokens pieces
  frame : ∀ x, Away tokens x → 1024 ≤ (x - tokenBuf).toNat → kept x → s'.mem x = s.mem x

theorem fillToken_text {t : Trace} {node token : Word} {text : List Byte}
    (source : StringAt t.mem id token text)
    (apart : ∀ k ≤ text.length, ∀ j ≤ maxCmmdArgLen,
      token + BitVec.ofNat 32 k ≠ node + BitVec.ofNat 32 j) :
    StringAt (fillToken node token t).mem id node (text.take maxCmmdArgLen) ∧
      next (fillToken node token t).mem node = 0 ∧
      ∀ x, maxCmmdArgLen + 4 ≤ (x - node).toNat → (fillToken node token t).mem x = t.mem x := by
  have size : maxCmmdArgLen = 128 := rfl
  have direct : Direct id node maxCmmdArgLen := fun _ _ => rfl
  obtain ⟨copy, frame⟩ := strncpy_text direct (by decide) source apart
  have cleared : next (fillToken node token t).mem node = 0 := Mem.load32_store32_self _ _ _
  refine ⟨text_kept copy (fun i before => ?_) (by rw [cleared]; rfl), cleared, fun x outside => ?_⟩
  · rw [fillToken, setNext, Trace.store32_mem, strncpyTrace_mem]
    exact Mem.store32_apply_of_le (by bv_omega)
  · rw [fillToken, setNext, Trace.store32_mem, strncpyTrace_mem, Mem.store32_apply_of_le (by bv_omega)]
    refine frame x fun j bound same => ?_
    have short : (text.take maxCmmdArgLen).length ≤ maxCmmdArgLen := List.length_take_le _ _
    bv_omega

section Loop

variable {fuel calls : Nat} {tokenBuf root current r token : Word} {tokens more used : List Word}
  {a behind text : List Byte} {s s' s'' : ShellState} {kept : Word → Prop}

/-- The line is not in the buffer. -/
theorem Ready.outside (ready : Ready s tokenBuf current r text tokens) {i : Nat} (inside : i ≤ text.length) :
    1024 ≤ (r + BitVec.ofNat 32 i - tokenBuf).toNat := by
  by_contra near
  exact (ready.apart i inside).2 (r + BitVec.ofNat 32 i - tokenBuf).toNat (by omega) (by bv_omega)

/-- The tokens are not in the buffer. -/
theorem Ready.token_outside (ready : Ready s tokenBuf current r text tokens) (member : token ∈ current :: tokens)
    {i : Nat} (inside : i < 4096) : 1024 ≤ (token + BitVec.ofNat 32 i - tokenBuf).toNat := by
  by_contra near
  have away := ready.buffer (token + BitVec.ofNat 32 i - tokenBuf).toNat (by omega) token member
  have place : tokenBuf + BitVec.ofNat 32 (token + BitVec.ofNat 32 i - tokenBuf).toNat =
      token + BitVec.ofNat 32 i := by bv_omega
  rw [place, Page.number_add (ready.blocks.aligned token member) inside] at away
  exact away rfl

/-- The link of a token is kept by what keeps the page of the token. -/
theorem next_congr {m m' : Mem} {token : Word}
    (same : ∀ i < 4096, m' (token + BitVec.ofNat 32 i) = m (token + BitVec.ofNat 32 i)) :
    next m' token = next m token := by
  refine Mem.load32_congr fun x near => ?_
  have size : maxCmmdArgLen = 128 := rfl
  have place : x = token + BitVec.ofNat 32 (128 + (x - (token + BitVec.ofNat 32 maxCmmdArgLen)).toNat) := by
    bv_omega
  rw [place]
  exact same _ (by omega)

variable (more) in
/-- The piece that `strtok` left in the buffer goes to a token. -/
theorem fillToken_filled {t : Trace} (remainder : Word) (aligned : token.toNat % 4096 = 0)
    (away : ∀ j < 1024, Away [token] (tokenBuf + BitVec.ofNat 32 j)) (short : a.length < 1024)
    (copied : Copied s.strtok.trace t tokenBuf a) :
    Filled s ⟨⟨fillToken token tokenBuf t, remainder⟩, more, s.asked ++ [commandTokenSize], s.freed, s.printed⟩
      tokenBuf (fun _ => True) token more a := by
  have size : maxCmmdArgLen = 128 := rfl
  have separate : ∀ k ≤ a.length, ∀ j ≤ maxCmmdArgLen,
      tokenBuf + BitVec.ofNat 32 k ≠ token + BitVec.ofNat 32 j := by
    intro k inside j bound same
    have far := (away k (by omega)).far List.mem_cons_self aligned
    bv_omega
  obtain ⟨string, last, frame⟩ := fillToken_text copied.copy separate
  refine ⟨rfl, rfl, rfl, rfl, string, last, fun x apart outside _ => ?_⟩
  have far := apart.far List.mem_cons_self aligned
  refine (frame x (by omega)).trans (copied.frame x ?_)
  rintro j bound rfl
  bv_omega

/-- The buffer is cleared once more behind the last piece. -/
theorem Filled.listed (ready : Ready s tokenBuf token r text []) (filled : Filled s s' tokenBuf kept token more a) :
    Listed s (s'.onTrace (·.fill tokenBuf 1024 0)) tokenBuf kept [token] more [a] := by
  have cleared : ∀ x, 1024 ≤ (x - tokenBuf).toNat → (s'.onTrace (·.fill tokenBuf 1024 0)).mem x = s'.mem x :=
    fun x outside => Mem.fill_apply_of_le outside
  have last : next (s'.onTrace (·.fill tokenBuf 1024 0)).mem token = 0 :=
    (next_congr fun i inside => cleared _ (ready.token_outside List.mem_cons_self inside)).trans filled.last
  have size : maxCmmdArgLen = 128 := rfl
  refine ⟨filled.blocks, filled.asked, filled.freed, filled.printed, ⟨?_, last, trivial⟩, fun x away outside other => ?_⟩
  · refine text_kept filled.string (fun i before => cleared _ ?_) (by rw [last]; rfl)
    exact ready.token_outside List.mem_cons_self (by omega)
  · exact (cleared x outside).trans (filled.frame x away outside other)

/-- The rest of the line behind a piece. -/
theorem Filled.ready {rest : List Byte} (ready : Ready s tokenBuf token r (a ++ space :: rest) tokens)
    (filled : Filled s s' tokenBuf kept token more a)
    (others : ∀ i ≤ (a ++ space :: rest).length, kept (r + BitVec.ofNat 32 i)) :
    Ready s' tokenBuf token (r + BitVec.ofNat 32 a.length + 1) rest tokens := by
  have length : (a ++ space :: rest).length = a.length + 1 + rest.length := by
    rw [List.length_append, List.length_cons]
    omega
  have place : ∀ i, r + BitVec.ofNat 32 a.length + 1 + BitVec.ofNat 32 i =
      r + BitVec.ofNat 32 (a.length + 1 + i) := by
    intro i
    bv_omega
  have short := ready.short
  have inside := ready.inside
  rw [length] at short inside
  refine ⟨?_, ready.buf_ne, by omega, by bv_omega, ready.blocks, ready.buffer, fun i bound => ?_⟩
  · have behind : StringAt s.mem id (r + BitVec.ofNat 32 a.length) (space :: rest) := ready.string.drop
    cases behind with
    | cons char nonzero string =>
        refine string.congr fun i bound => ?_
        rw [id, place]
        have away := (ready.apart (a.length + 1 + i) (by omega)).1
        exact filled.frame _ (fun other member => away other (by simp_all)) (ready.outside (by omega))
          (others _ (by omega))
  · rw [place]
    exact ready.apart (a.length + 1 + i) (by omega)

/-- A piece in front of the others. -/
theorem Filled.cons {pieces : List (List Byte)} (ready : Ready s' tokenBuf token r text tokens)
    (filled : Filled s s' tokenBuf kept token used a)
    (listed : Listed s' s'' tokenBuf (Unlinked token) tokens more pieces)
    (linked : next s''.mem token = tokens.headD 0) :
    Listed s s'' tokenBuf kept (token :: tokens) more (a :: pieces) := by
  have size : maxCmmdArgLen = 128 := rfl
  have aligned := ready.blocks.aligned token List.mem_cons_self
  have nextAligned : (tokens.headD 0).toNat % 4096 = 0 := by
    cases tokens with
    | nil => rfl
    | cons first tokens => exact ready.blocks.tail.aligned first List.mem_cons_self
  refine ⟨listed.blocks, ?_, listed.freed.trans filled.freed, listed.printed.trans filled.printed,
    ⟨text_kept filled.string (fun i before => ?_) (by rw [linked]; exact nextAligned), linked, listed.chain⟩,
    fun x away outside other => ?_⟩
  · rw [listed.asked, filled.asked, List.append_assoc, List.length_cons, List.replicate_succ, List.singleton_append]
  · refine listed.frame _ (ready.blocks.away (by omega)) (ready.token_outside List.mem_cons_self (by omega)) ?_
    rw [Unlinked]
    bv_omega
  · have far := away.far List.mem_cons_self aligned
    refine (listed.frame x (fun other member => away other (List.mem_cons_of_mem _ member)) outside ?_).trans
      (filled.frame x (fun other member => away other (by simp_all)) outside other)
    rw [Unlinked]
    bv_omega

variable (calls root) in
/-- One round of the loop. -/
theorem parseArguments_step (ready : Ready s tokenBuf current r (a ++ behind) (token :: tokens))
    (place : s.strtok.remainder = r) (nonnull : r ≠ 0) (clean : space ∉ a)
    (ends : behind = [] ∨ behind.head? = some space) (enough : r.toNat + (a ++ behind).length < fuel)
    (supply : s.blocks = token :: more) :
    ∃ s', parseArguments fuel tokenBuf root (calls + 1) current s =
        parseArguments fuel tokenBuf root calls token s' ∧
      s'.strtok.remainder = (if behind = [] then 0 else r + BitVec.ofNat 32 a.length + 1) ∧
      Filled s s' tokenBuf (Unlinked current) token more a ∧ next s'.mem current = token := by
  have size : maxCmmdArgLen = 128 := rfl
  have short : a.length < 1024 := by
    have short := ready.short
    rw [List.length_append] at short
    omega
  have aligned := ready.blocks.tail.aligned token List.mem_cons_self
  have tokenNonnull := ready.blocks.tail.nonnull token List.mem_cons_self
  have line : StringAt (s.strtok.trace.fill tokenBuf 1024 0).mem id r (a ++ behind) :=
    ready.string.congr fun i inside => Mem.fill_apply_of_le (ready.outside inside)
  have source : (0 : Word) = 0 ∧ (s.onTrace (·.fill tokenBuf 1024 0)).strtok.remainder = r ∨ (0 : Word) = r :=
    .inl ⟨rfl, place⟩
  obtain ⟨t, copied, call⟩ := strtok_piece source nonnull clean ends ready.inside enough line
    fun k inside j bound => (ready.apart k inside).2 j (by omega)
  have filled := fillToken_filled (s := s.onTrace (·.fill tokenBuf 1024 0)) more
    (if behind = [] then 0 else r + BitVec.ofNat 32 a.length + 1) aligned
    (fun j bound other member => ready.buffer j bound other (by simp_all)) short copied
  refine ⟨⟨⟨setNext current token (fillToken token tokenBuf t),
      if behind = [] then 0 else r + BitVec.ofNat 32 a.length + 1⟩, more,
      s.asked ++ [commandTokenSize], s.freed, s.printed⟩, ?_, rfl, ?_, Mem.load32_store32_self _ _ _⟩
  · simp only [ShellState.onTrace] at call
    rw [parseArguments]
    simp only [call, if_neg ready.buf_ne, ShellState.malloc, ShellState.onTrace, supply, List.headD_cons,
      if_neg tokenNonnull, List.tail_cons]
  -- The link of the token before is on another page.
  have linked : ∀ x, Unlinked current x →
      (setNext current token (fillToken token tokenBuf t)).mem x = (fillToken token tokenBuf t).mem x :=
    fun x outside => Mem.store32_apply_of_le outside
  have beside : ∀ i < 4096, Unlinked current (token + BitVec.ofNat 32 i) := by
    intro i inside
    have far := (ready.blocks.away (i := 0) (by decide)).far List.mem_cons_self aligned
    have currentAligned := ready.blocks.aligned current List.mem_cons_self
    rw [Unlinked]
    bv_omega
  have last : next (setNext current token (fillToken token tokenBuf t)).mem token = 0 :=
    (next_congr fun i inside => linked _ (beside i inside)).trans filled.last
  have lastAligned : (next (setNext current token (fillToken token tokenBuf t)).mem token).toNat % 4096 = 0 := by
    rw [last]
    rfl
  refine ⟨rfl, rfl, rfl, rfl, text_kept filled.string (fun i before => linked _ (beside i (by omega))) lastAligned,
    last, fun x away outside other => ?_⟩
  exact (linked x other).trans ((filled.frame x away outside trivial).trans (Mem.fill_apply_of_le outside))

theorem parseArguments_done (done : s.strtok.remainder = 0) :
    parseArguments fuel tokenBuf root (calls + 1) current s = some (root, s.onTrace (·.fill tokenBuf 1024 0)) := by
  have call : strtok fuel 0 space tokenBuf (s.onTrace (·.fill tokenBuf 1024 0)).strtok =
      some (0, (s.onTrace (·.fill tokenBuf 1024 0)).strtok) := strtok_done done
  simp only [ShellState.onTrace] at call
  rw [parseArguments]
  simp only [ShellState.onTrace, call, if_true]

theorem Ready.tail (ready : Ready s tokenBuf current r text (token :: tokens)) :
    Ready s tokenBuf token r text tokens where
  string := ready.string
  buf_ne := ready.buf_ne
  short := ready.short
  inside := ready.inside
  blocks := ready.blocks.tail
  buffer j bound other member := ready.buffer j bound other (List.mem_cons_of_mem _ member)
  apart i bound :=
    ⟨fun other member => (ready.apart i bound).1 other (List.mem_cons_of_mem _ member), (ready.apart i bound).2⟩

/-- Neither the line nor the tokens behind it are on the page of the token before. -/
theorem Ready.unlinked (ready : Ready s tokenBuf current r text tokens) {i : Nat} (inside : i ≤ text.length) :
    Unlinked current (r + BitVec.ofNat 32 i) := by
  have far := (ready.apart i inside).1.far List.mem_cons_self (ready.blocks.aligned current List.mem_cons_self)
  have size : maxCmmdArgLen = 128 := rfl
  rw [Unlinked]
  bv_omega

/-- The link of the token before is not touched again. -/
theorem Listed.linked {pieces : List (List Byte)} (ready : Ready s tokenBuf current r text (token :: tokens))
    (listed : Listed s' s'' tokenBuf (Unlinked token) tokens more pieces) :
    next s''.mem current = next s'.mem current := by
  refine next_congr fun i inside => listed.frame _ ?_ (ready.token_outside List.mem_cons_self inside) ?_
  · exact fun other member => ready.blocks.away inside other (List.mem_cons_of_mem _ member)
  · have far := (ready.blocks.away inside).far List.mem_cons_self
      (ready.blocks.tail.aligned token List.mem_cons_self)
    have size : maxCmmdArgLen = 128 := rfl
    rw [Unlinked]
    bv_omega

variable (fuel root) in
/-- Induction on the pieces of the line. -/
theorem parseArguments_listed (text : List Byte) :
    ∀ (calls : Nat) {current r : Word} {tokens : List Word} {s : ShellState},
      Ready s tokenBuf current r text tokens → s.strtok.remainder = r → r ≠ 0 →
      r.toNat + text.length < fuel → text.length + 1 < calls →
      tokens.length = (text.splitOn space).length → s.blocks = tokens ++ more →
      ∃ s', parseArguments fuel tokenBuf root calls current s = some (root, s') ∧
        Listed s s' tokenBuf (Unlinked current) tokens more (text.splitOn space) ∧
        next s'.mem current = tokens.headD 0 := by
  induction text using splitInduction space with
  | last a clean =>
      intro calls current r tokens s ready place nonnull enough many count supply
      obtain ⟨calls, rfl⟩ : ∃ n, calls = n + 2 := ⟨calls - 2, by omega⟩
      rw [List.splitOn_eq_singleton clean] at count ⊢
      obtain ⟨token, rfl⟩ := List.length_eq_one_iff.mp count
      rw [← List.append_nil a] at ready enough
      obtain ⟨s', run, remainder, filled, linked⟩ := parseArguments_step (calls + 1) root
        ready place nonnull clean (.inl rfl) enough supply
      refine ⟨_, run.trans (parseArguments_done remainder), filled.listed ready.tail, ?_⟩
      rw [List.headD_cons, ← linked]
      exact next_congr fun i inside => Mem.fill_apply_of_le (ready.token_outside List.mem_cons_self inside)
  | more a rest clean ih =>
      intro calls current r tokens s ready place nonnull enough many count supply
      obtain ⟨calls, rfl⟩ := Nat.exists_eq_succ_of_ne_zero (Nat.ne_zero_of_lt many)
      rw [List.splitOn_append_cons_self_of_not_mem clean, List.length_cons] at count
      rw [List.splitOn_append_cons_self_of_not_mem clean]
      obtain ⟨token, tokens, rfl⟩ := List.exists_cons_of_length_eq_add_one count
      have length : (a ++ space :: rest).length = a.length + 1 + rest.length := by
        rw [List.length_append, List.length_cons]
        omega
      obtain ⟨s₁, run, remainder, filled, linked⟩ := parseArguments_step calls root ready
        place nonnull clean (.inr rfl) enough supply
      rw [if_neg (List.cons_ne_nil _ _)] at remainder
      have ready₁ := filled.ready ready.tail fun i bound => ready.unlinked bound
      have inside := ready.inside
      rw [length] at inside enough many
      obtain ⟨s', run', listed, linked'⟩ := ih calls ready₁ remainder (by bv_omega) (by bv_omega)
        (by omega) (by simpa using count) filled.blocks
      exact ⟨s', run.trans run', filled.cons ready₁ listed linked', (listed.linked ready).trans linked⟩

variable (fuel calls) in
/-- The whole line. -/
theorem parseCommand_listed (ready : Ready s tokenBuf root r text tokens) (nonnull : r ≠ 0)
    (enough : r.toNat + text.length < fuel) (many : text.length + 1 < calls)
    (count : tokens.length + 1 = (text.splitOn space).length) (supply : s.blocks = root :: (tokens ++ more)) :
    ∃ s', parseCommand fuel calls r maxCommandLen tokenBuf s = some (root, s') ∧
      Listed s s' tokenBuf (fun _ => True) (root :: tokens) more (text.splitOn space) := by
  have aligned := ready.blocks.aligned root List.mem_cons_self
  have rootNonnull := ready.blocks.nonnull root List.mem_cons_self
  have first : ∀ a tail : List Byte, text = a ++ tail → space ∉ a → (tail = [] ∨ tail.head? = some space) →
      ∃ s', parseCommand fuel calls r maxCommandLen tokenBuf s =
          parseArguments fuel tokenBuf root calls root s' ∧
        s'.strtok.remainder = (if tail = [] then 0 else r + BitVec.ofNat 32 a.length + 1) ∧
        Filled s s' tokenBuf (fun _ => True) root (tokens ++ more) a := by
    rintro a tail rfl clean ends
    have short := ready.short
    rw [List.length_append] at short
    obtain ⟨t, copied, call⟩ := strtok_piece (s := s.strtok) (.inr rfl) nonnull clean ends
      ready.inside enough ready.string fun k inside j bound => (ready.apart k inside).2 j (by omega)
    have filled := fillToken_filled (s := s) (tokens ++ more)
      (if tail = [] then 0 else r + BitVec.ofNat 32 a.length + 1) aligned
      (fun j bound other member => ready.buffer j bound other (by simp_all)) (by omega) copied
    refine ⟨_, ?_, rfl, filled⟩
    rw [parseCommand, if_neg (lt_irrefl _)]
    simp only [call, if_neg ready.buf_ne, ShellState.malloc, ShellState.onTrace, supply, List.headD_cons,
      if_neg rootNonnull, List.tail_cons]
  by_cases single : space ∈ text
  · obtain ⟨a, rest, rfl, clean⟩ := List.eq_append_cons_of_mem single
    obtain ⟨s₁, run, remainder, filled⟩ := first a (space :: rest) rfl clean (.inr rfl)
    rw [if_neg (List.cons_ne_nil _ _)] at remainder
    rw [List.splitOn_append_cons_self_of_not_mem clean] at count ⊢
    have length : (a ++ space :: rest).length = a.length + 1 + rest.length := by
      rw [List.length_append, List.length_cons]
      omega
    have ready₁ := filled.ready ready fun _ _ => trivial
    have inside := ready.inside
    rw [length] at inside enough many
    obtain ⟨s', run', listed, linked⟩ := parseArguments_listed fuel root rest calls ready₁
      remainder (by bv_omega) (by bv_omega) (by omega) (by simpa using count) filled.blocks
    exact ⟨s', run.trans run', filled.cons ready₁ listed linked⟩
  · obtain ⟨s₁, run, remainder, filled⟩ := first text [] (List.append_nil _).symm single (.inl rfl)
    rw [List.splitOn_eq_singleton single] at count ⊢
    obtain rfl := List.eq_nil_of_length_eq_zero (by simpa using count)
    obtain ⟨calls, rfl⟩ := Nat.exists_eq_succ_of_ne_zero (Nat.ne_zero_of_lt many)
    exact ⟨_, run.trans (parseArguments_done remainder), filled.listed ready⟩

end Loop

/-! ## The array of arguments -/

section Argv

variable {argv : Word}

theorem Chain.congr {m m' : Mem} : ∀ {tokens : List Word} {texts : List (List Byte)}, Chain m tokens texts →
    (∀ token ∈ tokens, ∀ i < 4096, m' (token + BitVec.ofNat 32 i) = m (token + BitVec.ofNat 32 i)) →
    Chain m' tokens texts := by
  intro tokens
  induction tokens with
  | nil =>
      intro texts chain _
      cases texts with
      | nil => trivial
      | cons text texts => exact chain
  | cons token tokens ih =>
      intro texts chain same
      cases texts with
      | nil => exact chain
      | cons text texts =>
          obtain ⟨string, linked, rest⟩ := chain
          have short : (text.take maxCmmdArgLen).length ≤ maxCmmdArgLen := List.length_take_le _ _
          have size : maxCmmdArgLen = 128 := rfl
          refine ⟨string.congr fun i inside => same token List.mem_cons_self i (by omega), ?_,
            ih rest fun other member => same other (List.mem_cons_of_mem _ member)⟩
          rw [next_congr (same token List.mem_cons_self), linked]

theorem countTokens_chain {m : Mem} : ∀ {tokens : List Word} {texts : List (List Byte)} {fuel : Nat},
    Chain m tokens texts → (∀ token ∈ tokens, token ≠ 0) → tokens.length < fuel →
    countTokens m fuel (tokens.headD 0) = some tokens.length := by
  intro tokens
  induction tokens with
  | nil =>
      intro texts fuel _ _ enough
      obtain ⟨fuel, rfl⟩ := Nat.exists_eq_succ_of_ne_zero (Nat.ne_zero_of_lt enough)
      rfl
  | cons token tokens ih =>
      intro texts fuel chain nonnull enough
      obtain ⟨fuel, rfl⟩ := Nat.exists_eq_succ_of_ne_zero (Nat.ne_zero_of_lt enough)
      cases texts with
      | nil => exact chain.elim
      | cons text texts =>
          obtain ⟨_, linked, rest⟩ := chain
          rw [List.headD_cons, countTokens, if_neg (nonnull token List.mem_cons_self), linked,
            ih rest (fun other member => nonnull other (List.mem_cons_of_mem _ member)) (Nat.lt_of_succ_lt_succ enough)]
          rfl

/-- A store on the page of the array is not on the page of a token. -/
theorem Blocks.kept {t : Trace} {tokens : List Word} (blocks : Blocks (argv :: tokens)) {offset : Nat} {v : Word}
    (inside : offset + 4 ≤ 4096) : ∀ token ∈ tokens, ∀ i < 4096,
    (t.store32 (argv + BitVec.ofNat 32 offset) v).mem (token + BitVec.ofNat 32 i) =
      t.mem (token + BitVec.ofNat 32 i) := by
  intro token member i bound
  refine Mem.store32_apply_of_le ?_
  have far := (blocks.away (i := 0) (by decide)).far member (blocks.aligned token (List.mem_cons_of_mem _ member))
  have aligned := blocks.aligned argv List.mem_cons_self
  have aligned' := blocks.aligned token (List.mem_cons_of_mem _ member)
  bv_omega

/-- Induction on the tokens that are left. -/
theorem fillArgv_spec {tokens : List Word} : ∀ {texts : List (List Byte)} (i : Nat) (t : Trace),
    Chain t.mem tokens texts → Blocks (argv :: tokens) → 4 * (i + tokens.length) ≤ 4096 →
    (∀ k token, tokens[k]? = some token → (fillArgv argv tokens.length i (tokens.headD 0) t).mem.load32
        (argv + BitVec.ofNat 32 (4 * (i + k))) = token) ∧
      ∀ x : Word, ((x - argv).toNat < 4 * i ∨ 4 * (i + tokens.length) ≤ (x - argv).toNat) →
        (fillArgv argv tokens.length i (tokens.headD 0) t).mem x = t.mem x := by
  induction tokens with
  | nil =>
      intro texts i t _ _ _
      exact ⟨fun k token found => by simp at found, fun x _ => rfl⟩
  | cons token tokens ih =>
      intro texts i t chain blocks room
      rw [List.length_cons] at room ⊢
      cases texts with
      | nil => exact chain.elim
      | cons text texts =>
          obtain ⟨_, linked, rest⟩ :=
            chain.congr (blocks.kept (t := t) (v := token) (show 4 * i + 4 ≤ 4096 by omega))
          obtain ⟨stored, frame⟩ :=
            ih (i + 1) _ rest (blocks.sublist ((List.sublist_cons_self _ _).cons_cons _)) (by omega)
          rw [List.headD_cons, fillArgv]
          simp only [linked]
          refine ⟨fun k other found => ?_, fun x outside => ?_⟩
          · cases k with
            | zero =>
                obtain rfl : token = other := by simpa using found
                refine (Mem.load32_congr fun x near => frame x (.inl ?_)).trans (Mem.load32_store32_self _ _ _)
                bv_omega
            | succ k =>
                rw [show i + (k + 1) = i + 1 + k by omega]
                exact stored k other (by simpa using found)
          · rw [frame x (by omega)]
            exact Mem.store32_apply_of_le (by bv_omega)

/-- The array points to the tokens behind `root`, and a null pointer ends it. -/
structure Pointers (m : Mem) (argv : Word) (tokens : List Word) : Prop where
  pointers : ∀ k token, tokens[k]? = some token → m.load32 (argv + BitVec.ofNat 32 (4 * k)) = token
  null : m.load32 (argv + BitVec.ofNat 32 (4 * tokens.length)) = 0

/-- The memory that `create_argv_array` leaves. -/
def withArgv (argv : Word) (tokens : List Word) (t : Trace) : Trace :=
  (fillArgv argv tokens.length 0 (tokens.headD 0) t).store32 (argv + BitVec.ofNat 32 (4 * tokens.length)) 0

theorem withArgv_pointers {t : Trace} {tokens : List Word} {texts : List (List Byte)}
    (chain : Chain t.mem tokens texts) (blocks : Blocks (argv :: tokens)) (room : 4 * (tokens.length + 1) ≤ 4096) :
    Pointers (withArgv argv tokens t).mem argv tokens ∧
      ∀ x, Away [argv] x → (withArgv argv tokens t).mem x = t.mem x := by
  obtain ⟨pointers, frame⟩ := fillArgv_spec 0 t chain blocks (by omega)
  refine ⟨⟨fun k token found => ?_, Mem.load32_store32_self _ _ _⟩, fun x away => ?_⟩
  · have bound : k < tokens.length := (List.getElem?_eq_some_iff.mp found).1
    have value := pointers k token found
    rw [Nat.zero_add] at value
    refine (Mem.load32_congr fun x near => Mem.store32_apply_of_le ?_).trans value
    bv_omega
  · have far := away.far List.mem_cons_self (blocks.aligned argv List.mem_cons_self)
    exact (Mem.store32_apply_of_le (by bv_omega)).trans (frame x (.inr (by omega)))

theorem createArgvArray_eq (fuel : Nat) {root : Word} {tokens more : List Word} {texts : List (List Byte)}
    {s : ShellState} (chain : Chain s.mem (root :: tokens) texts) (blocks : Blocks (argv :: root :: tokens))
    (supply : s.blocks = argv :: more) (enough : tokens.length < fuel) :
    createArgvArray fuel root s = some (argv, (tokens.length : Int),
      ⟨⟨withArgv argv tokens s.strtok.trace, s.strtok.remainder⟩, more, s.asked ++ [(tokens.length + 1) * 4],
        s.freed, s.printed⟩) := by
  obtain ⟨linked, chained⟩ := chain.tail
  have counted := countTokens_chain chained blocks.tail.tail.nonnull enough
  rw [createArgvArray, if_neg (blocks.tail.nonnull root List.mem_cons_self), linked, counted]
  simp only [ShellState.malloc, supply, List.headD_cons, List.tail_cons,
    if_neg (blocks.nonnull argv List.mem_cons_self)]
  rw [ShellState.mem] at linked
  simp only [ShellState.onTrace, ShellState.mem, linked, withArgv]

/-- A block apart from the tokens. -/
theorem Blocks.apart {tokens : List Word} (blocks : Blocks (argv :: tokens)) {token : Word} (member : token ∈ tokens)
    {i : Nat} (inside : i < 4096) : Away [argv] (token + BitVec.ofNat 32 i) := by
  intro other found same
  obtain rfl : other = argv := List.mem_singleton.mp found
  rw [Page.number_add (blocks.tail.aligned token member) inside] at same
  have away := blocks.away (i := 0) (by decide) token member
  rw [BitVec.add_zero] at away
  exact away same.symm

end Argv

end ConiferOS.User.Shell
