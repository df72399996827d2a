import ConiferOS.Process.UserCopy

/-! # The arguments of `execve`

How the system call brings the path and the argument strings of its caller into the
kernel: the path and the pointers onto the kernel stack, the strings into one heap block
each. The places are an argument of the model; the caller's memory is a set of heap
blocks that the call itself has not got.
-/

namespace ConiferOS.Process

open Lib Paging

/-- The places one call works with: two arrays on the kernel stack and the heap blocks it
    gets, `tmp` for the path (0) and for each string. -/
structure ExecveFrame where
  filename : Word
  argvKernelCopy : Word
  tmp : Nat → Word
  argv : Word
  arg : Nat → Word

/-- The loop `argv[i] = kmalloc(MAX_CMMD_ARG_LEN)`. -/
def storeArgv (f : ExecveFrame) : (remaining i : Nat) → Mem → Mem
  | 0, _, m => m
  | remaining + 1, i, m =>
      storeArgv f remaining (i + 1) (m.store32 (f.argv + BitVec.ofNat 32 (4 * i)) (f.arg i))

/-- The loop that copies the strings. -/
def copyArgs (f : ExecveFrame) : (remaining i : Nat) → Mem → PageMap → Mem × PageMap
  | 0, _, m, pages => (m, pages)
  | remaining + 1, i, m, pages =>
      let copy := copyStringFromUserTask m pages (f.tmp (i + 1))
        (m.load32 (f.argvKernelCopy + BitVec.ofNat 32 (4 * i)))
        (m.load32 (f.argv + BitVec.ofNat 32 (4 * i))) maxCmmdArgLen
      copyArgs f remaining (i + 1) copy.2.1 copy.2.2

/-- `isr80h_command_6_execve` up to the load of the process. Return codes are ignored. -/
def execveCopy (f : ExecveFrame) (argc : Int) (argvUsrAddr filenameUsrAddr : Word) (m : Mem)
    (pages : PageMap) : Mem × PageMap :=
  let path := copyStringFromUserTask m pages (f.tmp 0) filenameUsrAddr f.filename maxFilePathChars
  let pointers := copyArgvPointersFromUserTask path.2.1 path.2.2 argvUsrAddr f.argvKernelCopy argc
  copyArgs f argc.toNat 0 (storeArgv f argc.toNat 0 pointers.2.1) pointers.2.2

/-- The calling task keeps its pages. -/
theorem execveCopy_pages (f : ExecveFrame) (argc : Int) (argvUsrAddr filenameUsrAddr : Word) (m : Mem)
    (pages : PageMap) : (execveCopy f argc argvUsrAddr filenameUsrAddr m pages).2 = pages := by
  have args : ∀ (remaining i : Nat) (m : Mem), (copyArgs f remaining i m pages).2 = pages := by
    intro remaining
    induction remaining with
    | zero => exact fun _ _ => rfl
    | succ remaining ih =>
        intro i m
        rw [copyArgs, copyStringFromUserTask_pages]
        exact ih (i + 1) _
  simp only [execveCopy, copyStringFromUserTask_pages, copyArgvPointersFromUserTask_pages]
  exact args _ _ _

/-! ## The frame of a call -/

/-- A block of the kernel heap. -/
structure HeapBlock (p : Word) : Prop where
  aligned : p.toNat % 4096 = 0
  heap : kernelHeapAddress.toNat ≤ p.toNat
  below : p.toNat < kernelHeapAddress.toNat + kernelHeapSize

/-- Memory above the start of the heap that the call does not use. -/
structure ExecveFrame.Spares (f : ExecveFrame) (argc : Nat) (x : Word) : Prop where
  heap : kernelHeapAddress.toNat ≤ x.toNat
  tmp : ∀ k ≤ argc, Page.number x ≠ Page.number (f.tmp k)
  arg : ∀ i < argc, Page.number x ≠ Page.number (f.arg i)
  argv : 0 < argc → Page.number x ≠ Page.number f.argv

/-- The blocks are blocks of their own, and the two arrays lie on the kernel stack. -/
structure ExecveFrame.Ok (f : ExecveFrame) (argc : Nat) : Prop where
  tmp : ∀ k ≤ argc, HeapBlock (f.tmp k)
  arg : ∀ i < argc, HeapBlock (f.arg i)
  argv : 0 < argc → HeapBlock f.argv
  tmp_arg : ∀ k ≤ argc, ∀ i < argc, f.tmp k ≠ f.arg i
  tmp_argv : ∀ k ≤ argc, 0 < argc → f.tmp k ≠ f.argv
  arg_arg : ∀ i < argc, ∀ j < argc, i ≠ j → f.arg i ≠ f.arg j
  arg_argv : ∀ i < argc, f.arg i ≠ f.argv
  filename : f.filename.toNat + maxFilePathChars ≤ kernelStackAddr.toNat
  argvKernelCopy : f.argvKernelCopy.toNat + 4 * argc ≤ kernelStackAddr.toNat
  separate : f.filename.toNat + maxFilePathChars ≤ f.argvKernelCopy.toNat ∨
    f.argvKernelCopy.toNat + 4 * argc ≤ f.filename.toNat

/-- An address of the caller's own memory, seen at a page that no copy uses. -/
structure UserByte (f : ExecveFrame) (argc : Nat) (pages : PageMap) (va : Word) : Prop where
  page : ∀ k ≤ argc, Page.number va ≠ Page.number (f.tmp k)
  memory : f.Spares argc (pages.translate va)

/-- A string in the caller's memory. -/
structure UserString (f : ExecveFrame) (argc : Nat) (pages : PageMap) (m : Mem) (a : Word)
    (text : List Byte) : Prop where
  string : StringAt m pages.translate a text
  user : ∀ k ≤ text.length, UserByte f argc pages (a + BitVec.ofNat 32 k)

/-- What the caller passes. The kernel stack is mapped to itself in its page tables. -/
structure Caller (f : ExecveFrame) (pages : PageMap) (m : Mem) (argvUsrAddr filenameUsrAddr : Word)
    (path : List Byte) (args : List (List Byte)) : Prop where
  kernelStack : ∀ i < 4 * args.length,
    pages.translate (f.argvKernelCopy + BitVec.ofNat 32 i) = f.argvKernelCopy + BitVec.ofNat 32 i
  pathString : UserString f args.length pages m filenameUsrAddr path
  pathShort : path.length < maxFilePathChars
  pointers : ∀ i < 4 * args.length, UserByte f args.length pages (argvUsrAddr + BitVec.ofNat 32 i)
  strings : ∀ i, ∀ inside : i < args.length, UserString f args.length pages m
    (loadVia pages.translate m (argvUsrAddr + BitVec.ofNat 32 (4 * i))) args[i]

/-! ## Bringing the arguments into the kernel -/

section Copy

variable {f : ExecveFrame} {pages : PageMap} {m m' : Mem}

/-- Memory that differs only where the call works still shows the caller's strings. -/
theorem UserString.congr {argc : Nat} {a : Word} {text : List Byte}
    (string : UserString f argc pages m a text)
    (same : ∀ x, f.Spares argc x → m' x = m x) : UserString f argc pages m' a text where
  string := string.string.congr fun k inside => same _ (string.user k inside).memory
  user := string.user

theorem HeapBlock.number_ne {p q : Word} (hp : HeapBlock p) (hq : HeapBlock q) (distinct : p ≠ q) :
    Page.number p ≠ Page.number q := by
  intro same
  rw [← Page.base_number hp.aligned, ← Page.base_number hq.aligned, same] at distinct
  exact distinct rfl

/-- Addresses below the heap are on no block of it. -/
theorem HeapBlock.number_ne_low {p x : Word} (hp : HeapBlock p) (low : x.toNat < kernelHeapAddress.toNat) :
    Page.number x ≠ Page.number p := by
  intro same
  have numbers := congrArg BitVec.toNat same
  rw [Page.toNat_number, Page.toNat_number] at numbers
  have aligned := hp.aligned
  have heap := hp.heap
  have start : kernelHeapAddress.toNat = 0x1000000 := rfl
  omega

/-- The path ends up on the kernel stack. -/
theorem copy_path {argc : Nat} (ok : f.Ok argc) {u : Word} {path : List Byte}
    (string : UserString f argc pages m u path) (short : path.length < maxFilePathChars) :
    ∃ m', copyStringFromUserTask m pages (f.tmp 0) u f.filename maxFilePathChars = (0, m', pages) ∧
      ∀ x, f.Spares argc x → m' x = m x := by
  have block := ok.tmp 0 (Nat.zero_le _)
  have stack := ok.filename
  have top : kernelStackAddr.toNat = 0x600000 := rfl
  have start : kernelHeapAddress.toNat = 0x1000000 := rfl
  have max : maxFilePathChars = 128 := rfl
  have nonnull : f.tmp 0 ≠ 0 := by
    have heap := block.heap
    bv_omega
  have apart : ∀ j ≤ maxFilePathChars,
      Page.number (f.filename + BitVec.ofNat 32 j) ≠ Page.number (f.tmp 0) :=
    fun j bound => block.number_ne_low (by bv_omega)
  obtain ⟨m', copied, -, frame⟩ := copyStringFromUserTask_text block.aligned nonnull
    (by decide : maxFilePathChars < 4096) string.string
    (fun k inside => ⟨(string.user k inside).page 0 (Nat.zero_le _),
      (string.user k inside).memory.tmp 0 (Nat.zero_le _)⟩) apart
  refine ⟨m', copied, fun x spared => frame x (spared.tmp 0 (Nat.zero_le _)) fun j bound same => ?_⟩
  have heap := spared.heap
  rw [List.length_take] at bound
  bv_omega

/-- Through the page tables the kernel uses to copy the pointers, the kernel stack is where
    it is and the caller's memory where it was. -/
theorem sharePage_argvKernelCopy {argc : Nat} (ok : f.Ok argc) (few : argc ≤ 127) (pos : 0 < argc)
    (kernelStack : ∀ i < 4 * argc, pages.translate (f.argvKernelCopy + BitVec.ofNat 32 i) =
      f.argvKernelCopy + BitVec.ofNat 32 i) :
    (∀ i < 4 * argc, (sharePage pages f.argvKernelCopy).translate
        (f.argvKernelCopy + BitVec.ofNat 32 i) = f.argvKernelCopy + BitVec.ofNat 32 i) ∧
      ∀ va, UserByte f argc pages va →
        (sharePage pages f.argvKernelCopy).translate va = pages.translate va := by
  by_cases aligned : f.argvKernelCopy.toNat % 4096 = 0
  · constructor
    · intro i bound
      rw [sharePage_translate aligned, if_pos (Page.number_add aligned (by omega))]
      bv_omega
    · intro va user
      rw [sharePage_translate aligned, if_neg]
      intro same
      -- The caller's page would be the kernel stack, which is below the heap.
      have stack := kernelStack 0 (by omega)
      rw [BitVec.add_zero, PageMap.translate, aligned, BitVec.add_zero] at stack
      have heap := user.memory.heap
      rw [PageMap.translate, same, stack] at heap
      have top := ok.argvKernelCopy
      have stackTop : kernelStackAddr.toNat = 0x600000 := rfl
      have start : kernelHeapAddress.toNat = 0x1000000 := rfl
      bv_omega
  · have unchanged : sharePage pages f.argvKernelCopy = pages := if_neg fun accepted => aligned accepted.1
    rw [unchanged]
    exact ⟨kernelStack, fun _ _ => rfl⟩

/-- The pointers end up on the kernel stack. -/
theorem copy_pointers {argc : Nat} (ok : f.Ok argc) (few : argc ≤ 127) {usr : Word}
    (kernelStack : ∀ i < 4 * argc, pages.translate (f.argvKernelCopy + BitVec.ofNat 32 i) =
      f.argvKernelCopy + BitVec.ofNat 32 i)
    (pointers : ∀ i < 4 * argc, UserByte f argc pages (usr + BitVec.ofNat 32 i)) :
    ∃ rc m', copyArgvPointersFromUserTask m pages usr f.argvKernelCopy argc = (rc, m', pages) ∧
      (∀ j < argc, m'.load32 (f.argvKernelCopy + BitVec.ofNat 32 (4 * j)) =
        loadVia pages.translate m (usr + BitVec.ofNat 32 (4 * j))) ∧
      ∀ x, f.Spares argc x → m' x = m x := by
  have fits : ¬ (pagingPageSize : Int) ≤ int32 (argc * maxCmmdArgLen) := by
    rw [maxCmmdArgLen, int32_of_mem (by omega) (by omega), pagingPageSize]
    omega
  simp only [copyArgvPointersFromUserTask, if_neg fits, unsharePage_sharePage, Int.toNat_natCast]
  refine ⟨_, _, rfl, ?_⟩
  rcases Nat.eq_zero_or_pos argc with rfl | pos
  · exact ⟨fun j none => absurd none (Nat.not_lt_zero j), fun _ _ => rfl⟩
  · obtain ⟨direct, view⟩ := sharePage_argvKernelCopy ok few pos kernelStack
    have stack := ok.argvKernelCopy
    have top : kernelStackAddr.toNat = 0x600000 := rfl
    have start : kernelHeapAddress.toNat = 0x1000000 := rfl
    have apart : ∀ i < 4 * argc, ∀ j < 4 * argc,
        (sharePage pages f.argvKernelCopy).translate (usr + BitVec.ofNat 32 i) ≠
          f.argvKernelCopy + BitVec.ofNat 32 j := by
      intro i hi j hj
      rw [view _ (pointers i hi)]
      have heap := (pointers i hi).memory.heap
      bv_omega
    obtain ⟨copied, frame⟩ := copyPointers_spec (by omega) direct apart argc 0 m (by omega)
    constructor
    · intro j bound
      rw [copied j (Nat.zero_le _) bound]
      refine loadVia_congr fun k byte => ?_
      have address : usr + BitVec.ofNat 32 (4 * j) + BitVec.ofNat 32 k =
          usr + BitVec.ofNat 32 (4 * j + k) := by bv_omega
      rw [address, view _ (pointers (4 * j + k) (by omega))]
    · intro x spared
      have heap := spared.heap
      exact frame x (.inr (by bv_omega))

theorem storeArgv_spec {argc : Nat} (small : 4 * argc ≤ 4096) :
    ∀ (remaining i : Nat) (m : Mem), i + remaining = argc →
      (∀ j, i ≤ j → j < argc →
        (storeArgv f remaining i m).load32 (f.argv + BitVec.ofNat 32 (4 * j)) = f.arg j) ∧
      ∀ x : Word, ((x - f.argv).toNat < 4 * i ∨ 4 * argc ≤ (x - f.argv).toNat) →
        storeArgv f remaining i m x = m x := by
  intro remaining
  induction remaining with
  | zero =>
      intro i m count
      exact ⟨fun j lower upper => by omega, fun x _ => rfl⟩
  | succ remaining ih =>
      intro i m count
      obtain ⟨stored, frame⟩ := ih (i + 1)
        (m.store32 (f.argv + BitVec.ofNat 32 (4 * i)) (f.arg i)) (by omega)
      rw [storeArgv]
      constructor
      · intro j lower upper
        rcases Nat.lt_or_eq_of_le lower with later | rfl
        · exact stored j later upper
        · rw [← Mem.load32_store32_self m (f.argv + BitVec.ofNat 32 (4 * i)) (f.arg i)]
          refine Mem.load32_congr fun x near => ?_
          rw [Mem.load32_store32_self]
          exact frame x (.inl (by bv_omega))
      · intro x outside
        rw [frame x (by omega)]
        exact Mem.store32_apply_of_le (by bv_omega)

/-- The state of the last loop after `i` strings; `p` are the caller's pointers. -/
structure Gathered (f : ExecveFrame) (pages : PageMap) (p : Nat → Word) (args : List (List Byte))
    (i : Nat) (m : Mem) : Prop where
  pointers : ∀ j < args.length,
    m.load32 (f.argvKernelCopy + BitVec.ofNat 32 (4 * j)) = p j
  argv : ∀ j < args.length, m.load32 (f.argv + BitVec.ofNat 32 (4 * j)) = f.arg j
  strings : ∀ j, ∀ inside : j < args.length, UserString f args.length pages m (p j) args[j]
  copied : ∀ j < i, ∀ inside : j < args.length,
    StringAt m id (f.arg j) (args[j].take maxCmmdArgLen)

theorem Gathered.step {p : Nat → Word} {args : List (List Byte)} {i : Nat}
    (state : Gathered f pages p args i m) (ok : f.Ok args.length) (few : args.length ≤ 127)
    (inside : i < args.length) :
    ∃ m', copyStringFromUserTask m pages (f.tmp (i + 1)) (p i) (f.arg i) maxCmmdArgLen =
        (0, m', pages) ∧ Gathered f pages p args (i + 1) m' := by
  have block := ok.tmp (i + 1) inside
  have target := ok.arg i inside
  have start : kernelHeapAddress.toNat = 0x1000000 := rfl
  have max : maxCmmdArgLen = 32 := rfl
  have nonnull : f.tmp (i + 1) ≠ 0 := by
    have heap := block.heap
    bv_omega
  have onArg : ∀ j < args.length, ∀ k < 4096,
      Page.number (f.arg j + BitVec.ofNat 32 k) = Page.number (f.arg j) :=
    fun j bound k small => Page.number_add (ok.arg j bound).aligned small
  have other := target.number_ne block (Ne.symm (ok.tmp_arg (i + 1) inside i inside))
  obtain ⟨m', copied, text, frame⟩ := copyStringFromUserTask_text block.aligned nonnull
    (by decide : maxCmmdArgLen < 4096) (state.strings i inside).string
    (fun k within => ⟨((state.strings i inside).user k within).page (i + 1) inside,
      ((state.strings i inside).user k within).memory.tmp (i + 1) inside⟩)
    (fun j bound => by rw [onArg i inside j (by omega)]; exact other)
  -- Pages other than the two blocks keep their bytes.
  have kept : ∀ x, Page.number x ≠ Page.number (f.tmp (i + 1)) →
      Page.number x ≠ Page.number (f.arg i) → m' x = m x := by
    intro x notTmp notArg
    refine frame x notTmp fun j bound same => notArg ?_
    rw [List.length_take] at bound
    rw [same, onArg i inside j (by omega)]
  refine ⟨m', copied, ?_, ?_, ?_, ?_⟩
  · intro j bound
    rw [← state.pointers j bound]
    refine Mem.load32_congr fun x near => ?_
    have stack := ok.argvKernelCopy
    have top : kernelStackAddr.toNat = 0x600000 := rfl
    have low : x.toNat < kernelHeapAddress.toNat := by bv_omega
    exact kept x (block.number_ne_low low) (target.number_ne_low low)
  · intro j bound
    rw [← state.argv j bound]
    refine Mem.load32_congr fun x near => ?_
    have array := ok.argv (by omega)
    have page : Page.number x = Page.number f.argv :=
      Page.number_eq_of_sub_lt array.aligned (by bv_omega)
    refine kept x ?_ ?_
    · rw [page]
      exact array.number_ne block (Ne.symm (ok.tmp_argv (i + 1) inside (by omega)))
    · rw [page]
      exact array.number_ne target (Ne.symm (ok.arg_argv i inside))
  · intro j bound
    exact (state.strings j bound).congr fun x spared =>
      kept x (spared.tmp (i + 1) inside) (spared.arg i inside)
  · intro j earlier bound
    rcases Nat.lt_or_eq_of_le (Nat.le_of_lt_succ earlier) with before | rfl
    · refine (state.copied j before bound).congr fun k within => ?_
      rw [List.length_take] at within
      have page := onArg j bound k (by omega)
      refine kept _ ?_ ?_
      · rw [id, page]
        exact (ok.arg j bound).number_ne block (Ne.symm (ok.tmp_arg (i + 1) inside j bound))
      · rw [id, page]
        exact (ok.arg j bound).number_ne target (ok.arg_arg j bound i inside (by omega))
    · exact text

theorem copyArgs_spec {p : Nat → Word} {args : List (List Byte)} (ok : f.Ok args.length)
    (few : args.length ≤ 127) :
    ∀ (remaining i : Nat) (m : Mem), i + remaining = args.length →
      Gathered f pages p args i m →
      ∃ m', copyArgs f remaining i m pages = (m', pages) ∧ Gathered f pages p args args.length m' := by
  intro remaining
  induction remaining with
  | zero =>
      intro i m count state
      obtain rfl : i = args.length := by omega
      exact ⟨m, rfl, state⟩
  | succ remaining ih =>
      intro i m count state
      obtain ⟨m', copied, next⟩ := state.step ok few (by omega)
      rw [copyArgs, state.pointers i (by omega), state.argv i (by omega), copied]
      exact ih (i + 1) m' (by omega) next

/-- After the copies, `argv` is an array of the caller's arguments, cut after
    `MAX_CMMD_ARG_LEN` bytes, and the caller's page tables are as they were. -/
theorem execveCopy_spec {argvUsrAddr filenameUsrAddr : Word} {path : List Byte}
    {args : List (List Byte)} (ok : f.Ok args.length) (few : args.length ≤ 127)
    (caller : Caller f pages m argvUsrAddr filenameUsrAddr path args) :
    ∃ m', execveCopy f args.length argvUsrAddr filenameUsrAddr m pages = (m', pages) ∧
      (∀ j < args.length, m'.load32 (f.argv + BitVec.ofNat 32 (4 * j)) = f.arg j) ∧
      ∀ j, ∀ inside : j < args.length, StringAt m' id (f.arg j) (args[j].take maxCmmdArgLen) := by
  obtain ⟨m₁, path, kept₁⟩ := copy_path ok caller.pathString caller.pathShort
  obtain ⟨rc, m₂, pointers, stacked, kept₂⟩ :=
    copy_pointers (m := m₁) ok few caller.kernelStack caller.pointers
  obtain ⟨stored, kept₃⟩ := storeArgv_spec (f := f)
    (by omega : 4 * args.length ≤ 4096) args.length 0 m₂ (by omega)
  have unmoved : ∀ j < args.length,
      loadVia pages.translate m₁ (argvUsrAddr + BitVec.ofNat 32 (4 * j)) =
        loadVia pages.translate m (argvUsrAddr + BitVec.ofNat 32 (4 * j)) := by
    intro j bound
    refine loadVia_congr fun k byte => kept₁ _ ?_
    have address : argvUsrAddr + BitVec.ofNat 32 (4 * j) + BitVec.ofNat 32 k =
        argvUsrAddr + BitVec.ofNat 32 (4 * j + k) := by bv_omega
    rw [address]
    exact (caller.pointers (4 * j + k) (by omega)).memory
  have gathered : Gathered f pages
      (fun j => loadVia pages.translate m (argvUsrAddr + BitVec.ofNat 32 (4 * j))) args 0
      (storeArgv f args.length 0 m₂) := by
    have array : ∀ x, 0 < args.length → Page.number x ≠ Page.number f.argv →
        storeArgv f args.length 0 m₂ x = m₂ x := by
      intro x pos other
      refine kept₃ x (.inr (not_lt.mp fun near => other ?_))
      exact Page.number_eq_of_sub_lt (ok.argv pos).aligned (by omega)
    refine ⟨?_, fun j bound => stored j (Nat.zero_le _) bound, ?_, fun j none => absurd none (Nat.not_lt_zero j)⟩
    · intro j bound
      rw [← unmoved j bound, ← stacked j bound]
      refine Mem.load32_congr fun x near => array x (by omega) ?_
      have stack := ok.argvKernelCopy
      have top : kernelStackAddr.toNat = 0x600000 := rfl
      have start : kernelHeapAddress.toNat = 0x1000000 := rfl
      exact (ok.argv (by omega)).number_ne_low (by bv_omega)
    · intro j bound
      refine (caller.strings j bound).congr fun x spared => ?_
      rw [array x (by omega) (spared.argv (by omega)), kept₂ x spared, kept₁ x spared]
  obtain ⟨m', copied, done⟩ := copyArgs_spec ok few args.length 0 _ (by omega) gathered
  refine ⟨m', ?_, done.argv, fun j inside => done.copied j inside inside⟩
  simp only [execveCopy, path, pointers, Int.toNat_natCast]
  exact copied

end Copy

end ConiferOS.Process
