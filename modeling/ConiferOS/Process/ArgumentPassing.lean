import ConiferOS.Process.Arguments

/-! # The argument round trip

The loop of `load_arg_block` fills slot after slot. A slot of `MAX_CMMD_ARG_LEN` bytes is
terminated by the first byte of the next one, which the next argument overwrites; so the
strings are right exactly when the arguments fit.
-/

namespace ConiferOS.Process

open Lib Paging

/-! ## More fuel -/

theorem strcpy_mono {fuel more : Nat} {t t' : Trace} {dest src : Word} (enough : fuel ≤ more)
    (copied : strcpy fuel t dest src = some t') : strcpy more t dest src = some t' := by
  induction fuel generalizing more t dest src with
  | zero => cases copied
  | succ fuel ih =>
      obtain ⟨more, rfl⟩ := Nat.exists_eq_add_of_le' (Nat.le_of_add_left_le enough)
      rw [strcpy] at copied ⊢
      split at copied
      case isTrue zero => rwa [if_pos zero]
      case isFalse nonzero =>
        rw [if_neg nonzero]
        exact ih (by omega) copied

theorem loadArgBlockLoop_succ_eq_some {fuel remaining i : Nat} {argBlock argv : Word} {t t' : Trace}
    (filled : loadArgBlockLoop fuel argBlock argv (remaining + 1) i t = some t') :
    ∃ t₁, strcpy fuel t (argSlot argBlock i) (t.mem.load32 (argv + BitVec.ofNat 32 (4 * i))) = some t₁ ∧
      loadArgBlockLoop fuel argBlock argv remaining (i + 1)
        (t₁.store32 (argBlock + BitVec.ofNat 32 (4 * i))
          (translateArgBlockAddrToUserspaceAddr (argSlot argBlock i) argBlock)) = some t' := by
  rw [loadArgBlockLoop] at filled
  split at filled
  case h_1 => cases filled
  case h_2 t₁ copied => exact ⟨t₁, copied, filled⟩

theorem loadArgBlockLoop_mono {fuel more : Nat} (enough : fuel ≤ more) {argBlock argv : Word} :
    ∀ {remaining i : Nat} {t t' : Trace},
      loadArgBlockLoop fuel argBlock argv remaining i t = some t' →
        loadArgBlockLoop more argBlock argv remaining i t = some t' := by
  intro remaining
  induction remaining with
  | zero => exact fun filled => filled
  | succ remaining ih =>
      intro i t t' filled
      obtain ⟨t₁, copied, rest⟩ := loadArgBlockLoop_succ_eq_some filled
      rw [loadArgBlockLoop, strcpy_mono enough copied]
      exact ih rest

/-- Every argument writes the first byte of its slot. -/
theorem loadArgBlockLoop_written {fuel : Nat} {argBlock argv : Word} :
    ∀ {remaining i : Nat} {t t' : Trace},
      loadArgBlockLoop fuel argBlock argv remaining i t = some t' →
        t.written ⊆ t'.written ∧ ∀ j, i ≤ j → j < i + remaining → argSlot argBlock j ∈ t'.written := by
  intro remaining
  induction remaining with
  | zero =>
      intro i t t' filled
      cases filled
      exact ⟨List.Subset.refl _, fun j lower upper => by omega⟩
  | succ remaining ih =>
      intro i t t' filled
      obtain ⟨t₁, copied, rest⟩ := loadArgBlockLoop_succ_eq_some filled
      obtain ⟨first, kept⟩ := strcpy_written copied
      obtain ⟨later, slots⟩ := ih rest
      have stays : t₁.written ⊆ t'.written :=
        fun x member => later (List.mem_append_right _ member)
      refine ⟨fun x member => stays (kept member), fun j lower upper => ?_⟩
      rcases Nat.lt_or_eq_of_le lower with after | rfl
      · exact slots j after (by omega)
      · exact stays first

/-! ## Filling the block -/

/-- The strings in the kernel that `argv` points to, on other pages than the block. -/
structure Sources (argBlock argv : Word) (arg : Nat → Word) (args : List (List Byte)) : Prop where
  aligned : argBlock.toNat % 4096 = 0
  argv_aligned : argv.toNat % 4096 = 0
  argv_page : Page.number argv ≠ Page.number argBlock
  arg_aligned : ∀ i < args.length, (arg i).toNat % 4096 = 0
  arg_page : ∀ i < args.length, Page.number (arg i) ≠ Page.number argBlock

/-- The block after `i` arguments, in memory that was `m` before. -/
structure Filled (m : Mem) (argBlock argv : Word) (arg : Nat → Word) (args : List (List Byte))
    (i : Nat) (t : Trace) : Prop where
  others : ∀ x, Page.number x ≠ Page.number argBlock → t.mem x = m x
  argv : ∀ j < args.length, t.mem.load32 (argv + BitVec.ofNat 32 (4 * j)) = arg j
  source : ∀ j, ∀ bound : j < args.length, StringAt t.mem id (arg j) (args[j].take maxCmmdArgLen)
  pointers : ∀ j < i, t.mem.load32 (argBlock + BitVec.ofNat 32 (4 * j)) =
    commandLineArgVirtualAddr + BitVec.ofNat 32 (4 * maxNumArgs + maxCmmdArgLen * j)
  chars : ∀ j < i, ∀ bound : j < args.length, ∀ k, ∀ inside : k < (args[j].take maxCmmdArgLen).length,
    t.mem (argSlot argBlock j + BitVec.ofNat 32 k) = (args[j].take maxCmmdArgLen)[k]
  -- The zero behind a full slot lasts until the next argument.
  nul : ∀ j < i, ∀ bound : j < args.length, args[j].length < maxCmmdArgLen ∨ j + 1 = i →
    t.mem (argSlot argBlock j + BitVec.ofNat 32 (args[j].take maxCmmdArgLen).length) = 0
  written : ∀ x, x ∈ t.written ↔ ∃ j, ∃ bound : j < args.length, j < i ∧
    ((∃ k ≤ (args[j].take maxCmmdArgLen).length, x = argSlot argBlock j + BitVec.ofNat 32 k) ∨
      ∃ b < 4, x = argBlock + BitVec.ofNat 32 (4 * j + b))

theorem argSlot_add (argBlock : Word) (j k : Nat) :
    argSlot argBlock j + BitVec.ofNat 32 k = argBlock + BitVec.ofNat 32 (20 + 32 * j + k) := by
  simp only [argSlot, maxNumArgs, maxCmmdArgLen]
  bv_omega

theorem translateArgBlockAddr_argSlot {argBlock : Word} (aligned : argBlock.toNat % 4096 = 0) {i : Nat}
    (few : i < maxNumArgs) :
    translateArgBlockAddrToUserspaceAddr (argSlot argBlock i) argBlock =
      commandLineArgVirtualAddr + BitVec.ofNat 32 (4 * maxNumArgs + maxCmmdArgLen * i) := by
  simp only [maxNumArgs] at few
  have slot : (argSlot argBlock i).toNat = argBlock.toNat + (20 + 32 * i) := by
    simp only [argSlot, maxNumArgs, maxCmmdArgLen, BitVec.toNat_add, BitVec.toNat_ofNat]
    omega
  rw [translateArgBlockAddrToUserspaceAddr, if_neg (by omega), argSlot]
  bv_omega

/-- Argument `i` with its pointer `v` in the block, in memory that was `t` before. -/
structure Stored (argBlock : Word) (i : Nat) (text : List Byte) (v : Word) (t t' : Trace) : Prop where
  far : ∀ x, Page.number x ≠ Page.number argBlock → t'.mem x = t.mem x
  near : ∀ o < 4096, (o < 20 + 32 * i ∨ 20 + 32 * i + text.length < o) → (o < 4 * i ∨ 4 * i + 4 ≤ o) →
    t'.mem (argBlock + BitVec.ofNat 32 o) = t.mem (argBlock + BitVec.ofNat 32 o)
  byte : ∀ k, ∀ inside : k < text.length, t'.mem (argSlot argBlock i + BitVec.ofNat 32 k) = text[k]
  nul : t'.mem (argSlot argBlock i + BitVec.ofNat 32 text.length) = 0
  pointer : t'.mem.load32 (argBlock + BitVec.ofNat 32 (4 * i)) = v
  written : ∀ x, x ∈ t'.written ↔ x ∈ t.written ∨
    (∃ k ≤ text.length, x = argSlot argBlock i + BitVec.ofNat 32 k) ∨
      ∃ b < 4, x = argBlock + BitVec.ofNat 32 (4 * i + b)

/-- One round of the loop. -/
theorem strcpy_stored {argBlock src : Word} {i : Nat} {text : List Byte} {t : Trace}
    (aligned : argBlock.toNat % 4096 = 0) (few : i < 5) (short : text.length ≤ 32)
    (source : StringAt t.mem id src text) (srcAligned : src.toNat % 4096 = 0)
    (page : Page.number src ≠ Page.number argBlock) {fuel : Nat} (enough : maxCmmdArgLen < fuel) :
    ∃ t', strcpy fuel t (argSlot argBlock i) src = some t' ∧
      ∀ v, Stored argBlock i text v t (t'.store32 (argBlock + BitVec.ofNat 32 (4 * i)) v) := by
  have onBlock : ∀ o < 4096, Page.number (argBlock + BitVec.ofNat 32 o) = Page.number argBlock :=
    fun o small => Page.number_add aligned small
  have apart : ∀ k ≤ text.length, ∀ j ≤ text.length,
      src + BitVec.ofNat 32 k ≠ argSlot argBlock i + BitVec.ofNat 32 j := by
    intro k inside j within same
    refine page ?_
    rw [← Page.number_add srcAligned (by omega : k < 4096), same, argSlot_add, onBlock _ (by omega)]
  obtain ⟨t', copied, spec⟩ := strcpy_text (by omega) (Nat.lt_of_le_of_lt short enough) source apart
  refine ⟨t', copied, fun v => ?_⟩
  have slot : ∀ k ≤ text.length, (t'.store32 (argBlock + BitVec.ofNat 32 (4 * i)) v).mem
      (argSlot argBlock i + BitVec.ofNat 32 k) = t'.mem (argSlot argBlock i + BitVec.ofNat 32 k) := by
    intro k within
    have gap : argBlock + BitVec.ofNat 32 (20 + 32 * i + k) - (argBlock + BitVec.ofNat 32 (4 * i)) =
        BitVec.ofNat 32 (20 + 28 * i + k) := by bv_omega
    rw [argSlot_add, Trace.store32_mem, Mem.store32_apply_of_le]
    rw [gap, BitVec.toNat_ofNat, Nat.mod_eq_of_lt (by omega)]
    omega
  exact
    { far := by
        intro x other
        rw [Trace.store32_mem, Mem.store32_apply_of_le, spec.frame x]
        · intro j within same
          refine other ?_
          rw [same, argSlot_add, onBlock _ (by omega)]
        · by_contra close
          refine other ?_
          exact Page.number_eq_of_sub_lt aligned (by bv_omega)
      near := by
        intro o small outside word
        rw [Trace.store32_mem, Mem.store32_apply_of_le (by bv_omega), spec.frame]
        intro j within
        rw [argSlot_add]
        bv_omega
      byte := fun k inside => (slot k (Nat.le_of_lt inside)).trans (spec.copy.byte k inside)
      nul := (slot _ le_rfl).trans spec.copy.terminator
      pointer := by rw [Trace.store32_mem, Mem.load32_store32_self]
      written := by
        intro x
        have word : ∀ b, argBlock + BitVec.ofNat 32 (4 * i) + BitVec.ofNat 32 b =
            argBlock + BitVec.ofNat 32 (4 * i + b) := fun b => by bv_omega
        rw [Trace.mem_written_store32, spec.written, or_comm, or_assoc]
        simp only [word] }

theorem Filled.step {m : Mem} {argBlock argv : Word} {arg : Nat → Word} {args : List (List Byte)} {i : Nat}
    {t : Trace} (state : Filled m argBlock argv arg args i t)
    (sources : Sources argBlock argv arg args) (few : args.length ≤ maxNumArgs)
    (bound : i < args.length) {fuel : Nat} (enough : maxCmmdArgLen < fuel) :
    ∃ t', strcpy fuel t (argSlot argBlock i) (arg i) = some t' ∧
      Filled m argBlock argv arg args (i + 1) (t'.store32 (argBlock + BitVec.ofNat 32 (4 * i))
        (translateArgBlockAddrToUserspaceAddr (argSlot argBlock i) argBlock)) := by
  have short : ∀ j, ∀ inside : j < args.length, (args[j].take maxCmmdArgLen).length ≤ 32 :=
    fun _ _ => List.length_take_le _ _
  simp only [maxNumArgs] at few
  obtain ⟨t', copied, all⟩ := strcpy_stored sources.aligned (by omega : i < 5) (short i bound)
    (state.source i bound) (sources.arg_aligned i bound) (sources.arg_page i bound) enough
  refine ⟨t', copied, ?_⟩
  rw [translateArgBlockAddr_argSlot sources.aligned (by simp only [maxNumArgs]; omega)]
  have stored := all (commandLineArgVirtualAddr +
    BitVec.ofNat 32 (4 * maxNumArgs + maxCmmdArgLen * i))
  have length := short i bound
  refine ⟨fun x other => (stored.far x other).trans (state.others x other), ?_, ?_, ?_, ?_, ?_, ?_⟩
  · intro j inside
    rw [← state.argv j inside]
    refine Mem.load32_congr fun x close => stored.far x ?_
    rw [Page.number_eq_of_sub_lt sources.argv_aligned (by bv_omega)]
    exact sources.argv_page
  · intro j inside
    refine (state.source j inside).congr fun k within => stored.far _ ?_
    have length := short j inside
    rw [id, Page.number_add (sources.arg_aligned j inside) (by omega)]
    exact sources.arg_page j inside
  · intro j earlier
    rcases Nat.lt_or_eq_of_le (Nat.le_of_lt_succ earlier) with before | rfl
    · rw [← state.pointers j before]
      refine Mem.load32_congr fun x close => ?_
      have offset : argBlock + BitVec.ofNat 32 (x - argBlock).toNat = x := by bv_omega
      rw [← offset]
      exact stored.near _ (by bv_omega) (by bv_omega) (by bv_omega)
    · exact stored.pointer
  · intro j earlier inside k within
    have length := short j inside
    rcases Nat.lt_or_eq_of_le (Nat.le_of_lt_succ earlier) with before | rfl
    · rw [argSlot_add, stored.near _ (by omega) (by omega) (by omega), ← argSlot_add]
      exact state.chars j before inside k within
    · exact stored.byte k within
  · intro j earlier inside ends
    have cut : (args[j].take maxCmmdArgLen).length = min 32 args[j].length := List.length_take
    rcases Nat.lt_or_eq_of_le (Nat.le_of_lt_succ earlier) with before | rfl
    · have notFull : args[j].length < 32 := ends.resolve_right (by omega)
      rw [argSlot_add, stored.near _ (by omega) (by omega) (by omega), ← argSlot_add]
      exact state.nul j before inside (.inl notFull)
    · exact stored.nul
  · intro x
    rw [stored.written, state.written]
    constructor
    · rintro (⟨j, inside, earlier, old⟩ | place)
      · exact ⟨j, inside, Nat.lt_succ_of_lt earlier, old⟩
      · exact ⟨i, bound, Nat.lt_succ_self i, place⟩
    · rintro ⟨j, inside, earlier, place⟩
      rcases Nat.lt_or_eq_of_le (Nat.le_of_lt_succ earlier) with before | rfl
      · exact .inl ⟨j, inside, before, place⟩
      · exact .inr place

theorem loadArgBlockLoop_filled {m : Mem} {argBlock argv : Word} {arg : Nat → Word} {args : List (List Byte)}
    (sources : Sources argBlock argv arg args) (few : args.length ≤ maxNumArgs) {fuel : Nat}
    (enough : maxCmmdArgLen < fuel) :
    ∀ (remaining i : Nat) (t : Trace), i + remaining = args.length →
      Filled m argBlock argv arg args i t →
      ∃ t', loadArgBlockLoop fuel argBlock argv remaining i t = some t' ∧
        Filled m argBlock argv arg args args.length t' := by
  intro remaining
  induction remaining with
  | zero =>
      intro i t count state
      obtain rfl : i = args.length := by omega
      exact ⟨t, rfl, state⟩
  | succ remaining ih =>
      intro i t count state
      obtain ⟨t', copied, next⟩ := state.step sources few (by omega) enough
      rw [loadArgBlockLoop, state.argv i (by omega), copied]
      exact ih (i + 1) _ (by omega) next

/-- Slot by slot from the last argument back, a full slot takes the next one along. -/
theorem Filled.string {m : Mem} {argBlock argv : Word} {arg : Nat → Word} {args : List (List Byte)} {t : Trace}
    (state : Filled m argBlock argv arg args args.length t) :
    ∀ (rest j : Nat), j + (rest + 1) = args.length →
      StringAt t.mem id (argSlot argBlock j) (runOn (args.drop j)) := by
  intro rest
  induction rest with
  | zero =>
      intro j count
      have bound : j < args.length := by omega
      have none : args.drop (j + 1) = [] := List.drop_eq_nil_of_le (by omega)
      rw [List.drop_eq_getElem_cons bound, none, runOn, runOn, ite_self]
      exact .append (state.chars j bound bound) (state.source j bound).nonzero
        (.nil (state.nul j bound bound (.inr (by omega))))
  | succ rest ih =>
      intro j count
      have bound : j < args.length := by omega
      rw [List.drop_eq_getElem_cons bound, runOn]
      refine .append (state.chars j bound bound) (state.source j bound).nonzero ?_
      split
      case isTrue full =>
        have next : argSlot argBlock j +
            BitVec.ofNat 32 (args[j].take maxCmmdArgLen).length = argSlot argBlock (j + 1) := by
          rw [List.length_take, min_eq_left full]
          simp only [argSlot, maxCmmdArgLen]
          bv_omega
        rw [next]
        exact ih (j + 1) (by omega)
      case isFalse short => exact .nil (state.nul j bound bound (.inl (not_le.mp short)))

/-! ## The child's view -/

/-- A block that is none of the blocks of a stack. -/
def BesideStack (p stackAddr : Word) : Prop :=
  p.toNat + 4096 ≤ stackAddr.toNat ∨ stackAddr.toNat + taskStackSize ≤ p.toNat

/-- The blocks of the new process are blocks of their own, the rest of the load leaves the
    kernel's strings and then the child's blocks alone, and the executable is mapped and
    leaves the pages of the arguments and of the top of the stack alone. -/
structure LoadFrame.Ok (l : LoadFrame) (f : ExecveFrame) (argc : Nat) : Prop where
  stack : HeapBlock l.stackAddr
  block : HeapBlock l.argBlock
  block_stack : BesideStack l.argBlock l.stackAddr
  arg_stack : ∀ i < argc, BesideStack (f.arg i) l.stackAddr
  arg_block : ∀ i < argc, f.arg i ≠ l.argBlock
  argv_stack : 0 < argc → BesideStack f.argv l.stackAddr
  argv_block : 0 < argc → f.argv ≠ l.argBlock
  loadData : ∀ m x, ((∃ i < argc, Page.number x = Page.number (f.arg i)) ∨
    0 < argc ∧ Page.number x = Page.number f.argv) → l.loadData m x = m x
  taskNew : ∀ m x, (Page.number x = Page.number l.argBlock ∨
    (x - l.stackAddr).toNat < taskStackSize) → l.taskNew m x = m x
  mapped : (processMapTaskMemory l.stackAddr l.argBlock l.executable
    (PageMap.linear ((pagingUserSupervisor ||| pagingPresent).setWidth 8))).1 = 0
  argsPage : ¬ l.executable.Maps (Page.number commandLineArgVirtualAddr)
  stackPage : ¬ l.executable.Maps (Page.number (taskStackVirtAddr - 8))

/-- The page tables the child starts with. -/
def LoadFrame.pages (l : LoadFrame) : PageMap :=
  (processMapTaskMemory l.stackAddr l.argBlock l.executable
    (PageMap.linear ((pagingUserSupervisor ||| pagingPresent).setWidth 8))).2

section View

variable {l : LoadFrame} {f : ExecveFrame} {argc : Nat}

/-- The argument block is one page. -/
theorem LoadFrame.Ok.block_pages (ok : l.Ok f argc) :
    ((pagingAlignAddress (l.argBlock + BitVec.ofNat 32 lenArgBlock)).toNat -
      l.argBlock.toNat) / 4096 = 1 := by
  have aligned := ok.block.aligned
  have below := ok.block.below
  have heapEnd : kernelHeapAddress.toNat + kernelHeapSize = 0x7400000 := rfl
  have length : lenArgBlock = 180 := rfl
  have size : (l.argBlock + BitVec.ofNat 32 lenArgBlock).toNat = l.argBlock.toNat + 180 := by
    rw [length]
    bv_omega
  rw [pagingAlignAddress_eq _ (by omega), size]
  omega

/-- The stack is four pages. -/
theorem LoadFrame.Ok.stack_pages (ok : l.Ok f argc) :
    ((pagingAlignAddress (l.stackAddr + BitVec.ofNat 32 taskStackSize)).toNat -
      l.stackAddr.toNat) / 4096 = 4 := by
  have aligned := ok.stack.aligned
  have below := ok.stack.below
  have heapEnd : kernelHeapAddress.toNat + kernelHeapSize = 0x7400000 := rfl
  have length : taskStackSize = 16384 := rfl
  have size : (l.stackAddr + BitVec.ofNat 32 taskStackSize).toNat = l.stackAddr.toNat + 16384 := by
    rw [length]
    bv_omega
  rw [pagingAlignAddress_eq _ (by omega), size]
  omega

theorem LoadFrame.Ok.translate_args (ok : l.Ok f argc) {o : Nat} (small : o < 4096) :
    l.pages.translate (commandLineArgVirtualAddr + BitVec.ofNat 32 o) =
      l.argBlock + BitVec.ofNat 32 o := by
  have page : Page.number (commandLineArgVirtualAddr + BitVec.ofNat 32 o) =
      Page.number commandLineArgVirtualAddr := Page.number_add (by decide) small
  have base : commandLineArgVirtualAddr.toNat = 0x2000000 := rfl
  have offset : (commandLineArgVirtualAddr + BitVec.ofNat 32 o).toNat % 4096 = o := by
    rw [BitVec.toNat_add, BitVec.toNat_ofNat, base]
    omega
  have entry := processMapTaskMemory_apply ok.mapped.ge ok.argsPage
  rw [ok.block_pages, BitVec.sub_self, if_pos (by decide)] at entry
  rw [PageMap.translate, page, offset, LoadFrame.pages, entry, BitVec.toNat_zero, Nat.mul_zero,
    BitVec.add_zero, Page.or_and_frameMask ok.block.aligned (by decide)]

theorem LoadFrame.Ok.translate_stack (ok : l.Ok f argc) {o : Nat} (small : o < 4096) :
    l.pages.translate (taskStackVirtAddr - 4096 + BitVec.ofNat 32 o) =
      l.stackAddr + 12288 + BitVec.ofNat 32 o := by
  have page : Page.number (taskStackVirtAddr - 4096 + BitVec.ofNat 32 o) =
      Page.number (taskStackVirtAddr - 8) := Page.number_add (by decide) small
  have base : (taskStackVirtAddr - 4096).toNat = 0x3FE000 := rfl
  have offset : (taskStackVirtAddr - 4096 + BitVec.ofNat 32 o).toNat % 4096 = o := by
    rw [BitVec.toNat_add, BitVec.toNat_ofNat, base]
    omega
  have aligned : (l.stackAddr + 12288).toNat % 4096 = 0 := by
    have stack := ok.stack.aligned
    bv_omega
  have index : (Page.number (taskStackVirtAddr - 8) - Page.number taskStackVirtAddrEnd).toNat = 3 := by
    decide
  have entry := processMapTaskMemory_apply ok.mapped.ge ok.stackPage
  rw [ok.block_pages, if_neg (by decide), ok.stack_pages, index, if_pos (by decide)] at entry
  rw [PageMap.translate, page, offset, LoadFrame.pages, entry]
  exact congrArg (· + BitVec.ofNat 32 o) (Page.or_and_frameMask aligned (by decide))

/-- `_start` passes on the two words above the stack pointer, the lower one second. -/
theorem start_eq {view : Word → Word} {base : Word}
    (shift : ∀ o < 4096, view (taskStackVirtAddr - 4096 + BitVec.ofNat 32 o) =
      base + BitVec.ofNat 32 o) (m : Mem) (ret : Word) :
    ∃ m', start view m (taskStackVirtAddr - 8) ret =
        ⟨m.load32 (base + 4092#32), m.load32 (base + 4088#32), m'⟩ ∧
      ∀ x, 4096 ≤ (x - base).toNat → m' x = m x := by
  have word : ∀ o, o + 3 < 4096 → ∀ i ≤ 3,
      view (taskStackVirtAddr - 4096 + BitVec.ofNat 32 o + BitVec.ofNat 32 i) =
        base + BitVec.ofNat 32 o + BitVec.ofNat 32 i := by
    intro o small i three
    rw [BitVec.add_assoc, ← BitVec.ofNat_add, shift (o + i) (by omega), BitVec.ofNat_add,
      BitVec.add_assoc]
  have a0 : taskStackVirtAddr - 8 = taskStackVirtAddr - 4096 + BitVec.ofNat 32 4088 := by decide
  have a1 : taskStackVirtAddr - 8 - 4 = taskStackVirtAddr - 4096 + BitVec.ofNat 32 4084 := by decide
  have a2 : taskStackVirtAddr - 8 - 4 + 8 = taskStackVirtAddr - 4096 + BitVec.ofNat 32 4092 := by decide
  have a3 : taskStackVirtAddr - 8 - 4 - 4 = taskStackVirtAddr - 4096 + BitVec.ofNat 32 4080 := by decide
  have a4 : taskStackVirtAddr - 8 - 4 - 4 - 4 = taskStackVirtAddr - 4096 + BitVec.ofNat 32 4076 := by
    decide
  have a5 : taskStackVirtAddr - 8 - 4 - 4 - 4 + 4 = taskStackVirtAddr - 4096 + BitVec.ofNat 32 4080 := by
    decide
  have a6 : taskStackVirtAddr - 8 - 4 - 4 - 4 + 8 = taskStackVirtAddr - 4096 + BitVec.ofNat 32 4084 := by
    decide
  refine ⟨((m.store32 (base + 4084#32) (m.load32 (base + 4088#32))).store32 (base + 4080#32)
    (m.load32 (base + 4092#32))).store32 (base + 4076#32) ret, ?_, ?_⟩
  · simp only [start]
    rw [a6, a5, a4, a3, a2, a1, a0]
    simp only [storeVia_eq (word 4084 (by decide)), storeVia_eq (word 4080 (by decide)),
      storeVia_eq (word 4076 (by decide)), loadVia_eq (word 4088 (by decide)),
      loadVia_eq (word 4092 (by decide)), loadVia_eq (word 4080 (by decide)),
      loadVia_eq (word 4084 (by decide))]
    have kept : (m.store32 (base + 4084#32) (m.load32 (base + 4088#32))).load32 (base + 4092#32) =
        m.load32 (base + 4092#32) := Mem.load32_store32_apart (by bv_omega) (by bv_omega)
    rw [kept, Mem.load32_store32_apart (by bv_omega) (by bv_omega), Mem.load32_store32_self,
      Mem.load32_store32_apart (by bv_omega) (by bv_omega),
      Mem.load32_store32_apart (by bv_omega) (by bv_omega), Mem.load32_store32_self]
  · intro x outside
    rw [Mem.store32_apply_of_le (by bv_omega), Mem.store32_apply_of_le (by bv_omega),
      Mem.store32_apply_of_le (by bv_omega)]

end View

/-! ## The load -/

section Load

variable {l : LoadFrame} {f : ExecveFrame} {m : Mem} {args : List (List Byte)}

theorem BesideStack.number_ne {p stackAddr x : Word} (beside : BesideStack p stackAddr)
    (block : HeapBlock p) (stack : HeapBlock stackAddr)
    (inside : (x - stackAddr).toNat < taskStackSize) : Page.number x ≠ Page.number p := by
  have size : taskStackSize = 16384 := rfl
  have heapEnd : kernelHeapAddress.toNat + kernelHeapSize = 0x7400000 := rfl
  have below := stack.below
  have aligned := block.aligned
  have address : x.toNat = stackAddr.toNat + (x - stackAddr).toNat := by bv_omega
  intro same
  have numbers := congrArg BitVec.toNat same
  rw [Page.toNat_number, Page.toNat_number] at numbers
  unfold BesideStack at beside
  omega

/-- Memory as it is when `load_arg_block` is called. -/
def beforeArgBlock (l : LoadFrame) (argc : Int) (m : Mem) : Mem :=
  (putArgvArgcInStackMem ((l.loadData m).fill l.stackAddr taskStackSize 0) l.stackAddr argc
    commandLineArgVirtualAddr).fill l.argBlock lenArgBlock 0

theorem fill_argBlock_other {block x : Word} (aligned : block.toNat % 4096 = 0)
    (other : Page.number x ≠ Page.number block) (m : Mem) : m.fill block lenArgBlock 0 x = m x := by
  have length : lenArgBlock = 180 := rfl
  refine Mem.fill_apply_of_le (not_lt.mp fun near => other ?_)
  exact Page.number_eq_of_sub_lt aligned (by omega)

theorem beforeArgBlock_other (ok : l.Ok f args.length) (argc : Int) {x : Word}
    (block : Page.number x ≠ Page.number l.argBlock)
    (stack : taskStackSize ≤ (x - l.stackAddr).toNat) :
    beforeArgBlock l argc m x = l.loadData m x := by
  have size : taskStackSize = 16384 := rfl
  rw [beforeArgBlock, fill_argBlock_other ok.block.aligned block, putArgvArgcInStackMem,
    Mem.store32_apply_of_le, Mem.store32_apply_of_le, Mem.fill_apply_of_le stack]
  all_goals
    rw [size] at stack ⊢
    bv_omega

/-- `argc` and `argv` stand in the last two words of the stack. -/
theorem beforeArgBlock_stack (ok : l.Ok f args.length) (argc : Int) :
    (beforeArgBlock l argc m).load32 (l.stackAddr + 12288 + 4092#32) = BitVec.ofInt 32 argc ∧
      (beforeArgBlock l argc m).load32 (l.stackAddr + 12288 + 4088#32) = commandLineArgVirtualAddr := by
  have size : taskStackSize = 16384 := rfl
  have high : l.stackAddr + BitVec.ofNat 32 taskStackSize - 4 = l.stackAddr + 12288 + 4092#32 := by
    rw [size]
    bv_omega
  have low : l.stackAddr + BitVec.ofNat 32 taskStackSize - 8 = l.stackAddr + 12288 + 4088#32 := by
    rw [size]
    bv_omega
  have word : ∀ a m', (∀ x : Word, (x - a).toNat < 4 → (x - l.stackAddr).toNat < taskStackSize) →
      (m'.fill l.argBlock lenArgBlock 0).load32 a = Mem.load32 m' a := by
    intro a m' inside
    refine Mem.load32_congr fun x near => fill_argBlock_other ok.block.aligned ?_ m'
    exact ok.block_stack.number_ne ok.block ok.stack (inside x near)
  constructor
  · rw [beforeArgBlock, word _ _ (by intro x near; rw [size]; bv_omega), putArgvArgcInStackMem, high,
      low, Mem.load32_store32_apart (by bv_omega) (by bv_omega), Mem.load32_store32_self]
  · rw [beforeArgBlock, word _ _ (by intro x near; rw [size]; bv_omega), putArgvArgcInStackMem, high,
      low, Mem.load32_store32_self]

/-- The kernel's strings are still there when the block is filled. -/
theorem beforeArgBlock_source (frame : f.Ok args.length) (ok : l.Ok f args.length) {x : Word}
    (source : (∃ i < args.length, Page.number x = Page.number (f.arg i)) ∨
      0 < args.length ∧ Page.number x = Page.number f.argv) :
    beforeArgBlock l args.length m x = m x := by
  rw [← ok.loadData m x source]
  rcases source with ⟨i, inside, page⟩ | ⟨pos, page⟩
  · refine beforeArgBlock_other ok _ ?_ (not_lt.mp fun stack => ?_)
    · rw [page]
      exact (frame.arg i inside).number_ne ok.block (ok.arg_block i inside)
    · exact (ok.arg_stack i inside).number_ne (frame.arg i inside) ok.stack stack page
  · refine beforeArgBlock_other ok _ ?_ (not_lt.mp fun stack => ?_)
    · rw [page]
      exact (frame.argv pos).number_ne ok.block (ok.argv_block pos)
    · exact (ok.argv_stack pos).number_ne (frame.argv pos) ok.stack stack page

theorem filled_zero (frame : f.Ok args.length) (ok : l.Ok f args.length)
    (few : args.length ≤ maxNumArgs)
    (argv : ∀ j < args.length, m.load32 (f.argv + BitVec.ofNat 32 (4 * j)) = f.arg j)
    (strings : ∀ j, ∀ inside : j < args.length,
      StringAt m id (f.arg j) (args[j].take maxCmmdArgLen)) (argv' : Word)
    (same : 0 < args.length → argv' = f.argv) :
    Filled (beforeArgBlock l args.length m) l.argBlock argv' f.arg args 0
      ⟨beforeArgBlock l args.length m, []⟩ := by
  simp only [maxNumArgs] at few
  refine ⟨fun _ _ => rfl, ?_, ?_, fun _ none => by omega, fun _ none => by omega,
    fun _ none => by omega, by simp⟩
  · intro j inside
    rw [same (by omega), ← argv j inside]
    refine Mem.load32_congr fun x near => beforeArgBlock_source frame ok (.inr ⟨by omega, ?_⟩)
    exact Page.number_eq_of_sub_lt (frame.argv (by omega)).aligned (by bv_omega)
  · intro j inside
    refine (strings j inside).congr fun k within => beforeArgBlock_source frame ok (.inl ⟨j, inside, ?_⟩)
    have short : (args[j].take maxCmmdArgLen).length ≤ 32 := List.length_take_le _ _
    rw [id, Page.number_add (frame.arg j inside).aligned (by omega)]

/-- With few arguments the load succeeds and leaves a filled block. -/
theorem processLoadForSlot_filled (frame : f.Ok args.length) (ok : l.Ok f args.length)
    (few : args.length ≤ maxNumArgs)
    (argv : ∀ j < args.length, m.load32 (f.argv + BitVec.ofNat 32 (4 * j)) = f.arg j)
    (strings : ∀ j, ∀ inside : j < args.length,
      StringAt m id (f.arg j) (args[j].take maxCmmdArgLen))
    {fuel : Nat} (enough : maxCmmdArgLen < fuel) :
    ∃ t argv, processLoadForSlot fuel l args.length f.argv m =
        some ⟨t.written, l.taskNew t.mem, l.pages⟩ ∧
      Filled (beforeArgBlock l args.length m) l.argBlock argv f.arg args args.length t := by
  generalize choice : (if (args.length : Int) = 0 then 0 else f.argv) = argv'
  have same : 0 < args.length → argv' = f.argv := by
    intro pos
    rw [← choice, if_neg (by omega)]
  have sources : Sources l.argBlock argv' f.arg args := by
    refine ⟨ok.block.aligned, ?_, ?_, fun i inside => (frame.arg i inside).aligned,
      fun i inside => (frame.arg i inside).number_ne ok.block (ok.arg_block i inside)⟩
    all_goals rcases Nat.eq_zero_or_pos args.length with none | pos
    · rw [← choice, if_pos (by omega)]
      decide
    · rw [same pos]
      exact (frame.argv pos).aligned
    · rw [← choice, if_pos (by omega)]
      exact ok.block.number_ne_low (by decide)
    · rw [same pos]
      exact (frame.argv pos).number_ne ok.block (ok.argv_block pos)
  obtain ⟨t, filled, state⟩ := loadArgBlockLoop_filled sources few enough args.length 0 _ (by omega)
    (filled_zero frame ok few argv strings argv' same)
  refine ⟨t, argv', ?_, state⟩
  have mapped : ¬ (processMapTaskMemory l.stackAddr l.argBlock l.executable
      (PageMap.linear ((pagingUserSupervisor ||| pagingPresent).setWidth 8))).1 < 0 := by
    rw [ok.mapped]
    decide
  rw [beforeArgBlock] at filled
  simp only [processLoadForSlot, choice, loadArgBlock, Int.toNat_natCast, filled, if_neg mapped]
  rfl

/-! ## `main` -/

variable {argv : Word} {t : Trace}

/-- `main` is called with the count and the user address of the block, which it finds as
    `load_arg_block` left it. -/
theorem main_call (ok : l.Ok f args.length)
    (state : Filled (beforeArgBlock l args.length m) l.argBlock argv f.arg args args.length t)
    (ret : Word) :
    ∃ m', start l.pages.translate (l.taskNew t.mem) (taskStackVirtAddr - 8) ret =
        ⟨BitVec.ofNat 32 args.length, commandLineArgVirtualAddr, m'⟩ ∧
      ∀ x, Page.number x = Page.number l.argBlock → m' x = t.mem x := by
  have size : taskStackSize = 16384 := rfl
  obtain ⟨m', entered, frame⟩ := start_eq (fun o small => ok.translate_stack small)
    (l.taskNew t.mem) ret
  have stack : ∀ x : Word, (x - l.stackAddr).toNat < taskStackSize →
      l.taskNew t.mem x = beforeArgBlock l args.length m x := by
    intro x inside
    rw [ok.taskNew t.mem x (.inr inside)]
    exact state.others x (ok.block_stack.number_ne ok.block ok.stack inside)
  obtain ⟨count, vector⟩ := beforeArgBlock_stack (m := m) ok args.length
  rw [BitVec.ofInt_natCast] at count
  refine ⟨m', ?_, ?_⟩
  · have high : (l.taskNew t.mem).load32 (l.stackAddr + 12288 + 4092#32) =
        (beforeArgBlock l args.length m).load32 (l.stackAddr + 12288 + 4092#32) :=
      Mem.load32_congr fun x near => stack x (by rw [size]; bv_omega)
    have low : (l.taskNew t.mem).load32 (l.stackAddr + 12288 + 4088#32) =
        (beforeArgBlock l args.length m).load32 (l.stackAddr + 12288 + 4088#32) :=
      Mem.load32_congr fun x near => stack x (by rw [size]; bv_omega)
    rw [entered, high, low, count, vector]
  · intro x page
    rw [frame x, ok.taskNew t.mem x (.inl page)]
    by_contra near
    exact ok.block_stack.number_ne ok.block ok.stack (by rw [size]; bv_omega) page

theorem runOn_length (args : List (List Byte)) : (runOn args).length ≤ 32 * args.length := by
  induction args with
  | nil => simp [runOn]
  | cons arg args ih =>
      have short : (arg.take maxCmmdArgLen).length ≤ 32 := List.length_take_le _ _
      rw [runOn, List.length_append, List.length_cons]
      split
      · omega
      · simp only [List.length_nil]
        omega

/-- The strings that `main` finds. -/
theorem main_strings (ok : l.Ok f args.length) (few : args.length ≤ maxNumArgs)
    (state : Filled (beforeArgBlock l args.length m) l.argBlock argv f.arg args args.length t)
    {m' : Mem} (block : ∀ x, Page.number x = Page.number l.argBlock → m' x = t.mem x)
    {i : Nat} (bound : i < args.length) :
    StringAt m' l.pages.translate
      (loadVia l.pages.translate m' (commandLineArgVirtualAddr + BitVec.ofNat 32 (4 * i)))
      (runOn (args.drop i)) := by
  simp only [maxNumArgs] at few
  have onBlock : ∀ o < 4096, m' (l.argBlock + BitVec.ofNat 32 o) = t.mem (l.argBlock + BitVec.ofNat 32 o) :=
    fun o small => block _ (Page.number_add ok.block.aligned small)
  have pointer : loadVia l.pages.translate m' (commandLineArgVirtualAddr + BitVec.ofNat 32 (4 * i)) =
      commandLineArgVirtualAddr + BitVec.ofNat 32 (20 + 32 * i) := by
    have shift : ∀ k ≤ 3, l.pages.translate
        (commandLineArgVirtualAddr + BitVec.ofNat 32 (4 * i) + BitVec.ofNat 32 k) =
          l.argBlock + BitVec.ofNat 32 (4 * i) + BitVec.ofNat 32 k := by
      intro k three
      rw [BitVec.add_assoc, ← BitVec.ofNat_add, ok.translate_args (by omega), BitVec.ofNat_add,
        BitVec.add_assoc]
    rw [loadVia_eq shift]
    refine Eq.trans ?_ (state.pointers i bound)
    refine Mem.load32_congr fun x near => block x ?_
    exact Page.number_eq_of_sub_lt ok.block.aligned (by bv_omega)
  have length := runOn_length (args.drop i)
  rw [List.length_drop] at length
  rw [pointer]
  refine (state.string (args.length - 1 - i) i (by omega)).congr fun k within => ?_
  rw [BitVec.add_assoc, ← BitVec.ofNat_add, ok.translate_args (by omega), onBlock _ (by omega), id,
    argSlot_add]

theorem runOn_of_short {i : Nat} (bound : i < args.length) (short : args[i].length < maxCmmdArgLen) :
    runOn (args.drop i) = args[i] := by
  rw [List.drop_eq_getElem_cons bound, runOn, if_neg (not_le.mpr short), List.append_nil,
    List.take_of_length_le (Nat.le_of_lt short)]

/-- The block is left only by a fifth argument that fills its slot. -/
theorem written_inside_iff (aligned : l.argBlock.toNat % 4096 = 0) (few : args.length ≤ maxNumArgs)
    (state : Filled m l.argBlock argv f.arg args args.length t) :
    (∀ x ∈ t.written, (x - l.argBlock).toNat < lenArgBlock) ↔
      ∀ full : maxNumArgs - 1 < args.length, args[maxNumArgs - 1].length < maxCmmdArgLen := by
  have length : lenArgBlock = 180 := rfl
  have distance : ∀ o < 4096, (l.argBlock + BitVec.ofNat 32 o - l.argBlock).toNat = o :=
    fun o small => by bv_omega
  simp only [maxNumArgs] at few
  constructor
  · intro inside full
    by_contra long
    rw [not_lt] at long
    have cut : (args[maxNumArgs - 1].take maxCmmdArgLen).length = 32 := by
      rw [List.length_take, min_eq_left long]
      rfl
    have outside := inside (argSlot l.argBlock (maxNumArgs - 1) + BitVec.ofNat 32 32)
      ((state.written _).mpr ⟨maxNumArgs - 1, full, full, .inl ⟨32, cut.ge, rfl⟩⟩)
    rw [argSlot_add, distance _ (by decide), length] at outside
    exact absurd outside (by decide)
  · intro last x member
    obtain ⟨j, inside, -, ⟨k, within, rfl⟩ | ⟨b, small, rfl⟩⟩ := (state.written x).mp member
    · have cut : (args[j].take maxCmmdArgLen).length = min 32 args[j].length := List.length_take
      rw [argSlot_add, distance _ (by omega), length]
      rcases Nat.lt_or_eq_of_le (by omega : j ≤ 4) with early | rfl
      · omega
      · have short : args[4].length < 32 := last inside
        omega
    · rw [distance _ (by omega), length]
      omega

theorem argsPassed_iff (ok : l.Ok f args.length) (few : args.length ≤ maxNumArgs)
    (state : Filled (beforeArgBlock l args.length m) l.argBlock argv f.arg args args.length t)
    (ret : Word) :
    ArgsPassed l ⟨t.written, l.taskNew t.mem, l.pages⟩ ret args ↔ ArgsFit args := by
  obtain ⟨m', entered, block⟩ := main_call ok state ret
  have strings := fun i (bound : i < args.length) => main_strings ok few state block bound
  constructor
  · intro passed
    refine ⟨few, (written_inside_iff ok.block.aligned few state).mp passed.inside, ?_⟩
    intro i bound long
    obtain ⟨text, found, -, shortened⟩ := passed.argv i bound
    rw [entered] at found
    rw [(strings i bound).unique found]
    exact shortened long
  · intro fit
    refine ⟨(written_inside_iff ok.block.aligned few state).mpr fit.last, by rw [entered], ?_⟩
    intro i bound
    simp only [entered]
    exact ⟨_, strings i bound, runOn_of_short bound, fit.continued i bound⟩

end Load

end ConiferOS.Process
