import ConiferOS.Process.ArgumentPassing

/-! # Arguments through `execve`

The whole way of the arguments, from the caller's memory to the `main` of the child.
-/

namespace ConiferOS.Process

open Lib Paging

section Execve

variable {f : ExecveFrame} {l : LoadFrame} {pages : PageMap} {m : Mem}
variable {argvUsrAddr filenameUsrAddr : Word} {path : List Byte} {args : List (List Byte)}

theorem processLoadForSlot_mono {fuel more : Nat} (enough : fuel ≤ more) {argc : Int} {argv : Word}
    {child : Child} (loaded : processLoadForSlot fuel l argc argv m = some child) :
    processLoadForSlot more l argc argv m = some child := by
  simp only [processLoadForSlot, loadArgBlock] at loaded ⊢
  split at loaded
  · cases loaded
  · rename_i t filled
    rw [loadArgBlockLoop_mono enough filled]
    exact loaded

/-- Every argument of a child that comes to be has a slot that was written. -/
theorem processLoadForSlot_written {fuel argc : Nat} {argv : Word} {child : Child}
    (loaded : processLoadForSlot fuel l argc argv m = some child) :
    ∀ j < argc, argSlot l.argBlock j ∈ child.written := by
  simp only [processLoadForSlot, loadArgBlock] at loaded
  split at loaded
  · cases loaded
  · rename_i t filled
    split at loaded
    · cases loaded
    · cases loaded
      intro j bound
      exact (loadArgBlockLoop_written filled).2 j (Nat.zero_le j) (by simpa using bound)

/-- A sixth argument has its slot behind the block. -/
theorem ArgsPassed.few {child : Child} {ret : Word} (passed : ArgsPassed l child ret args)
    {fuel : Nat} {argv : Word}
    (loaded : processLoadForSlot fuel l args.length argv m = some child) :
    args.length ≤ maxNumArgs := by
  by_contra many
  rw [not_le] at many
  have outside := passed.inside _ (processLoadForSlot_written loaded maxNumArgs many)
  have distance : (argSlot l.argBlock maxNumArgs - l.argBlock).toNat = 180 := by
    rw [argSlot]
    have offset : 4 * maxNumArgs + maxCmmdArgLen * maxNumArgs = 180 := rfl
    rw [offset]
    bv_omega
  rw [distance] at outside
  exact absurd outside (by decide)

/-- With few arguments the system call ends with a child that has them exactly when they fit. -/
theorem isr80hCommand6Execve_few (frame : f.Ok args.length) (load : l.Ok f args.length)
    (caller : Caller f pages m argvUsrAddr filenameUsrAddr path args)
    (few : args.length ≤ maxNumArgs) (ret : Word) :
    ∃ child, (∀ fuel > maxCmmdArgLen,
        isr80hCommand6Execve fuel f l args.length argvUsrAddr filenameUsrAddr m pages = some child) ∧
      (ArgsPassed l child ret args ↔ ArgsFit args) := by
  obtain ⟨m', copied, argv, strings⟩ := execveCopy_spec frame
    (le_trans few (by decide : maxNumArgs ≤ 127)) caller
  obtain ⟨t, argv', loaded, state⟩ := processLoadForSlot_filled frame load few argv strings
    (by decide : maxCmmdArgLen < maxCmmdArgLen + 1)
  refine ⟨_, fun fuel enough => ?_, argsPassed_iff load few state ret⟩
  rw [isr80hCommand6Execve, copied]
  exact processLoadForSlot_mono enough loaded

end Execve

/-! ## Two arguments -/

/-- `n` letters and one more argument. -/
def letters (n : Nat) : List (List Byte) := [List.replicate n 0x61, [0x62]]

/-- The caller's page: the two pointers, the path, and the strings at `0x10` and `0x40`. -/
def lettersPage (n : Nat) : List Byte :=
  [0x10, 0, 0, 1, 0x40, 0, 0, 1, 0x70, 0, 0, 0, 0, 0, 0, 0] ++
    List.replicate n 0x61 ++ List.replicate (48 - n) 0 ++ [0x62]

def lettersMem (n : Nat) : Mem := fun x => (lettersPage n).getD (x - 0x1000000).toNat 0

def lettersFrame : ExecveFrame where
  filename := 0x500000
  argvKernelCopy := 0x500100
  tmp := fun _ => 0x1001000
  argv := 0x1002000
  arg := fun i => 0x1003000 + BitVec.ofNat 32 (4096 * i)

def lettersLoad : LoadFrame where
  stackAddr := 0x1010000
  argBlock := 0x1020000
  executable := .binary 0x1030000 16
  loadData := id
  taskNew := id

instance (p : Word) : Decidable (HeapBlock p) :=
  decidable_of_iff (p.toNat % 4096 = 0 ∧ kernelHeapAddress.toNat ≤ p.toNat ∧
      p.toNat < kernelHeapAddress.toNat + kernelHeapSize)
    ⟨fun ⟨aligned, heap, below⟩ => ⟨aligned, heap, below⟩,
      fun block => ⟨block.aligned, block.heap, block.below⟩⟩

instance (p stackAddr : Word) : Decidable (BesideStack p stackAddr) :=
  inferInstanceAs (Decidable (_ ∨ _))

instance (executable : Executable) (page : BitVec 20) : Decidable (executable.Maps page) :=
  match executable with
  | .elf _ _ => inferInstanceAs (Decidable (∃ phdr ∈ _, _))
  | .binary _ _ => inferInstanceAs (Decidable (_ < _))

theorem lettersFrame_ok (n : Nat) : lettersFrame.Ok (letters n).length := by
  change lettersFrame.Ok 2
  constructor <;> decide

theorem lettersLoad_ok (n : Nat) : lettersLoad.Ok lettersFrame (letters n).length := by
  change lettersLoad.Ok lettersFrame 2
  constructor <;> first | exact fun _ _ _ => rfl | decide

theorem lettersFrame_user {o : Nat} (small : o < 4096) :
    UserByte lettersFrame 2 (PageMap.linear 7) (0x1000000 + BitVec.ofNat 32 o) := by
  have page : Page.number ((0x1000000 : Word) + BitVec.ofNat 32 o) = 0x1000 :=
    Page.number_add (by decide) small
  refine ⟨?_, ?_, ?_, ?_, ?_⟩
  all_goals simp only [PageMap.translate_linear, page]
  · decide
  · have start : kernelHeapAddress.toNat = 0x1000000 := rfl
    bv_omega
  · decide
  · decide
  · decide

/-- A string on the caller's page. -/
theorem lettersMem_string {n o : Nat} {text : List Byte} (fits : o + text.length < 4096)
    (chars : ∀ i, ∀ inside : i < text.length, (lettersPage n).getD (o + i) 0 = text[i])
    (nonzero : ∀ c ∈ text, c ≠ 0) (nul : (lettersPage n).getD (o + text.length) 0 = 0) :
    UserString lettersFrame 2 (PageMap.linear 7) (lettersMem n) (0x1000000 + BitVec.ofNat 32 o)
      text := by
  have address : ∀ i, (0x1000000 : Word) + BitVec.ofNat 32 o + BitVec.ofNat 32 i =
      0x1000000 + BitVec.ofNat 32 (o + i) := fun i => by rw [BitVec.add_assoc, BitVec.ofNat_add]
  have byte : ∀ i ≤ text.length, lettersMem n ((PageMap.linear 7).translate
      ((0x1000000 : Word) + BitVec.ofNat 32 o + BitVec.ofNat 32 i)) =
        (lettersPage n).getD (o + i) 0 := by
    intro i inside
    have distance : ((0x1000000 : Word) + BitVec.ofNat 32 (o + i) - 0x1000000).toNat = o + i := by
      bv_omega
    rw [address, PageMap.translate_linear, lettersMem, distance]
  constructor
  · rw [← List.append_nil text]
    refine .append (fun i inside => ?_) nonzero (.nil ?_)
    · rw [byte i (Nat.le_of_lt inside), chars i inside]
    · rw [byte _ le_rfl, nul]
  · intro k inside
    rw [address]
    exact lettersFrame_user (by omega)

theorem lettersMem_caller (n : Nat) (known : n = 31 ∨ n = 32) :
    Caller lettersFrame (PageMap.linear 7) (lettersMem n) 0x1000000 0x1000008 [0x70] (letters n) where
  kernelStack := fun i _ => PageMap.translate_linear 7 _
  pathString := by
    rcases known with rfl | rfl <;>
      exact lettersMem_string (o := 8) (by decide) (by decide) (by decide) (by decide)
  pathShort := by decide
  pointers := fun i bound => lettersFrame_user (by
    have length : (letters n).length = 2 := rfl
    omega)
  strings := by
    intro i inside
    have pointer : loadVia (PageMap.linear 7).translate (lettersMem n)
        (0x1000000 + BitVec.ofNat 32 (4 * i)) = 0x1000000 + BitVec.ofNat 32 (0x10 + 0x30 * i) := by
      rcases known with rfl | rfl <;> revert i <;> decide
    rw [pointer]
    clear pointer
    rcases known with rfl | rfl <;> apply lettersMem_string <;> revert i <;> decide

end ConiferOS.Process
