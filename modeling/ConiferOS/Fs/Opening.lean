import ConiferOS.Fs.Descriptors
import ConiferOS.Fs.DriverMemory
import ConiferOS.Fs.PathParser
import ConiferOS.Memory.Shielded

/-! # Opening and closing files

`fopen` and `fclose` of `file.c` with every block that is allocated and freed on the way: the
parsed path, the structures of the driver, and the descriptor.
-/

namespace ConiferOS.Fs.Opening

open Lib Heap

/-! ## The functions -/

def sizeofFatFileDescriptor : Word := 8
def sizeofFileDescriptor : Word := 16

/-- `struct file_descriptor`, the `struct fat_file_descriptor` it points to, and the entry of
    the directory that this points to. -/
structure OpenFile where
  ptr : Word
  index : Nat
  privatePtr : Word
  easyDirectoryEntry : Option EasyEntry

abbrev FileTable := Nat → Option OpenFile

section Functions

variable {σ : Type} (A : Allocator σ) (disk : Disk) (fat : FatVolume)

/-- The pointer or the error, and what the pointer leads to. -/
def fat16Fopen (part : List Byte) (next : List (List Byte)) (mode : FileMode) :
    Driver σ (Word × Option EasyEntry) :=
  match mode with
  | .read => do
      let fatFileDescriptor ← A.alloc sizeofFatFileDescriptor
      if fatFileDescriptor = 0 then
        pure (BitVec.ofInt 32 (-enomem), none)
      else
        match ← fat16GetDirectoryEntry disk fat A part next with
        | none =>
            A.free fatFileDescriptor
            pure (BitVec.ofInt 32 (-eio), none)
        | some entry => pure (fatFileDescriptor, some entry)
  | _ => pure (BitVec.ofInt 32 (-erdonly), none)

/-- The first free slot. -/
def freeSlot (table : FileTable) : Option Nat := (List.range maxOpenFiles).find? fun i => (table i).isNone

/-- The part of `fopen` behind `fs_open`. The new descriptor is used without a test. -/
def newDescriptor (table : FileTable) (filePrivData : Word) (entry : Option EasyEntry) :
    Driver σ (Int × FileTable) :=
  match freeSlot table with
  | none => pure (-enomem, table)
  | some i => do
      let file ← A.alloc sizeofFileDescriptor
      if file = 0 then
        throw .nullPointer
      else
        pure (i, Function.update table i (some ⟨file, i, filePrivData, entry⟩))

/-- The part of `fopen` behind the parser. Only drive 0 exists; `mounted` says that its file
    system was recognised. -/
def openParsed (mounted : Bool) (table : FileTable) (modeStr : List Byte) (pathRoot : ParsedPath) :
    Driver σ (Int × FileTable) :=
  match pathRoot.first with
  | [] => pure (-einvarg, table)
  | first :: next =>
      if pathRoot.driveNo ≠ 0 then pure (-eio, table)
      else if !mounted then pure (-eio, table)
      else match fileGetModeByString modeStr with
        | .invalid => pure (-einvarg, table)
        | mode => do
            let (filePrivData, entry) ← fat16Fopen A disk fat first.part (next.map (·.part)) mode
            if isError filePrivData then
              pure (filePrivData.toInt, table)
            else
              newDescriptor A table filePrivData entry

def fopen (mounted : Bool) (table : FileTable) (filename modeStr : List Byte) :
    Driver σ (Int × FileTable) := do
  match ← pparserParse A filename with
  | none => pure (-einvarg, table)
  | some pathRoot => openParsed A disk fat mounted table modeStr pathRoot

def fat16FreeFileDescriptor (file : OpenFile) : Driver σ Unit :=
  match file.easyDirectoryEntry with
  | none => throw .nullPointer
  | some entry => do
      fat16EasyDirEntryFree A entry
      A.free file.privatePtr

def fclose (table : FileTable) (fd : Int) : Driver σ (Int × FileTable) :=
  match if fd < 0 ∨ (maxOpenFiles : Int) - 1 < fd then none else table fd.toNat with
  | none => pure (-einvarg, table)
  | some desc => do
      fat16FreeFileDescriptor A desc
      A.free desc.ptr
      pure (0, Function.update table desc.index none)

end Functions

/-! ## What is freed -/

structure GivenFile (G : Word → Prop) (file : OpenFile) : Prop where
  ptr : Given G file.ptr
  inner : ∀ entry ∈ file.easyDirectoryEntry, Given G file.privatePtr ∧ GivenEntry G entry

section Keeping

variable {σ : Type} {A : Allocator σ} {I : σ → Prop} {G : Word → Prop} (keeps : Keeps A I G)
  {disk : Disk} {fat : FatVolume} {s : DriverState σ}
include keeps

theorem pparserGetPathPart_keeps (inv : I s.memory) (path : List Byte) :
    (pparserGetPathPart A path).Ensures s fun _ s => I s.memory := by
  refine (alloc_keeps keeps inv _).bind ?_
  rintro buffer s ⟨inv, given⟩
  split
  case isTrue => exact (free_keeps keeps inv given).bind fun _ s inv => .pure inv
  case isFalse =>
    split
    case isTrue => exact .throw _
    case isFalse =>
      split
      case isTrue => exact .throw _
      case isFalse => exact .pure inv

theorem parsePathPart_keeps (inv : I s.memory) (path : List Byte) :
    (parsePathPart A path).Ensures s fun _ s => I s.memory := by
  refine (pparserGetPathPart_keeps keeps inv path).bind fun str s inv => ?_
  cases str with
  | none => exact .pure inv
  | some str =>
      refine (alloc_keeps keeps inv _).bind ?_
      rintro part s ⟨inv, -⟩
      split
      case isTrue => exact .throw _
      case isFalse => exact .pure inv

/-- Induction on the length of what is left of the path. -/
theorem parseParts_keeps (inv : I s.memory) (path : List Byte) :
    (parseParts A path).Ensures s fun _ s => I s.memory := by
  induction path using (measure List.length).wf.induction generalizing s with
  | _ path ih =>
      rw [parseParts]
      refine (parsePathPart_keeps keeps inv path).bind fun part s inv => ?_
      cases part with
      | none => exact .pure inv
      | some part =>
          dsimp only
          split
          case isTrue shorter => exact (ih _ shorter inv).bind fun rest s inv => .pure inv
          case isFalse => exact .throw _

theorem fat16Fopen_keeps (inv : I s.memory) (part : List Byte) (next : List (List Byte)) (mode : FileMode) :
    (fat16Fopen A disk fat part next mode).Ensures s fun opened s =>
      I s.memory ∧ ∀ entry ∈ opened.2, Given G opened.1 ∧ GivenEntry G entry := by
  cases mode with
  | write | append | invalid => exact .pure ⟨inv, by simp⟩
  | read =>
      refine (alloc_keeps keeps inv _).bind ?_
      rintro fatFileDescriptor s ⟨inv, given⟩
      split
      case isTrue => exact .pure ⟨inv, by simp⟩
      case isFalse =>
        refine (fat16GetDirectoryEntry_keeps keeps inv part next).bind ?_
        rintro entry s ⟨inv, found⟩
        cases entry with
        | none => exact (free_keeps keeps inv given).bind fun _ s inv => .pure ⟨inv, by simp⟩
        | some entry =>
            refine .pure ⟨inv, ?_⟩
            rintro _ ⟨⟩
            exact ⟨given, found entry rfl⟩

/-- A descriptor that was opened is in the table, and can be freed. -/
def Opened (G : Word → Prop) (opened : Int × FileTable) : Prop :=
  0 ≤ opened.1 → ∀ file ∈ opened.2 opened.1.toNat, GivenFile G file

omit keeps in
theorem opened_of_neg {rc : Int} (negative : rc < 0) (table : FileTable) : Opened G (rc, table) :=
  fun nonneg => absurd negative (not_lt.mpr nonneg)

omit keeps in
theorem opened_update {file : OpenFile} (given : GivenFile G file) (table : FileTable) (i : Nat) :
    Opened G (i, Function.update table i (some file)) := by
  intro _ file' here
  have here : file' ∈ Function.update table i (some file) i := here
  rw [Function.update_self] at here
  cases here
  exact given

theorem newDescriptor_keeps (inv : I s.memory) (table : FileTable) {filePrivData : Word}
    {entry : Option EasyEntry} (given : ∀ e ∈ entry, Given G filePrivData ∧ GivenEntry G e) :
    (newDescriptor A table filePrivData entry).Ensures s fun opened s => I s.memory ∧ Opened G opened := by
  unfold newDescriptor
  split
  · exact .pure ⟨inv, opened_of_neg (by decide) table⟩
  · refine (alloc_keeps keeps inv _).bind ?_
    rintro file s ⟨inv, here⟩
    split
    case isTrue => exact .throw _
    case isFalse => exact .pure ⟨inv, opened_update ⟨here, given⟩ table _⟩

theorem openParsed_keeps (inv : I s.memory) (mounted : Bool) (table : FileTable) (modeStr : List Byte)
    (pathRoot : ParsedPath) :
    (openParsed A disk fat mounted table modeStr pathRoot).Ensures s fun opened s =>
      I s.memory ∧ Opened G opened := by
  have failed : ∀ {rc : Int} {s : DriverState σ}, rc < 0 → I s.memory →
      Prog.Ensures (ε := Fault) (pure (rc, table)) s fun opened s => I s.memory ∧ Opened G opened :=
    fun negative inv => .pure ⟨inv, opened_of_neg negative table⟩
  rw [openParsed]
  split
  · exact failed (by decide) inv
  · rename_i first next _
    split
    case isTrue => exact failed (by decide) inv
    case isFalse =>
      split
      case isTrue => exact failed (by decide) inv
      case isFalse =>
        split
        · exact failed (by decide) inv
        · refine (fat16Fopen_keeps keeps inv _ _ _).bind ?_
          rintro opened s ⟨inv, given⟩
          dsimp only
          split
          case isTrue error => exact failed error inv
          case isFalse => exact newDescriptor_keeps keeps inv table given

theorem fat16FreeFileDescriptor_keeps (inv : I s.memory) {file : OpenFile} (given : GivenFile G file) :
    (fat16FreeFileDescriptor A file).Ensures s fun _ s => I s.memory := by
  rw [fat16FreeFileDescriptor]
  split
  · exact .throw _
  · rename_i entry here
    obtain ⟨given, inner⟩ := given.inner entry here
    exact (fat16EasyDirEntryFree_keeps keeps inv inner).bind fun _ s inv => free_keeps keeps inv given

theorem fclose_keeps (inv : I s.memory) {opened : Int × FileTable} (given : Opened G opened) :
    (fclose A opened.2 opened.1).Ensures s fun _ s => I s.memory := by
  rw [fclose]
  split
  · exact .pure inv
  · rename_i desc found
    split at found
    case isTrue => cases found
    case isFalse range =>
      have given := given (not_lt.mp fun negative => range (.inl negative)) desc found
      refine (fat16FreeFileDescriptor_keeps keeps inv given).bind fun _ s inv => ?_
      exact (free_keeps keeps inv given.ptr).bind fun _ s inv => .pure inv

end Keeping

/-! ## On the kernel heap -/

def kernelAllocator : Allocator HeapDesc := ⟨Heap.kzalloc, Heap.kfree⟩

/-- Blocks that are in use are out of reach. -/
theorem kernelAllocator_keeps (base : HeapDesc) : Keeps kernelAllocator (Shielded base) (Loose base) where
  kzalloc := by
    intro memory size ptr later shielded served
    obtain ⟨-, rfl, rfl⟩ := kzalloc_eq_some served
    exact ⟨shielded.malloc size, shielded.loose⟩
  kfree := fun shielded given => shielded.kfree_given given

/-- If `fopen` fails, the heap and the table are as before; if it does not, closing the file
    leaves them so. -/
def LeakFree (disk : Disk) (fat : FatVolume) (mounted : Bool) (table : FileTable)
    (s : DriverState HeapDesc) (filename modeStr : List Byte) : Prop :=
  (fopen kernelAllocator disk fat mounted table filename modeStr).Ensures s fun opened s' =>
    (opened.1 < 0 → SameTable s.memory s'.memory ∧ opened.2 = table) ∧
      (0 ≤ opened.1 → (fclose kernelAllocator opened.2 opened.1).Yields s' fun closed s'' =>
        SameTable s.memory s''.memory ∧ closed.2 = table)

section Kernel

variable {disk : Disk} {fat : FatVolume} {mounted : Bool} {table : FileTable}
  {s : DriverState HeapDesc} {filename modeStr : List Byte}

theorem pparserCreateRoot_ensures (s : DriverState HeapDesc) (driveNo : Int) :
    (pparserCreateRoot kernelAllocator driveNo).Ensures s fun _ s' =>
      (heapMalloc s.memory sizeofPathRoot).1 ≠ 0 ∧ s'.memory = (heapMalloc s.memory sizeofPathRoot).2 := by
  have served : (kernelAllocator.alloc sizeofPathRoot).Ensures s fun ptr s' =>
      (heapMalloc s.memory sizeofPathRoot).1 = ptr ∧ (heapMalloc s.memory sizeofPathRoot).2 = s'.memory := by
    intro ptr s' run
    simp only [StateT.run, Allocator.alloc] at run
    split at run
    · cases run
    · rename_i served
      cases run
      exact (kzalloc_eq_some served).2
  refine served.bind ?_
  rintro ptr s' ⟨address, later⟩
  split
  case isTrue => exact .throw _
  case isFalse nonnull => exact .pure ⟨address ▸ nonnull, later.symm⟩

/-- The root of the parsed path is allocated, and not freed. -/
theorem parseFromDrive_shields (kernel : KernelTable s.memory) (driveNo : Int) (tmpPath : List Byte) :
    (parseFromDrive kernelAllocator driveNo tmpPath).Ensures s fun _ s' =>
      (heapMalloc s.memory sizeofPathRoot).1 ≠ 0 ∧
        Shielded (heapMalloc s.memory sizeofPathRoot).2 s'.memory := by
  have keeps := kernelAllocator_keeps (heapMalloc s.memory sizeofPathRoot).2
  refine (pparserCreateRoot_ensures s driveNo).bind ?_
  rintro pathRoot s₁ ⟨nonnull, memory⟩
  have inv : Shielded (heapMalloc s.memory sizeofPathRoot).2 s₁.memory := by
    rw [memory]
    exact .refl (kernel.malloc sizeofPathRoot)
  refine (parsePathPart_keeps keeps inv tmpPath).bind fun firstPart s₂ inv => ?_
  cases firstPart with
  | none => exact .pure ⟨nonnull, inv⟩
  | some firstPart => exact (parseParts_keeps keeps inv _).bind fun rest s₃ inv => .pure ⟨nonnull, inv⟩

theorem fopen_shields (kernel : KernelTable s.memory) (accepted : ¬ PathRejected filename) :
    (fopen kernelAllocator disk fat mounted table filename modeStr).Ensures s fun opened s' =>
      (heapMalloc s.memory sizeofPathRoot).1 ≠ 0 ∧
        Shielded (heapMalloc s.memory sizeofPathRoot).2 s'.memory ∧
        Opened (Loose (heapMalloc s.memory sizeofPathRoot).2) opened := by
  have keeps := kernelAllocator_keeps (heapMalloc s.memory sizeofPathRoot).2
  rw [fopen, pparserParse_accepted kernelAllocator accepted]
  refine (parseFromDrive_shields kernel _ _).bind ?_
  rintro pathRoot s₁ ⟨nonnull, inv⟩
  cases pathRoot with
  | none => exact .pure ⟨nonnull, inv, opened_of_neg (by decide) table⟩
  | some pathRoot =>
      intro opened s' run
      exact ⟨nonnull, openParsed_keeps keeps inv mounted table modeStr pathRoot opened s' run⟩

/-- Whatever becomes of an accepted path, its root is left behind. -/
theorem not_leakFree (kernel : KernelTable s.memory) (accepted : ¬ PathRejected filename)
    {opened : Int × FileTable} {s' : DriverState HeapDesc}
    (run : (fopen kernelAllocator disk fat mounted table filename modeStr).run s = .ok (opened, s')) :
    ¬ LeakFree disk fat mounted table s filename modeStr := by
  intro leakFree
  have pos : 0 < blocksFor sizeofPathRoot := by decide
  obtain ⟨failed, done⟩ := leakFree opened s' run
  obtain ⟨nonnull, inv, given⟩ := fopen_shields kernel accepted opened s' run
  rcases lt_or_ge opened.1 0 with negative | nonneg
  · exact inv.not_sameTable kernel pos nonnull (failed negative).1
  · obtain ⟨closed, s'', close, same, -⟩ := done nonneg
    have inv := fclose_keeps (kernelAllocator_keeps _) inv given closed s'' close
    exact inv.not_sameTable kernel pos nonnull same

theorem fopen_rejected (rejected : PathRejected filename) :
    (fopen kernelAllocator disk fat mounted table filename modeStr).run s = .ok ((-einvarg, table), s) := by
  rw [fopen, pparserParse_rejected kernelAllocator rejected]
  rfl

end Kernel

/-- An empty part is allocated and freed. -/
theorem parsePathPart_nil {σ : Type} {A : Allocator σ} {s : DriverState σ} {buffer : Word} {later : σ}
    (served : A.kzalloc s.memory (BitVec.ofNat 32 maxFilePathChars) = some (buffer, later)) :
    (parsePathPart A []).run s = .ok (none, { s with memory := A.kfree later buffer }) := by
  have part : (pparserGetPathPart A []).run s = .ok (none, { s with memory := A.kfree later buffer }) := by
    rw [pparserGetPathPart, Prog.run_bind_of_ok (alloc_run served)]
    rfl
  rw [parsePathPart, Prog.run_bind_of_ok part]
  rfl

end ConiferOS.Fs.Opening
