import ConiferOS.Kernel.IsolatedRuns
import ConiferOS.Lib.Run

/-! # The file descriptor of the ELF loader

`elf_file_init` opens the executable. The exits through `fstat` and through `fread` leave
without `fclose`, so a directory, an empty file and a file that cannot be read each cost a
slot of the table of open files.
-/

namespace ConiferOS.Kernel

open Heap Lib.Run

variable {r later : Resources} {file : LoadFile}

/-! ## What a call can do to the table -/

@[simp] theorem Resources.free_openFiles (r : Resources) (ptr : Word) :
    (r.free ptr).openFiles = r.openFiles := rfl

@[simp] theorem Resources.fileOp_openFiles (r : Resources) (op : FileOp) :
    (r.fileOp op).openFiles = r.openFiles := by
  cases op with
  | alloc size => rfl
  | release k =>
      rw [Resources.fileOp]
      split <;> rfl

@[simp] theorem Resources.fileOps_openFiles (r : Resources) (ops : List FileOp) :
    (r.fileOps ops).openFiles = r.openFiles := by
  induction ops generalizing r with
  | nil => rfl
  | cons op ops ih => exact (ih (r.fileOp op)).trans (r.fileOp_openFiles op)

@[simp] theorem Resources.fclose_openFiles (r : Resources) (access : FileAccess) (fd : Nat) :
    (r.fclose access fd).openFiles = Function.update r.openFiles fd false := rfl

theorem Resources.alloc_openFiles {α : Type} {f : HeapDesc → Option (α × HeapDesc)} {a : α}
    (run : r.alloc f = some (a, later)) : later.openFiles = r.openFiles := by
  obtain ⟨heap, -, rfl⟩ := Resources.alloc_eq_some run
  rfl

/-- The file system finds the file and the table has a free slot. -/
def Resources.Opens (r : Resources) (access : FileAccess) : Prop :=
  access.opens = true ∧ ∃ i < maxOpenFiles, r.openFiles i = false

theorem Resources.fopen_none {access : FileAccess} (run : r.fopen access = (none, later)) :
    ¬ r.Opens access ∧ later.openFiles = r.openFiles := by
  rw [Resources.fopen] at run
  split at run
  case isTrue closed =>
    cases run
    exact ⟨fun opens => absurd opens.1 (by simp [closed]), r.fileOps_openFiles _⟩
  case isFalse =>
    split at run
    case h_1 full =>
      cases run
      refine ⟨?_, r.fileOps_openFiles _⟩
      rintro ⟨-, i, bound, unused⟩
      rw [List.find?_eq_none] at full
      exact full i (List.mem_range.mpr bound) (by simpa using unused)
    case h_2 => cases run

theorem Resources.fopen_some {access : FileAccess} {fd : Nat}
    (run : r.fopen access = (some fd, later)) :
    r.Opens access ∧ r.openFiles fd = false ∧
      later.openFiles = Function.update r.openFiles fd true := by
  rw [Resources.fopen] at run
  split at run
  case isTrue => cases run
  case isFalse opens =>
    split at run
    case h_1 => cases run
    case h_2 i found =>
      cases run
      have unused : r.openFiles fd = false := by simpa using List.find?_some found
      have bound := List.mem_range.mp (List.mem_of_find?_eq_some found)
      exact ⟨⟨by simpa using opens, fd, bound, unused⟩, unused, by simp⟩

/-! ## One call -/

/-- There is room for the `struct elf_file`, and `fopen` succeeds. -/
def Resources.OpensElf (r : Resources) (file : LoadFile) : Prop :=
  (heapMalloc r.heap sizeofElfFile).1 ≠ 0 ∧ r.Opens file.asElf

/-- `fstat` and the `fread` of the whole file succeed. -/
def LoadFile.Whole (file : LoadFile) : Prop :=
  file.directory = false ∧ file.size ≠ 0 ∧ file.asElf.reads = true

/-- The call leaves the table of open files as it was. -/
def ReturnsDescriptor (r : Resources) (file : LoadFile) : Prop :=
  ∀ later result, elfFileInit r file = some (later, result) → later.openFiles = r.openFiles

theorem openFiles_taken_ne {used : Nat → Bool} {fd : Nat} (unused : used fd = false) :
    Function.update used fd true ≠ used := by
  intro same
  have here := congrFun same fd
  rw [Function.update_self, unused] at here
  cases here

theorem openFiles_closed_eq {used : Nat → Bool} {fd : Nat} (unused : used fd = false) :
    Function.update (Function.update used fd true) fd false = used := by
  rw [Function.update_idem, ← unused, Function.update_eq_self]

/-- The slot that a successful `fopen` takes is given back by a file that is read whole. -/
theorem elfFileInit_openFiles {result : ElfResult} (run : elfFileInit r file = some (later, result)) :
    later.openFiles = r.openFiles ↔ (r.OpensElf file → file.Whole) := by
  obtain ⟨⟨elfFile, next⟩, struct, rest⟩ := Option.bind_eq_some_iff.mp run
  have still := Resources.alloc_openFiles struct
  obtain ⟨address, -⟩ := Resources.alloc_kzalloc struct
  simp only at rest
  split at rest
  case isTrue null =>
    cases rest
    exact iff_of_true still fun opens => absurd (address.trans null) opens.1
  case isFalse nonnull =>
    split at rest
    case h_1 r' opened =>
      cases rest
      obtain ⟨closed, same⟩ := Resources.fopen_none opened
      refine iff_of_true (same.trans still) fun opens => absurd ?_ closed
      simpa only [Resources.Opens, still] using opens.2
    case h_2 fd r' opened =>
      obtain ⟨opens, unused, taken⟩ := Resources.fopen_some opened
      rw [still] at unused taken
      have isOpen : r.OpensElf file :=
        ⟨address ▸ nonnull, by simpa only [Resources.Opens, still] using opens⟩
      -- Every exit before `fclose` keeps the slot.
      have leaks : ∀ {s : Resources}, s.openFiles = r'.openFiles → ¬ file.Whole →
          (s.openFiles = r.openFiles ↔ (r.OpensElf file → file.Whole)) := by
        intro s same short
        refine iff_of_false ?_ fun whole => short (whole isOpen)
        rw [same, taken]
        exact openFiles_taken_ne unused
      split at rest
      case isTrue directory =>
        cases rest
        exact leaks rfl fun whole => absurd whole.1 (by simp [directory])
      case isFalse regular =>
        split at rest
        case isTrue empty =>
          obtain ⟨⟨buffer, r''⟩, buffered, rest⟩ := Option.bind_eq_some_iff.mp rest
          have same : r''.openFiles = r'.openFiles := Resources.alloc_openFiles buffered
          cases rest
          exact leaks same fun whole => whole.2.1 empty
        case isFalse nonempty =>
          obtain ⟨⟨buffer, r''⟩, buffered, rest⟩ := Option.bind_eq_some_iff.mp rest
          have same := Resources.alloc_openFiles buffered
          simp only at rest
          split at rest
          case isTrue unread =>
            cases rest
            refine leaks ?_ fun whole => absurd whole.2.2 (by simp [unread])
            simpa using same
          case isFalse read =>
            have whole : file.Whole := ⟨by simpa using regular, nonempty, by simpa using read⟩
            have closed : Function.update r''.openFiles fd false = r.openFiles := by
              rw [same, taken]
              exact openFiles_closed_eq unused
            split at rest
            all_goals
              cases rest
              exact iff_of_true (by simpa using closed) fun _ => whole

/-! ## Any number of calls -/

/-- A call that damages memory does not return; the state stays. -/
def Resources.loadElf (r : Resources) (file : LoadFile) : Resources :=
  ((elfFileInit r file).map Prod.fst).getD r

/-- A load of a path that names a directory. -/
def directoryFile : LoadFile :=
  { directory := true, size := 0, phdrs := none, atNull := []
    asElf := ⟨true, false, [], [], []⟩, asBinary := ⟨false, false, [], [], []⟩ }

theorem elfFileInit_directory (stacked : Stacked r.heap 0) (unused : r.openFiles 0 = false) :
    ∃ later, elfFileInit r directoryFile = some (later, .failed) ∧
      later.openFiles = Function.update r.openFiles 0 true := by
  obtain ⟨heap, served, -⟩ := stacked.kzalloc (n := 1) sizeofElfFile (by decide) (by decide) (by decide)
  have found : (List.range maxOpenFiles).find? (fun i => r.openFiles i = false) = some 0 :=
    List.find?_range_eq_some.mpr ⟨decide_eq_true unused, List.mem_range.mpr (by decide), by simp⟩
  have opened : Resources.fopen { r with heap := heap } directoryFile.asElf =
      (some 0, { r with heap := heap, openFiles := Function.update r.openFiles 0 true }) := by
    have opens : directoryFile.asElf.opens ≠ false := by decide
    have unchanged : Resources.fileOps { r with heap := heap } directoryFile.asElf.opening =
      { r with heap := heap } := rfl
    simp only [Resources.fopen, unchanged, if_neg opens, found]
  simp only [elfFileInit, Resources.alloc, served, Option.bind_eq_bind, Option.bind_some,
    if_neg (blockAt_ne_zero (by decide : 0 < 25600)), opened]
  exact ⟨_, rfl, rfl⟩

end ConiferOS.Kernel
