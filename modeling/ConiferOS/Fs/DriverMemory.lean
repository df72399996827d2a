import ConiferOS.Fs.Directory

/-! # What the driver frees

An invariant of memory that allocations keep, and that is kept when addresses are freed that
allocations gave, is kept by every function of the driver: it frees nothing else.
-/

namespace ConiferOS.Fs

open Lib

/-- `I` is kept, and what is allocated is `NULL` or one of `G`. -/
structure Keeps {σ : Type} (A : Allocator σ) (I : σ → Prop) (G : Word → Prop) : Prop where
  kzalloc : ∀ {memory size ptr later}, I memory → A.kzalloc memory size = some (ptr, later) →
    I later ∧ (ptr ≠ 0 → G ptr)
  kfree : ∀ {memory ptr}, I memory → (ptr ≠ 0 → G ptr) → I (A.kfree memory ptr)

/-- The pointers of a value are `NULL` or of `G`. -/
def Given (G : Word → Prop) (ptr : Word) : Prop := ptr ≠ 0 → G ptr

structure GivenDirectory (G : Word → Prop) (directory : LoadedDirectory) : Prop where
  ptr : Given G directory.ptr
  entryPtr : Given G directory.entryPtr

inductive GivenEntry (G : Word → Prop) : EasyEntry → Prop where
  | directory {ptr directory} (given : Given G ptr) (inner : ∀ d ∈ directory, GivenDirectory G d) :
      GivenEntry G ⟨ptr, .directory directory⟩
  | file {ptr entry} (given : Given G ptr) (inner : ∀ copy ∈ entry, Given G copy.1) :
      GivenEntry G ⟨ptr, .file entry⟩

section Keeping

variable {σ : Type} {A : Allocator σ} {I : σ → Prop} {G : Word → Prop} (keeps : Keeps A I G)
  {disk : Disk} {fat : FatVolume} {s : DriverState σ}
include keeps

theorem alloc_keeps (inv : I s.memory) (size : Word) :
    (A.alloc size).Ensures s fun ptr s => I s.memory ∧ Given G ptr := by
  intro ptr s' run
  simp only [StateT.run, Allocator.alloc] at run
  split at run
  · cases run
  · rename_i served
    cases run
    exact keeps.kzalloc inv served

theorem free_keeps (inv : I s.memory) {ptr : Word} (given : Given G ptr) :
    (A.free ptr).Ensures s fun _ s => I s.memory := by
  intro u s' run
  cases run
  exact keeps.kfree inv given

theorem fat16FreeDirectory_keeps (inv : I s.memory) {directory : Option LoadedDirectory}
    (given : ∀ d ∈ directory, GivenDirectory G d) :
    (fat16FreeDirectory A directory).Ensures s fun _ s => I s.memory := by
  cases directory with
  | none => exact .pure inv
  | some directory =>
      have given := given directory rfl
      rw [fat16FreeDirectory]
      split
      case isTrue =>
        exact (free_keeps keeps inv given.entryPtr).bind fun _ s inv => free_keeps keeps inv given.ptr
      case isFalse => exact free_keeps keeps inv given.ptr

theorem fat16EasyDirEntryFree_keeps (inv : I s.memory) {entry : EasyEntry} (given : GivenEntry G entry) :
    (fat16EasyDirEntryFree A entry).Ensures s fun _ s => I s.memory := by
  cases given with
  | directory given inner =>
      exact (fat16FreeDirectory_keeps keeps inv inner).bind fun _ s inv => free_keeps keeps inv given
  | @file ptr entry given inner =>
      cases entry with
      | none =>
          have null : Given G 0 := fun nonnull => absurd rfl nonnull
          exact (free_keeps keeps inv null).bind fun _ s inv => free_keeps keeps inv given
      | some copy =>
          exact (free_keeps keeps inv (inner copy rfl)).bind fun _ s inv => free_keeps keeps inv given

omit keeps in
theorem countEntries_keeps (inv : I s.memory) (sector : Int) :
    (countEntries disk sector).Ensures s fun _ s => I s.memory := by
  intro total s' run
  simp only [StateT.run, countEntries] at run
  split at run
  · cases run
  · cases run
    exact inv

omit keeps in
theorem readCluster_keeps (inv : I s.memory) (start offset n : Int) :
    (readCluster disk fat start offset n).Ensures s fun _ s => I s.memory := by
  intro read s' run
  simp only [StateT.run, readCluster] at run
  split at run
  · cases run
  · cases run
    exact inv

theorem readEntries_keeps (inv : I s.memory) {directory entry : Word} (given : Given G directory)
    (given' : Given G entry) (cluster total size : Int) :
    (readEntries disk fat A directory entry cluster total size).Ensures s fun loaded s =>
      I s.memory ∧ ∀ d ∈ loaded, GivenDirectory G d := by
  refine (readCluster_keeps inv cluster 0 size).bind fun read s inv => ?_
  have filled : ∀ contents, GivenDirectory G ⟨directory, entry, contents⟩ := fun _ => ⟨given, given'⟩
  split
  case isTrue =>
    refine (fat16FreeDirectory_keeps keeps inv ?_).bind fun _ s inv => .pure ⟨inv, by simp⟩
    rintro d ⟨⟩
    exact filled _
  case isFalse =>
    refine .pure ⟨inv, ?_⟩
    rintro d ⟨⟩
    exact filled _

theorem fat16LoadFatDirectory_keeps (inv : I s.memory) (rawEntry : List Byte) :
    (fat16LoadFatDirectory disk fat A rawEntry).Ensures s fun loaded s =>
      I s.memory ∧ ∀ d ∈ loaded, GivenDirectory G d := by
  have nothing : ∀ d ∈ (none : Option LoadedDirectory), GivenDirectory G d := by simp
  rw [fat16LoadFatDirectory]
  split
  case isTrue => exact .pure ⟨inv, nothing⟩
  case isFalse =>
    refine (alloc_keeps keeps inv _).bind ?_
    rintro directory s ⟨inv, given⟩
    split
    case isTrue => exact .pure ⟨inv, nothing⟩
    case isFalse =>
      refine (countEntries_keeps inv _).bind fun total s inv => ?_
      refine (alloc_keeps keeps inv _).bind ?_
      rintro entry s ⟨inv, given'⟩
      split
      case isTrue => exact (free_keeps keeps inv given).bind fun _ s inv => .pure ⟨inv, nothing⟩
      case isFalse => exact readEntries_keeps keeps inv given given' _ _ _

theorem fat16CloneRawDirEntry_keeps (inv : I s.memory) (rawEntry : List Byte) :
    (fat16CloneRawDirEntry A rawEntry).Ensures s fun entry s =>
      I s.memory ∧ ∀ copy ∈ entry, Given G copy.1 := by
  refine (alloc_keeps keeps inv _).bind ?_
  rintro entryCopy s ⟨inv, given⟩
  split
  case isTrue => exact .pure ⟨inv, by simp⟩
  case isFalse =>
    refine .pure ⟨inv, ?_⟩
    rintro copy ⟨⟩
    exact given

theorem fat16GetEasyEntry_keeps (inv : I s.memory) (rawEntry : List Byte) :
    (fat16GetEasyEntry disk fat A rawEntry).Ensures s fun entry s =>
      I s.memory ∧ ∀ e ∈ entry, GivenEntry G e := by
  refine (alloc_keeps keeps inv _).bind ?_
  rintro easyEntry s ⟨inv, given⟩
  split
  case isTrue => exact .pure ⟨inv, by simp⟩
  case isFalse =>
    split
    case isTrue =>
      refine (fat16LoadFatDirectory_keeps keeps inv rawEntry).bind ?_
      rintro directory s ⟨inv, inner⟩
      refine .pure ⟨inv, ?_⟩
      rintro e ⟨⟩
      exact .directory given inner
    case isFalse =>
      refine (fat16CloneRawDirEntry_keeps keeps inv rawEntry).bind ?_
      rintro entry s ⟨inv, inner⟩
      refine .pure ⟨inv, ?_⟩
      rintro e ⟨⟩
      exact .file given inner

theorem findEntry_keeps (inv : I s.memory) (directory : FatDirectory) (name : List Byte) (remaining i : Nat)
    {entry : Option EasyEntry} (given : ∀ e ∈ entry, GivenEntry G e) :
    (findEntry disk fat A directory name remaining i entry).Ensures s fun entry s =>
      I s.memory ∧ ∀ e ∈ entry, GivenEntry G e := by
  induction remaining generalizing i entry s with
  | zero => exact .pure ⟨inv, given⟩
  | succ remaining ih =>
      rw [findEntry]
      split
      · exact .throw _
      · split
        case isTrue =>
          refine (fat16GetEasyEntry_keeps keeps inv _).bind ?_
          rintro entry s ⟨inv, given⟩
          exact ih inv (i + 1) given
        case isFalse => exact ih inv (i + 1) given

theorem walkPath_keeps (inv : I s.memory) (next : List (List Byte)) {entry : Option EasyEntry}
    (given : ∀ e ∈ entry, GivenEntry G e) :
    (walkPath disk fat A entry next).Ensures s fun entry s => I s.memory ∧ ∀ e ∈ entry, GivenEntry G e := by
  induction next generalizing entry s with
  | nil =>
      rw [walkPath]
      exact .pure ⟨inv, given⟩
  | cons part next ih =>
      cases entry with
      | none => exact .throw _
      | some curr =>
          rw [walkPath]
          split
          · exact .pure ⟨inv, by simp⟩
          · exact .throw _
          · refine (findEntry_keeps keeps inv _ part _ 0 (by simp)).bind ?_
            rintro tmpEntry s ⟨inv, found⟩
            exact (fat16EasyDirEntryFree_keeps keeps inv (given curr rfl)).bind fun _ s inv => ih inv found

theorem fat16GetDirectoryEntry_keeps (inv : I s.memory) (part : List Byte) (next : List (List Byte)) :
    (fat16GetDirectoryEntry disk fat A part next).Ensures s fun entry s =>
      I s.memory ∧ ∀ e ∈ entry, GivenEntry G e := by
  refine (findEntry_keeps keeps inv _ part _ 0 (by simp)).bind ?_
  rintro first s ⟨inv, found⟩
  cases first with
  | none => exact .pure ⟨inv, found⟩
  | some first => exact walkPath_keeps keeps inv next found

end Keeping

end ConiferOS.Fs
