import ConiferOS.Fs.FileStream

/-! # Runs of `fseek`

`fat16_fseek` compares the offset with the size of the file before it looks at `whence`.
For `SEEK_SET` this bounds the position; for `SEEK_CUR` the offset is added to a position
that earlier calls have moved, in 32 bits, and the sum is not looked at.
-/

namespace ConiferOS.Fs

open Lib.Run

structure Seek where
  offset : Word
  whence : FileSeekMode

/-- The state of the open files, and where the successful calls would have moved the
    position if it were a number without a bound. -/
structure Seeking where
  files : FileState
  exactPos : Nat

/-- The base of `whence` plus the offset. -/
def Seek.target (seek : Seek) (exactPos : Nat) : Nat :=
  match seek.whence with
  | .seekSet => seek.offset.toNat
  | .seekCur => exactPos + seek.offset.toNat
  | .seekEnd | .other => exactPos

section Descriptor

variable (fd : Int)

def Seeking.step (s : Seeking) (seek : Seek) : Seeking :=
  let (rc, files) := Fs.fseek s.files fd seek.offset seek.whence
  ⟨files, if rc < 0 then s.exactPos else seek.target s.exactPos⟩

/-- What is promised of the position after one call. -/
structure SeekLaw (filesize : Nat) (s : Seeking) (seek : Seek) : Prop where
  inside : ((s.step fd seek).files.position fd).toNat ≤ filesize
  exactly : ((s.step fd seek).files.position fd).toNat = (s.step fd seek).exactPos
  failed : (Fs.fseek s.files fd seek.offset seek.whence).1 < 0 →
    (s.step fd seek).files.position fd = s.files.position fd

/-- A relative seek whose offset passes the check ends inside the file. -/
def SeekFits (filesize : Nat) (s : Seeking) (seek : Seek) : Prop :=
  seek.whence = .seekCur → seek.offset.toNat < filesize →
    (s.files.position fd).toNat + seek.offset.toNat ≤ filesize

end Descriptor

section Run

variable {fd : Int} {rawEntry : FatDirectoryEntry}

/-- `fseek` on an open file is the driver's, and the file stays open. -/
theorem fseek_open {files : FileState} (isOpen : files.openFile fd = some rawEntry) (offset : Word)
    (whence : FileSeekMode) :
    let seek := fat16Fseek ⟨.file rawEntry, files.position fd⟩ offset whence
    (Fs.fseek files fd offset whence).1 = seek.1 ∧
      (Fs.fseek files fd offset whence).2.openFile fd = some rawEntry ∧
      (Fs.fseek files fd offset whence).2.position fd = seek.2.pos := by
  unfold FileState.openFile at isOpen
  split at isOpen
  case h_2 => cases isOpen
  case h_1 found pos get =>
    cases isOpen
    have valid : ¬ (fd < 0 ∨ (maxOpenFiles : Int) - 1 < fd) := by
      intro outside
      rw [fileGetDescriptor, if_pos outside] at get
      cases get
    have slot : files.fileDescriptors fd.toNat = some ⟨.file rawEntry, pos⟩ := by
      rwa [fileGetDescriptor, if_neg valid] at get
    have kept : (fat16Fseek ⟨.file rawEntry, pos⟩ offset whence).2.easyDirectoryEntry = .file rawEntry := by
      simp only [fat16Fseek]
      split
      · rfl
      · cases whence <;> rfl
    simp only [Fs.fseek, FileState.openFile, FileState.position, fileGetDescriptor, if_neg valid, slot,
      Function.update_self]
    generalize fat16Fseek ⟨.file rawEntry, pos⟩ offset whence = seek at *
    obtain ⟨rc, easy, pos'⟩ := seek
    cases kept
    exact ⟨trivial, rfl, trivial⟩

/-- The position is in the file, and it is where the calls so far say. -/
structure Seeking.Inv (fd : Int) (rawEntry : FatDirectoryEntry) (s : Seeking) : Prop where
  isOpen : s.files.openFile fd = some rawEntry
  exactly : (s.files.position fd).toNat = s.exactPos
  inside : s.exactPos ≤ rawEntry.filesize.toNat

namespace Seeking.Inv

variable {s : Seeking} (inv : s.Inv fd rawEntry) (seek : Seek)
include inv

theorem step_refused (rc : Int) (negative : rc < 0)
    (refused : fat16Fseek ⟨.file rawEntry, s.files.position fd⟩ seek.offset seek.whence =
      (rc, ⟨.file rawEntry, s.files.position fd⟩)) :
    (s.step fd seek).Inv fd rawEntry ∧ SeekLaw fd rawEntry.filesize.toNat s seek := by
  obtain ⟨code, still, position⟩ := fseek_open inv.isOpen seek.offset seek.whence
  rw [refused] at code position
  have exactPos : (s.step fd seek).exactPos = s.exactPos := if_pos (code.symm ▸ negative)
  have same : (s.step fd seek).files.position fd = s.files.position fd := position
  exact ⟨⟨still, by rw [same, exactPos, inv.exactly], exactPos.symm ▸ inv.inside⟩,
    ⟨by rw [same, inv.exactly]; exact inv.inside, by rw [same, exactPos, inv.exactly], fun _ => same⟩⟩

theorem step_moved (pos : Word)
    (moved : fat16Fseek ⟨.file rawEntry, s.files.position fd⟩ seek.offset seek.whence =
      (0, ⟨.file rawEntry, pos⟩)) :
    (s.step fd seek).files.openFile fd = some rawEntry ∧ (s.step fd seek).files.position fd = pos ∧
      (s.step fd seek).exactPos = seek.target s.exactPos ∧
      ¬ (Fs.fseek s.files fd seek.offset seek.whence).1 < 0 := by
  obtain ⟨code, still, position⟩ := fseek_open inv.isOpen seek.offset seek.whence
  rw [moved] at code position
  have succeeded : ¬ (Fs.fseek s.files fd seek.offset seek.whence).1 < 0 := by
    rw [code]
    exact lt_irrefl 0
  exact ⟨still, position, if_neg succeeded, succeeded⟩

/-- One call from a position in the file. -/
theorem step : (SeekLaw fd rawEntry.filesize.toNat s seek ↔ SeekFits fd rawEntry.filesize.toNat s seek) ∧
    (SeekFits fd rawEntry.filesize.toNat s seek → (s.step fd seek).Inv fd rawEntry) := by
  have exactly := inv.exactly
  by_cases large : rawEntry.filesize.toNat ≤ seek.offset.toNat
  · obtain ⟨still, law⟩ := inv.step_refused seek (-eio) (by decide)
      (by simp only [fat16Fseek, if_pos large])
    exact ⟨iff_of_true law fun _ small => absurd small (by omega), fun _ => still⟩
  · obtain ⟨offset, whence⟩ := seek
    cases whence with
    | seekEnd =>
        obtain ⟨still, law⟩ := inv.step_refused ⟨offset, .seekEnd⟩ (-eunimp) (by decide)
          (by simp only [fat16Fseek, if_neg large])
        exact ⟨iff_of_true law nofun, fun _ => still⟩
    | other =>
        obtain ⟨still, law⟩ := inv.step_refused ⟨offset, .other⟩ (-einvarg) (by decide)
          (by simp only [fat16Fseek, if_neg large])
        exact ⟨iff_of_true law nofun, fun _ => still⟩
    | seekSet =>
        obtain ⟨still, position, exactPos, succeeded⟩ := inv.step_moved ⟨offset, .seekSet⟩ offset
          (by simp only [fat16Fseek, if_neg large])
        have inside : offset.toNat ≤ rawEntry.filesize.toNat := by simp only at large; omega
        simp only [Seek.target] at exactPos
        have law : SeekLaw fd rawEntry.filesize.toNat s ⟨offset, .seekSet⟩ :=
          ⟨by rwa [position], by rw [position, exactPos], fun failed => absurd failed succeeded⟩
        exact ⟨iff_of_true law nofun, fun _ => ⟨still, by rw [position, exactPos], exactPos ▸ inside⟩⟩
    | seekCur =>
        obtain ⟨still, position, exactPos, succeeded⟩ := inv.step_moved ⟨offset, .seekCur⟩
          (s.files.position fd + offset) (by simp only [fat16Fseek, if_neg large])
        simp only at large
        simp only [Seek.target] at exactPos
        have sum : (s.files.position fd + offset).toNat =
            (s.files.position fd).toNat + offset.toNat ↔
            (s.files.position fd).toNat + offset.toNat < 2 ^ 32 := by
          rw [BitVec.toNat_add]
          omega
        have bound := rawEntry.filesize.isLt
        refine ⟨⟨fun law _ _ => ?_, fun fits => ?_⟩, fun fits => ?_⟩
        · have exact' := law.exactly
          have inside := law.inside
          rw [position] at exact' inside
          simp only at *
          omega
        · have fits := fits rfl (by simp only; omega)
          simp only at fits
          have total := sum.mpr (by omega)
          exact ⟨by rw [position, total]; exact fits, by rw [position, total, exactPos, exactly],
            fun failed => absurd failed succeeded⟩
        · have fits := fits rfl (by simp only; omega)
          simp only at fits
          have total := sum.mpr (by omega)
          exact ⟨still, by rw [position, total, exactPos, exactly], by omega⟩

end Seeking.Inv

/-- Along every run of `fseek` calls on a file that was just opened, the position stays in
    the file and is exact exactly when no relative seek of the run goes past the end. -/
theorem seek_inside_iff {files : FileState} (isOpen : files.openFile fd = some rawEntry)
    (opened : files.position fd = 0) (seeks : List Seek) :
    Always (Seeking.step fd) (SeekLaw fd rawEntry.filesize.toNat) ⟨files, 0⟩ seeks ↔
      Always (Seeking.step fd) (SeekFits fd rawEntry.filesize.toNat) ⟨files, 0⟩ seeks := by
  have start : Seeking.Inv fd rawEntry ⟨files, 0⟩ := ⟨isOpen, by rw [opened]; rfl, Nat.zero_le _⟩
  have legal : Always (Seeking.step fd) (fun _ _ => True) ⟨files, 0⟩ seeks :=
    Always.of_forall (fun _ _ => trivial) _ _
  exact Always.iff_of_invariant (Seeking.Inv fd rawEntry) (fun s seek inv _ => (inv.step seek).1)
    (fun s seek inv _ => (inv.step seek).2) start legal

end Run

/-- Nine bytes from the start, and nine more from there, in a file of ten bytes. -/
theorem seek_outside_ten_bytes :
    ¬ Always (Seeking.step 0) (SeekLaw 0 10) ⟨tenBytesOpen, 0⟩ [⟨9, .seekCur⟩, ⟨9, .seekCur⟩] := by
  rintro ⟨-, second, -⟩
  exact absurd second.inside (by decide)

theorem seek_inside_iff_ten_bytes :
    tenBytesOpen.openFile 0 = some ⟨0, 0, 2, 10⟩ ∧ tenBytesOpen.position 0 = 0 ∧
      Always (Seeking.step 0) (SeekLaw 0 10) ⟨tenBytesOpen, 0⟩ [⟨5, .seekSet⟩, ⟨5, .seekCur⟩] := by
  have isOpen : tenBytesOpen.openFile 0 = some ⟨0, 0, 2, 10⟩ := rfl
  refine ⟨isOpen, rfl, (seek_inside_iff isOpen rfl _).mpr ?_⟩
  exact ⟨nofun, fun _ _ => by decide, trivial⟩

end ConiferOS.Fs
