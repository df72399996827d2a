import ConiferOS.Fs.Directory

/-! # Parsing a path

`pparser.c`. A path is the list of its characters, without the zero at its end. The parsed
path is a list of structures, each in a block of its own, and so are the names in them.
Writing through a `NULL` that `kzalloc` has returned is a fault.
-/

namespace ConiferOS.Fs

open Lib

def sizeofPathRoot : Word := 8
def sizeofPathPart : Word := 8

/-- `struct path_part` and the buffer with the name. -/
structure ParsedPart where
  ptr : Word
  partPtr : Word
  part : List Byte

/-- `struct path_root`, with the parts that are linked to it. -/
structure ParsedPath where
  ptr : Word
  driveNo : Int
  first : List ParsedPart

/-- `char` is signed. -/
def isDigit (c : Byte) : Bool := 47 < c.toInt ∧ c.toInt < 58

def ctoi (c : Byte) : Int := if isDigit c then c.toInt - 48 else -1

def strnlen (s : List Byte) (maxlen : Nat) : Nat := min s.length maxlen

/-- `d:/` for a digit `d`. -/
def pathValidForm (filename : List Byte) : Bool :=
  2 < strnlen filename maxFilePathChars ∧ isDigit (filename.getD 0 0) ∧
    (filename.drop 1).take 2 = [0x3A, 0x2F]

/-- The drive, and the path behind it. -/
def getDriveByPath (path : List Byte) : Int × List Byte :=
  if pathValidForm path then (ctoi (path.getD 0 0), path.drop 3) else (-ebadpath, path)

/-- The characters up to the next slash. -/
def nextPart (path : List Byte) : List Byte := path.takeWhile (· ≠ 0x2F)

/-- Where `*path` is behind them; a slash is skipped. -/
def afterPart (path : List Byte) : List Byte :=
  match path.dropWhile (· ≠ 0x2F) with
  | [] => []
  | _ :: rest => rest

section Parser

variable {σ : Type} (A : Allocator σ)

def pparserCreateRoot (driveNo : Int) : Driver σ ParsedPath := do
  let pathR ← A.alloc sizeofPathRoot
  if pathR = 0 then
    throw .nullPointer
  else
    pure ⟨pathR, driveNo, []⟩

/-- The buffer with the next part, `none` for `NULL`. -/
def pparserGetPathPart (path : List Byte) : Driver σ (Option Word) := do
  let resultPathPart ← A.alloc (BitVec.ofNat 32 maxFilePathChars)
  if nextPart path = [] then
    A.free resultPathPart
    pure none
  else if resultPathPart = 0 then
    throw .nullPointer
  else if maxFilePathChars < (nextPart path).length then
    throw .outside
  else
    pure (some resultPathPart)

def parsePathPart (path : List Byte) : Driver σ (Option ParsedPart) := do
  match ← pparserGetPathPart A path with
  | none => pure none
  | some pathPartStr =>
      let part ← A.alloc sizeofPathPart
      if part = 0 then
        throw .nullPointer
      else
        pure (some ⟨part, pathPartStr, nextPart path⟩)

/-- The `while` loop of `pparser_parse`. It would be endless if the path did not get shorter. -/
def parseParts (path : List Byte) : Driver σ (List ParsedPart) := do
  match ← parsePathPart A path with
  | none => pure []
  | some part =>
      if _shorter : (afterPart path).length < path.length then
        let rest ← parseParts (afterPart path)
        pure (part :: rest)
      else
        throw .endless
termination_by path.length

/-- The rest of `pparser_parse`, from the first allocation on. Without a first part the root
    stays allocated. -/
def parseFromDrive (driveNo : Int) (tmpPath : List Byte) : Driver σ (Option ParsedPath) := do
  let pathRoot ← pparserCreateRoot A driveNo
  match ← parsePathPart A tmpPath with
  | none => pure none
  | some firstPart =>
      let rest ← parseParts A (afterPart tmpPath)
      pure (some { pathRoot with first := firstPart :: rest })

def pparserParse (path : List Byte) : Driver σ (Option ParsedPath) :=
  if maxFilePathChars < path.length then pure none
  else if (getDriveByPath path).1 < 0 then pure none
  else parseFromDrive A (getDriveByPath path).1 (getDriveByPath path).2

end Parser

/-- Paths that are turned down before anything is allocated. -/
def PathRejected (path : List Byte) : Prop := maxFilePathChars < path.length ∨ pathValidForm path = false

section Accepted

variable {σ : Type} {path : List Byte}

theorem pparserParse_rejected (A : Allocator σ) (rejected : PathRejected path) :
    pparserParse A path = pure none := by
  rw [pparserParse]
  split
  case isTrue => rfl
  case isFalse short =>
    have invalid := rejected.resolve_left short
    have drive : (getDriveByPath path).1 = -ebadpath := by simp [getDriveByPath, invalid]
    rw [drive]
    exact if_pos (by decide)

theorem ctoi_nonneg {c : Byte} (digit : isDigit c = true) : 0 ≤ ctoi c := by
  have range : 47 < c.toInt ∧ c.toInt < 58 := by simpa [isDigit] using digit
  rw [ctoi, if_pos digit]
  omega

theorem pparserParse_accepted (A : Allocator σ) (accepted : ¬ PathRejected path) :
    pparserParse A path = parseFromDrive A (ctoi (path.getD 0 0)) (path.drop 3) := by
  obtain ⟨short, valid⟩ := not_or.mp accepted
  have valid : pathValidForm path = true := by simpa using valid
  have digit : isDigit (path.getD 0 0) = true := by
    have form := valid
    simp only [pathValidForm, decide_eq_true_eq] at form
    exact form.2.1
  have drive : getDriveByPath path = (ctoi (path.getD 0 0), path.drop 3) := if_pos valid
  rw [pparserParse, if_neg short, drive, if_neg (not_lt.mpr (ctoi_nonneg digit))]

end Accepted

end ConiferOS.Fs
