import ConiferOS.Fs.File

/-! # The descriptor table

`file.c` with its pointers: a slot of `file_descriptors` points to a block with a
`struct file_descriptor`, and that to a block with the driver's data. Blocks come from the
kernel heap and go back to it, so slots and blocks are used again and again. Freed blocks
keep what they held.
-/

namespace ConiferOS.Fs

open Lib

/-- `struct file_descriptor`. The driver and the disk are the only ones there are. -/
structure FileDescriptor where
  index : Int
  privateData : Word

structure Files where
  fileDescriptors : Nat → Word
  /-- Blocks read as `struct file_descriptor`. -/
  descs : Word → FileDescriptor
  /-- Blocks read as `struct fat_file_descriptor`. -/
  privates : Word → FatFileDescriptor
  streams : FatStreams

inductive FileMode where
  | read
  | write
  | append
  | invalid

/-- Only the first byte is compared. -/
def fileGetModeByString (str : List Byte) : FileMode :=
  if str.headD 0 = 0x72 then .read
  else if str.headD 0 = 0x77 then .write
  else if str.headD 0 = 0x61 then .append
  else .invalid

structure PathRoot where
  driveNo : Int
  /-- There is a first part. -/
  first : Bool

/-- What `fopen` gets from the rest of the kernel. -/
structure OpenEnv where
  pathRoot : Option PathRoot
  /-- `disk->filesystem` is set. -/
  mounted : Bool
  /-- What `fat16_get_directory_entry` finds. -/
  entry : Option FatEasyDirectoryEntry
  /-- Where it leaves the streams. -/
  streams : FatStreams
  /-- The blocks for the two structures. -/
  fatFileDescriptor : Word
  fileDescriptor : Word

def isError (value : Word) : Prop := value.toInt < 0

instance (value : Word) : Decidable (isError value) := inferInstanceAs (Decidable (_ < _))

/-- The pointer or the error, and the state. -/
def fat16Fopen (s : Files) (env : OpenEnv) (mode : FileMode) : Word × Files :=
  match mode with
  | .read =>
      if env.fatFileDescriptor = 0 then (BitVec.ofInt 32 (-enomem), s)
      else
        let s := { s with streams := env.streams }
        match env.entry with
        | none => (BitVec.ofInt 32 (-eio), s)
        | some entry =>
            (env.fatFileDescriptor,
              { s with privates := Function.update s.privates env.fatFileDescriptor ⟨entry, 0⟩ })
  | _ => (BitVec.ofInt 32 (-erdonly), s)

/-- The first free slot. -/
def freeSlot (s : Files) : Option Nat :=
  (List.range maxOpenFiles).find? fun i => s.fileDescriptors i = 0

/-- What `file_new_descriptor` does with the slot it finds. -/
def fillSlot (s : Files) (block : Word) : Option Nat → Int × Word × Files
  | none => (-enomem, 0, s)
  | some i =>
      (0, block,
        { s with
          fileDescriptors := Function.update s.fileDescriptors i block
          descs := Function.update s.descs block ⟨i, 0⟩ })

/-- The return code, the structure and the state. -/
def fileNewDescriptor (s : Files) (block : Word) : Int × Word × Files :=
  fillSlot s block (freeSlot s)

/-- The part of `fopen` behind the test of the mode. -/
def fopenWithMode (s : Files) (env : OpenEnv) (mode : FileMode) : Int × Files :=
  let (filePrivData, s) := fat16Fopen s env mode
  if isError filePrivData then (filePrivData.toInt, s)
  else
    let (rc, file, s) := fileNewDescriptor s env.fileDescriptor
    if rc < 0 then (rc, s)
    else
      let s :=
        { s with
          descs := Function.update s.descs file { s.descs file with privateData := filePrivData } }
      ((s.descs file).index, s)

/-- Only drive 0 exists. -/
def fopen (s : Files) (modeStr : List Byte) (env : OpenEnv) : Int × Files :=
  match env.pathRoot with
  | none => (-einvarg, s)
  | some pathRoot =>
      if !pathRoot.first then (-einvarg, s)
      else if pathRoot.driveNo ≠ 0 then (-eio, s)
      else if !env.mounted then (-eio, s)
      else match fileGetModeByString modeStr with
        | .invalid => (-einvarg, s)
        | mode => fopenWithMode s env mode

namespace Files

/-- The pointer in the slot, 0 for none. -/
def fileGetDescriptor (s : Files) (fd : Int) : Word :=
  if fd < 0 ∨ (maxOpenFiles : Int) - 1 < fd then 0 else s.fileDescriptors fd.toNat

def fread (disk : Disk) (fat : FatVolume) (s : Files) (out : Nat → Byte) (size nmemb : Word)
    (fd : Int) : Option (Word × Files × (Nat → Byte)) :=
  if size = 0 ∨ nmemb = 0 ∨ fd < 0 then some (BitVec.ofInt 32 (-einvarg), s, out)
  else
    let desc := s.fileGetDescriptor fd
    if desc = 0 then some (BitVec.ofInt 32 (-einvarg), s, out)
    else
      (fat16Fread disk fat s.streams (s.privates (s.descs desc).privateData) size nmemb out).map
        fun (rc, streams, out) => (rc, { s with streams := streams }, out)

def fseek (s : Files) (fd : Int) (offset : Word) (whence : FileSeekMode) : Int × Files :=
  let desc := s.fileGetDescriptor fd
  if desc = 0 then (-einvarg, s)
  else
    let seek := fat16Fseek (s.privates (s.descs desc).privateData) offset whence
    (seek.1, { s with privates := Function.update s.privates (s.descs desc).privateData seek.2 })

def fstat (s : Files) (fd : Int) (stat : FileStat) : Int × FileStat :=
  let desc := s.fileGetDescriptor fd
  if desc = 0 then (-einvarg, stat)
  else fat16Fstat (s.privates (s.descs desc).privateData) stat

/-- The slot is found through the index that the structure holds. -/
def freeFileDescriptor (s : Files) (desc : Word) : Files :=
  { s with fileDescriptors := Function.update s.fileDescriptors (s.descs desc).index.toNat 0 }

/-- `fs_fclose` only frees. -/
def fclose (s : Files) (fd : Int) : Int × Files :=
  let desc := s.fileGetDescriptor fd
  if desc = 0 then (-einvarg, s) else (0, s.freeFileDescriptor desc)

end Files

end ConiferOS.Fs
