import ConiferOS.Fs.Descriptors
import ConiferOS.Fs.Regions

/-! # What the descriptor table guarantees

Runs of the five calls of `file.h`. Every slot in use points to a structure that knows its
slot, and no two of them share the driver's data, so that a call reaches what its own
`fopen` made and nothing else. An allocation that succeeds gives a block that nothing in
the table uses.
-/

namespace ConiferOS.Fs

open Lib

inductive FileCall where
  | fopen (modeStr : List Byte) (env : OpenEnv)
  | fread (out : Nat → Byte) (size nmemb : Word) (fd : Int)
  | fseek (fd : Int) (offset : Word) (whence : FileSeekMode)
  | fstat (fd : Int) (stat : FileStat)
  | fclose (fd : Int)

/-- What a call returns and writes for its caller. -/
inductive Answer where
  | code (rc : Int)
  | read (rc : Word) (out : Nat → Byte)
  | stat (rc : Int) (stat : FileStat)
  /-- The kernel divided by zero. -/
  | fault

def FileCall.fd : FileCall → Option Int
  | .fopen _ _ => none
  | .fread _ _ _ fd => some fd
  | .fseek fd _ _ => some fd
  | .fstat fd _ => some fd
  | .fclose fd => some fd

/-- `-EINVARG`, and nothing is written. -/
def FileCall.rejection : FileCall → Answer
  | .fread out _ _ _ => .read (BitVec.ofInt 32 (-einvarg)) out
  | .fstat _ stat => .stat (-einvarg) stat
  | _ => .code (-einvarg)

def Files.call (disk : Disk) (fat : FatVolume) (s : Files) : FileCall → Answer × Files
  | .fopen modeStr env => (.code (Fs.fopen s modeStr env).1, (Fs.fopen s modeStr env).2)
  | .fread out size nmemb fd =>
      match s.fread disk fat out size nmemb fd with
      | none => (.fault, s)
      | some (rc, s, out) => (.read rc out, s)
  | .fseek fd offset whence => (.code (s.fseek fd offset whence).1, (s.fseek fd offset whence).2)
  | .fstat fd stat => (.stat (s.fstat fd stat).1 (s.fstat fd stat).2, s)
  | .fclose fd => (.code (s.fclose fd).1, (s.fclose fd).2)

/-! ## Slots -/

/-- The driver's data behind a slot: where it is, and what it is. -/
def Files.slot (s : Files) (i : Nat) : Option (Word × FatFileDescriptor) :=
  if s.fileDescriptors i = 0 then none
  else some ((s.descs (s.fileDescriptors i)).privateData,
    s.privates (s.descs (s.fileDescriptors i)).privateData)

structure Files.WellFormed (s : Files) : Prop where
  index : ∀ i < maxOpenFiles, s.fileDescriptors i ≠ 0 →
    (s.descs (s.fileDescriptors i)).index = i
  separate : ∀ i < maxOpenFiles, ∀ j < maxOpenFiles, s.fileDescriptors i ≠ 0 →
    s.fileDescriptors j ≠ 0 →
    (s.descs (s.fileDescriptors i)).privateData = (s.descs (s.fileDescriptors j)).privateData →
    i = j

/-- The two allocations of `fopen` succeed. -/
structure OpenEnv.Fresh (env : OpenEnv) (s : Files) : Prop where
  fileDescriptor : env.fileDescriptor ≠ 0
  fatFileDescriptor : env.fatFileDescriptor ≠ 0
  heap : ¬ isError env.fatFileDescriptor
  unused : ∀ i < maxOpenFiles, s.fileDescriptors i ≠ 0 →
    s.fileDescriptors i ≠ env.fileDescriptor ∧
      (s.descs (s.fileDescriptors i)).privateData ≠ env.fatFileDescriptor

theorem freeSlot_eq_some_iff {s : Files} {i : Nat} :
    freeSlot s = some i ↔
      i < maxOpenFiles ∧ s.fileDescriptors i = 0 ∧ ∀ j < i, s.fileDescriptors j ≠ 0 := by
  rw [freeSlot, List.find?_range_eq_some]
  simp only [decide_eq_true_eq, List.mem_range, Bool.not_eq_eq_eq_not, Bool.not_true,
    decide_eq_false_iff_not]
  tauto

theorem freeSlot_congr {s s' : Files} (same : s'.fileDescriptors = s.fileDescriptors) :
    freeSlot s' = freeSlot s := by
  rw [freeSlot, freeSlot, same]

theorem fileNewDescriptor_of_full {s : Files} (full : freeSlot s = none) (block : Word) :
    fileNewDescriptor s block = (-enomem, 0, s) := by
  rw [fileNewDescriptor, full, fillSlot]

theorem fileNewDescriptor_of_free {s : Files} {i : Nat} (free : freeSlot s = some i) (block : Word) :
    fileNewDescriptor s block =
      (0, block,
        { s with
          fileDescriptors := Function.update s.fileDescriptors i block
          descs := Function.update s.descs block ⟨i, 0⟩ }) := by
  rw [fileNewDescriptor, free, fillSlot]

/-- The state after an `fopen` that found its file and a free slot. -/
def Files.opened (s : Files) (env : OpenEnv) (entry : FatEasyDirectoryEntry) (i : Nat) : Files where
  fileDescriptors := Function.update s.fileDescriptors i env.fileDescriptor
  descs := Function.update s.descs env.fileDescriptor ⟨i, env.fatFileDescriptor⟩
  privates := Function.update s.privates env.fatFileDescriptor ⟨entry, 0⟩
  streams := env.streams

/-- An `fopen` that fails leaves the table, and at most a block that it has allocated. -/
structure Files.Unopened (s s' : Files) (env : OpenEnv) : Prop where
  fileDescriptors : s'.fileDescriptors = s.fileDescriptors
  descs : s'.descs = s.descs
  privates : ∀ block, block ≠ env.fatFileDescriptor → s'.privates block = s.privates block

theorem Files.Unopened.refl (s : Files) (env : OpenEnv) : s.Unopened s env :=
  ⟨rfl, rfl, fun _ _ => rfl⟩

theorem fat16Fopen_cases {s : Files} {env : OpenEnv} (fresh : env.Fresh s) (mode : FileMode) :
    isError (fat16Fopen s env mode).1 ∧ s.Unopened (fat16Fopen s env mode).2 env ∨
      ∃ entry, env.entry = some entry ∧
        fat16Fopen s env mode =
          (env.fatFileDescriptor,
            { s with
              privates := Function.update s.privates env.fatFileDescriptor ⟨entry, 0⟩
              streams := env.streams }) := by
  cases mode with
  | read =>
      rw [fat16Fopen, if_neg fresh.fatFileDescriptor]
      cases env.entry with
      | none =>
          have error : isError (BitVec.ofInt 32 (-eio)) := by decide
          exact .inl ⟨error, rfl, rfl, fun _ _ => rfl⟩
      | some entry => exact .inr ⟨entry, rfl, rfl⟩
  | write | append | invalid =>
      have error : isError (BitVec.ofInt 32 (-erdonly)) := by decide
      exact .inl ⟨error, .refl s env⟩

/-- What the driver has made goes into the first free slot. -/
theorem fopenWithMode_made {s : Files} {env : OpenEnv} (fresh : env.Fresh s) {mode : FileMode}
    {entry : FatEasyDirectoryEntry} {i : Nat}
    (made : fat16Fopen s env mode =
      (env.fatFileDescriptor,
        { s with
          privates := Function.update s.privates env.fatFileDescriptor ⟨entry, 0⟩
          streams := env.streams })) (free : freeSlot s = some i) :
    fopenWithMode s env mode = ((i : Int), s.opened env entry i) := by
  let after : Files :=
    { s with
      privates := Function.update s.privates env.fatFileDescriptor ⟨entry, 0⟩
      streams := env.streams }
  have same : freeSlot after = freeSlot s := freeSlot_congr rfl
  rw [fopenWithMode, made]
  dsimp only
  rw [if_neg fresh.heap, fileNewDescriptor_of_free (same.trans free)]
  dsimp only
  rw [if_neg (lt_irrefl 0), Function.update_self, Function.update_self, Function.update_idem]
  rfl

theorem fopenWithMode_cases {s : Files} {env : OpenEnv} (fresh : env.Fresh s) (mode : FileMode) :
    (fopenWithMode s env mode).1 < 0 ∧ s.Unopened (fopenWithMode s env mode).2 env ∨
      ∃ i entry, freeSlot s = some i ∧ env.entry = some entry ∧
        fopenWithMode s env mode = ((i : Int), s.opened env entry i) := by
  rcases fat16Fopen_cases fresh mode with ⟨error, unopened⟩ | ⟨entry, found, made⟩
  · rw [fopenWithMode]
    generalize fat16Fopen s env mode = result at error unopened
    obtain ⟨filePrivData, after⟩ := result
    dsimp only
    rw [if_pos error]
    exact .inl ⟨error, unopened⟩
  · cases free : freeSlot s with
    | none =>
        have negative : -enomem < 0 := by decide
        have full : freeSlot { s with
            privates := Function.update s.privates env.fatFileDescriptor ⟨entry, 0⟩
            streams := env.streams } = none := (freeSlot_congr rfl).trans free
        rw [fopenWithMode, made]
        dsimp only
        rw [if_neg fresh.heap, fileNewDescriptor_of_full full]
        dsimp only
        rw [if_pos negative]
        exact .inl ⟨negative, rfl, rfl, fun block other => Function.update_of_ne other _ _⟩
    | some i => exact .inr ⟨i, entry, rfl, found, fopenWithMode_made fresh made free⟩

theorem fopen_cases {s : Files} {env : OpenEnv} (fresh : env.Fresh s) (modeStr : List Byte) :
    (fopen s modeStr env).1 < 0 ∧ s.Unopened (fopen s modeStr env).2 env ∨
      ∃ i entry, freeSlot s = some i ∧ env.entry = some entry ∧
        fopen s modeStr env = ((i : Int), s.opened env entry i) := by
  have rejected : ∀ rc : Int, rc < 0 →
      ((rc, s) : Int × Files).1 < 0 ∧ s.Unopened ((rc, s) : Int × Files).2 env :=
    fun rc negative => ⟨negative, .refl s env⟩
  unfold fopen
  cases env.pathRoot with
  | none => exact .inl (rejected _ (by decide))
  | some pathRoot =>
      simp only
      split_ifs with noPart noDisk noDriver
      · exact .inl (rejected _ (by decide))
      · exact .inl (rejected _ (by decide))
      · exact .inl (rejected _ (by decide))
      · split
        case h_1 => exact .inl (rejected _ (by decide))
        case h_2 => exact fopenWithMode_cases fresh _

/-- When everything `fopen` asks for is there, it opens the file. -/
theorem fopen_success {s : Files} {env : OpenEnv} (fresh : env.Fresh s) {pathRoot : PathRoot}
    {entry : FatEasyDirectoryEntry} {i : Nat} (parsed : env.pathRoot = some pathRoot)
    (path : pathRoot.first = true ∧ pathRoot.driveNo = 0) (mounted : env.mounted = true)
    (found : env.entry = some entry) (free : freeSlot s = some i) :
    fopen s [0x72] env = ((i : Int), s.opened env entry i) := by
  have made : fat16Fopen s env .read =
      (env.fatFileDescriptor,
        { s with
          privates := Function.update s.privates env.fatFileDescriptor ⟨entry, 0⟩
          streams := env.streams }) := by
    rw [fat16Fopen, if_neg fresh.fatFileDescriptor, found]
  rw [← fopenWithMode_made fresh made free, fopen, parsed]
  simp only [path.1, path.2, mounted, ne_eq, not_true_eq_false, Bool.not_true, Bool.false_eq_true,
    if_false]
  rfl

/-! ## What a call can do -/

def Files.Open (s : Files) (fd : Int) : Prop :=
  0 ≤ fd ∧ fd < maxOpenFiles ∧ s.fileDescriptors fd.toNat ≠ 0

theorem Files.Open.lt {s : Files} {fd : Int} (inUse : s.Open fd) : fd.toNat < maxOpenFiles := by
  obtain ⟨lower, upper, _⟩ := inUse
  omega

theorem fileGetDescriptor_of_open {s : Files} {fd : Int} (inUse : s.Open fd) :
    s.fileGetDescriptor fd = s.fileDescriptors fd.toNat := by
  obtain ⟨lower, upper, _⟩ := inUse
  exact if_neg (by omega)

theorem fileGetDescriptor_of_not_open {s : Files} {fd : Int} (unused : ¬ s.Open fd) :
    s.fileGetDescriptor fd = 0 := by
  rw [Files.fileGetDescriptor]
  split
  case isTrue => rfl
  case isFalse inRange =>
    by_contra inUse
    exact unused ⟨by omega, by omega, inUse⟩

/-- What was opened and not closed again: where `fopen` put the driver's data, and which
    entry it put there. -/
abbrev History := Nat → Option (Word × FatEasyDirectoryEntry)

def record (history : History) : FileCall → Answer → History
  | .fopen _ env, .code fd =>
      if 0 ≤ fd then
        Function.update history fd.toNat (env.entry.map fun entry => (env.fatFileDescriptor, entry))
      else history
  | .fclose fd, .code rc => if rc = 0 then Function.update history fd.toNat none else history
  | _, _ => history

/-- The state with other data behind a slot. -/
def Files.setData (s : Files) (i : Nat) (data : FatFileDescriptor) : Files :=
  { s with
    privates := Function.update s.privates (s.descs (s.fileDescriptors i)).privateData data }

/-- Every call does one of four things. -/
inductive Effect (s : Files) : FileCall → Answer → Files → Prop where
  | quiet (table : s'.fileDescriptors = s.fileDescriptors) (descs : s'.descs = s.descs)
      (data : ∀ i < maxOpenFiles, s.fileDescriptors i ≠ 0 →
        s'.privates (s.descs (s.fileDescriptors i)).privateData =
          s.privates (s.descs (s.fileDescriptors i)).privateData)
      (unrecorded : ∀ history, record history op answer = history) : Effect s op answer s'
  | opened {i : Nat} {entry : FatEasyDirectoryEntry} (fresh : env.Fresh s)
      (free : freeSlot s = some i) (found : env.entry = some entry) :
      Effect s (.fopen modeStr env) (.code i) (s.opened env entry i)
  | moved {fd : Int} (inUse : s.Open fd) (pos : Word) :
      Effect s (.fseek fd offset whence) (.code rc)
        (s.setData fd.toNat
          { s.privates (s.descs (s.fileDescriptors fd.toNat)).privateData with pos := pos })
  | closed {fd : Int} (inUse : s.Open fd) :
      Effect s (.fclose fd) (.code 0) (s.freeFileDescriptor (s.fileDescriptors fd.toNat))

theorem Effect.unchanged {s : Files} {op : FileCall} {answer : Answer}
    (unrecorded : ∀ history, record history op answer = history) : Effect s op answer s :=
  .quiet rfl rfl (fun _ _ _ => rfl) unrecorded

/-- A seek moves the position and nothing else. -/
theorem fat16Fseek_eq (desc : FatFileDescriptor) (offset : Word) (whence : FileSeekMode) :
    ∃ pos, (fat16Fseek desc offset whence).2 = { desc with pos := pos } := by
  unfold fat16Fseek
  split
  case h_1 => exact ⟨desc.pos, rfl⟩
  case h_2 =>
    split
    case isTrue => exact ⟨desc.pos, rfl⟩
    case isFalse => cases whence with
      | seekSet => exact ⟨_, rfl⟩
      | seekCur => exact ⟨_, rfl⟩
      | seekEnd => exact ⟨desc.pos, rfl⟩
      | other => exact ⟨desc.pos, rfl⟩

section Calls

variable {disk : Disk} {fat : FatVolume} {s : Files}

theorem call_rejected {op : FileCall} {fd : Int} (target : op.fd = some fd) (unused : ¬ s.Open fd) :
    s.call disk fat op = (op.rejection, s) := by
  have null := fileGetDescriptor_of_not_open unused
  cases op with
  | fopen modeStr env => cases target
  | fread out size nmemb fd' =>
      cases target
      simp only [Files.call, Files.fread, null, if_true, ite_self, FileCall.rejection]
  | fseek fd' offset whence =>
      cases target
      simp only [Files.call, Files.fseek, null, if_true, FileCall.rejection]
  | fstat fd' stat =>
      cases target
      simp only [Files.call, Files.fstat, null, if_true, FileCall.rejection]
  | fclose fd' =>
      cases target
      simp only [Files.call, Files.fclose, null, if_true, FileCall.rejection]

/-- `fread` moves streams only. -/
theorem fread_files {out out' : Nat → Byte} {size nmemb rc : Word} {fd : Int} {s' : Files}
    (read : s.fread disk fat out size nmemb fd = some (rc, s', out')) :
    ∃ streams, s' = { s with streams := streams } := by
  rw [Files.fread] at read
  split at read
  case isTrue =>
    cases read
    exact ⟨s.streams, rfl⟩
  case isFalse =>
    dsimp only at read
    split at read
    case isTrue =>
      cases read
      exact ⟨s.streams, rfl⟩
    case isFalse =>
      obtain ⟨⟨rc, streams, out⟩, _, same⟩ := Option.map_eq_some_iff.mp read
      cases same
      exact ⟨streams, rfl⟩

/-- The allocations of the call succeed. -/
def Legal (s : Files) : FileCall → Prop
  | .fopen _ env => env.Fresh s
  | _ => True

theorem call_effect {op : FileCall} (legal : Legal s op) :
    Effect s op (s.call disk fat op).1 (s.call disk fat op).2 := by
  cases op with
  | fopen modeStr env =>
      have fresh : env.Fresh s := legal
      rcases fopen_cases fresh modeStr with ⟨failed, unopened⟩ | ⟨i, entry, free, found, success⟩
      · refine .quiet unopened.fileDescriptors unopened.descs (fun i inside inUse => ?_)
          (fun history => if_neg (not_le.mpr failed))
        exact unopened.privates _ (fresh.unused i inside inUse).2
      · rw [Files.call, success]
        exact .opened fresh free found
  | fread out size nmemb fd =>
      simp only [Files.call]
      split
      case h_1 => exact .unchanged fun _ => rfl
      case h_2 rc s' out' read =>
        obtain ⟨streams, rfl⟩ := fread_files read
        exact .quiet rfl rfl (fun _ _ _ => rfl) fun _ => rfl
  | fseek fd offset whence =>
      by_cases inUse : s.Open fd
      · obtain ⟨pos, seek⟩ := fat16Fseek_eq
          (s.privates (s.descs (s.fileDescriptors fd.toNat)).privateData) offset whence
        simp only [Files.call, Files.fseek, fileGetDescriptor_of_open inUse, if_neg inUse.2.2, seek]
        exact .moved inUse pos
      · rw [call_rejected rfl inUse]
        exact .unchanged fun _ => rfl
  | fstat fd stat => exact .unchanged fun _ => rfl
  | fclose fd =>
      by_cases inUse : s.Open fd
      · simp only [Files.call, Files.fclose, fileGetDescriptor_of_open inUse, if_neg inUse.2.2]
        exact .closed inUse
      · rw [call_rejected rfl inUse]
        exact .unchanged fun _ => rfl

end Calls

/-! ## Keeping the table -/

section

variable {s s' : Files} {op : FileCall} {answer : Answer}

theorem opened_new (s : Files) (env : OpenEnv) (entry : FatEasyDirectoryEntry) (i : Nat) :
    (s.opened env entry i).descs ((s.opened env entry i).fileDescriptors i) =
      ⟨i, env.fatFileDescriptor⟩ := by
  simp only [Files.opened, Function.update_self]

theorem opened_old {env : OpenEnv} (fresh : env.Fresh s) (entry : FatEasyDirectoryEntry) {i j : Nat}
    (inside : j < maxOpenFiles) (other : j ≠ i) (inUse : s.fileDescriptors j ≠ 0) :
    (s.opened env entry i).descs ((s.opened env entry i).fileDescriptors j) =
      s.descs (s.fileDescriptors j) := by
  simp only [Files.opened, Function.update_of_ne other,
    Function.update_of_ne (fresh.unused j inside inUse).1]

/-- A slot is the new one, or what it was before; the two cannot meet in a block. -/
theorem Files.WellFormed.opened (wf : s.WellFormed) {env : OpenEnv} {entry : FatEasyDirectoryEntry}
    {i : Nat} (fresh : env.Fresh s) : (s.opened env entry i).WellFormed := by
  have before : ∀ j, j ≠ i → (s.opened env entry i).fileDescriptors j ≠ 0 →
      s.fileDescriptors j ≠ 0 := by
    intro j other inUse
    have same : (s.opened env entry i).fileDescriptors j = s.fileDescriptors j :=
      Function.update_of_ne other _ _
    rwa [same] at inUse
  constructor
  · intro j inside inUse
    by_cases here : j = i
    · rw [here, opened_new]
    · have old := before j here inUse
      rw [opened_old fresh entry inside here old]
      exact wf.index j inside old
  · intro j insideJ k insideK inUseJ inUseK same
    by_cases hereJ : j = i
    · by_cases hereK : k = i
      · rw [hereJ, hereK]
      · have oldK := before k hereK inUseK
        rw [hereJ, opened_new, opened_old fresh entry insideK hereK oldK] at same
        exact absurd same.symm (fresh.unused k insideK oldK).2
    · have oldJ := before j hereJ inUseJ
      rw [opened_old fresh entry insideJ hereJ oldJ] at same
      by_cases hereK : k = i
      · rw [hereK, opened_new] at same
        exact absurd same (fresh.unused j insideJ oldJ).2
      · have oldK := before k hereK inUseK
        rw [opened_old fresh entry insideK hereK oldK] at same
        exact wf.separate j insideJ k insideK oldJ oldK same

/-- The index leads back to the slot. -/
theorem Files.WellFormed.free (wf : s.WellFormed) {fd : Int} (inUse : s.Open fd) :
    s.freeFileDescriptor (s.fileDescriptors fd.toNat) =
      { s with fileDescriptors := Function.update s.fileDescriptors fd.toNat 0 } := by
  rw [Files.freeFileDescriptor, wf.index _ inUse.lt inUse.2.2, Int.toNat_natCast]

theorem Files.WellFormed.closed (wf : s.WellFormed) {fd : Int} (inUse : s.Open fd) :
    (s.freeFileDescriptor (s.fileDescriptors fd.toNat)).WellFormed := by
  rw [wf.free inUse]
  have before : ∀ j, Function.update s.fileDescriptors fd.toNat 0 j ≠ 0 →
      Function.update s.fileDescriptors fd.toNat 0 j = s.fileDescriptors j := by
    intro j inUse
    by_cases here : j = fd.toNat
    · rw [here, Function.update_self] at inUse
      exact absurd rfl inUse
    · exact Function.update_of_ne here _ _
  constructor
  · intro j inside inUse
    have same := before j inUse
    dsimp only at inUse ⊢
    rw [same] at inUse ⊢
    exact wf.index j inside inUse
  · intro j insideJ k insideK inUseJ inUseK
    have sameJ := before j inUseJ
    have sameK := before k inUseK
    dsimp only at inUseJ inUseK ⊢
    rw [sameJ] at inUseJ ⊢
    rw [sameK] at inUseK ⊢
    exact wf.separate j insideJ k insideK inUseJ inUseK

theorem Effect.wellFormed (wf : s.WellFormed) (effect : Effect s op answer s') : s'.WellFormed := by
  cases effect with
  | quiet table descs data unrecorded =>
      constructor
      · rw [table, descs]
        exact wf.index
      · rw [table, descs]
        exact wf.separate
  | opened fresh free found => exact wf.opened fresh
  | moved inUse pos => exact ⟨wf.index, wf.separate⟩
  | closed inUse => exact wf.closed inUse

/-! ## What is behind the slots -/

theorem Files.slot_eq_none_iff (s : Files) (i : Nat) :
    s.slot i = none ↔ s.fileDescriptors i = 0 := by
  rw [Files.slot]
  split
  case isTrue null => exact iff_of_true rfl null
  case isFalse inUse => exact iff_of_false (by simp) inUse

theorem Files.slot_of_open {s : Files} {i : Nat} (inUse : s.fileDescriptors i ≠ 0) :
    s.slot i = some ((s.descs (s.fileDescriptors i)).privateData,
      s.privates (s.descs (s.fileDescriptors i)).privateData) :=
  if_neg inUse

theorem slot_opened_self (s : Files) {env : OpenEnv} (fresh : env.Fresh s)
    (entry : FatEasyDirectoryEntry) (i : Nat) :
    (s.opened env entry i).slot i = some (env.fatFileDescriptor, ⟨entry, 0⟩) := by
  have inUse : (s.opened env entry i).fileDescriptors i ≠ 0 := by
    simpa only [Files.opened, Function.update_self] using fresh.fileDescriptor
  rw [Files.slot_of_open inUse, opened_new]
  simp only [Files.opened, Function.update_self]

theorem slot_opened_other {env : OpenEnv} (fresh : env.Fresh s) (entry : FatEasyDirectoryEntry)
    {i j : Nat} (inside : j < maxOpenFiles) (other : j ≠ i) :
    (s.opened env entry i).slot j = s.slot j := by
  have same : (s.opened env entry i).fileDescriptors j = s.fileDescriptors j :=
    Function.update_of_ne other _ _
  by_cases null : s.fileDescriptors j = 0
  · rw [(Files.slot_eq_none_iff s j).mpr null, Files.slot_eq_none_iff, same, null]
  · have kept := opened_old fresh entry inside other null
    have data : (s.opened env entry i).privates (s.descs (s.fileDescriptors j)).privateData =
        s.privates (s.descs (s.fileDescriptors j)).privateData :=
      Function.update_of_ne (fresh.unused j inside null).2 _ _
    rw [Files.slot_of_open null, Files.slot_of_open (same ▸ null), kept, data]

theorem slot_congr {i : Nat} (table : s'.fileDescriptors i = s.fileDescriptors i)
    (descs : s'.descs = s.descs)
    (data : s.fileDescriptors i ≠ 0 →
      s'.privates (s.descs (s.fileDescriptors i)).privateData =
        s.privates (s.descs (s.fileDescriptors i)).privateData) :
    s'.slot i = s.slot i := by
  rw [Files.slot, Files.slot, table, descs]
  split
  case isTrue => rfl
  case isFalse inUse => rw [data inUse]

theorem slot_setData_self {i : Nat} (inUse : s.fileDescriptors i ≠ 0) (data : FatFileDescriptor) :
    (s.setData i data).slot i = some ((s.descs (s.fileDescriptors i)).privateData, data) := by
  have same : (s.setData i data).fileDescriptors i ≠ 0 := inUse
  rw [Files.slot_of_open same]
  simp only [Files.setData, Function.update_self]

/-- No other slot leads to the same data. -/
theorem slot_setData_other (wf : s.WellFormed) {i j : Nat} (insideI : i < maxOpenFiles)
    (insideJ : j < maxOpenFiles) (inUse : s.fileDescriptors i ≠ 0) (other : j ≠ i)
    (data : FatFileDescriptor) : (s.setData i data).slot j = s.slot j := by
  refine slot_congr rfl rfl fun inUse' => Function.update_of_ne (fun shared => ?_) _ _
  exact other (wf.separate j insideJ i insideI inUse' inUse shared)

/-- A call changes the slot it is about; `fopen` none that is in use. -/
theorem Effect.slot_other (wf : s.WellFormed) (effect : Effect s op answer s') {j : Nat}
    (inside : j < maxOpenFiles) (other : ∀ fd, op.fd = some fd → j ≠ fd.toNat)
    (kept : op.fd = none → s.fileDescriptors j ≠ 0) : s'.slot j = s.slot j := by
  cases effect with
  | quiet table descs data unrecorded => exact slot_congr (congrFun table j) descs (data j inside)
  | opened fresh free found =>
      refine slot_opened_other fresh _ inside fun same => kept rfl ?_
      rw [same]
      exact (freeSlot_eq_some_iff.mp free).2.1
  | moved inUse pos => exact slot_setData_other wf inUse.lt inside inUse.2.2 (other _ rfl) _
  | closed inUse =>
      rw [wf.free inUse]
      exact slot_congr (Function.update_of_ne (other _ rfl) _ _) rfl fun _ => rfl

/-- What `fopen` records about a file: where its data is, and its entry. -/
def Files.entry (s : Files) (i : Nat) : Option (Word × FatEasyDirectoryEntry) :=
  (s.slot i).map fun data => (data.1, data.2.easyDirectoryEntry)

theorem Effect.entry (wf : s.WellFormed) (effect : Effect s op answer s') {history : History}
    (own : ∀ i < maxOpenFiles, history i = s.entry i) {j : Nat} (inside : j < maxOpenFiles) :
    record history op answer j = s'.entry j := by
  have other := effect.slot_other wf inside
  cases effect with
  | quiet table descs data unrecorded =>
      rw [unrecorded, own j inside, Files.entry, Files.entry,
        slot_congr (congrFun table j) descs (data j inside)]
  | @opened _ _ i entry fresh free found =>
      simp only [record, if_pos (Int.natCast_nonneg i), Int.toNat_natCast, found, Option.map_some]
      by_cases here : j = i
      · rw [here, Function.update_self, Files.entry, slot_opened_self s fresh]
        rfl
      · rw [Function.update_of_ne here, own j inside, Files.entry, Files.entry,
          slot_opened_other fresh entry inside here]
  | @moved offset whence rc fd inUse pos =>
      have unrecorded : record history (.fseek fd offset whence) (.code rc) = history := rfl
      rw [unrecorded, own j inside]
      by_cases here : j = fd.toNat
      · rw [here, Files.entry, Files.entry, Files.slot_of_open inUse.2.2,
          slot_setData_self inUse.2.2, Option.map_some, Option.map_some]
      · rw [Files.entry, Files.entry, other _ nofun]
        rintro _ ⟨⟩
        exact here
  | @closed fd inUse =>
      simp only [record, if_true]
      by_cases here : j = fd.toNat
      · rw [here, Function.update_self, Files.entry, wf.free inUse,
          (Files.slot_eq_none_iff _ _).mpr (Function.update_self _ _ _), Option.map_none]
      · rw [Function.update_of_ne here, own j inside, Files.entry, Files.entry, other _ nofun]
        rintro _ ⟨⟩
        exact here

end

/-! ## Runs -/

/-- The state and what has been opened so far. -/
structure FileRun where
  files : Files
  history : History

section Runs

variable (disk : Disk) (fat : FatVolume)

def FileRun.step (r : FileRun) (op : FileCall) : FileRun :=
  ⟨(r.files.call disk fat op).2, record r.history op (r.files.call disk fat op).1⟩

/-- The descriptor was returned by `fopen` and not closed since. -/
def FileRun.IsOpen (r : FileRun) (fd : Int) : Prop :=
  0 ≤ fd ∧ fd < maxOpenFiles ∧ r.history fd.toNat ≠ none

/-- The slots in use are those that were opened, with what was put there. -/
def FileRun.Own (r : FileRun) : Prop := ∀ i < maxOpenFiles, r.history i = r.files.entry i

structure TableLaw (r : FileRun) (op : FileCall) : Prop where
  index : ∀ i < maxOpenFiles, (r.step disk fat op).files.fileDescriptors i ≠ 0 →
    ((r.step disk fat op).files.descs ((r.step disk fat op).files.fileDescriptors i)).index = i
  opens : ∀ modeStr env fd, op = .fopen modeStr env →
    (r.files.call disk fat op).1 = .code fd → 0 ≤ fd →
      fd < maxOpenFiles ∧ r.files.fileDescriptors fd.toNat = 0 ∧
        (∀ i < fd.toNat, r.files.fileDescriptors i ≠ 0) ∧
        ∀ i < maxOpenFiles, i ≠ fd.toNat →
          (r.step disk fat op).files.fileDescriptors i = r.files.fileDescriptors i ∧
          (r.step disk fat op).files.slot i = r.files.slot i
  closes : ∀ fd, op = .fclose fd → r.IsOpen fd →
    (r.files.call disk fat op).1 = .code 0 ∧
      (r.step disk fat op).files.fileDescriptors =
        Function.update r.files.fileDescriptors fd.toNat 0
  rejects : ∀ fd, op.fd = some fd → ¬ r.IsOpen fd →
    (r.files.call disk fat op).1 = op.rejection ∧ r.step disk fat op = r
  own : (r.step disk fat op).Own

/-- As `fs_init` leaves the table. -/
def fsInit (descs : Word → FileDescriptor) (privates : Word → FatFileDescriptor)
    (streams : FatStreams) : FileRun :=
  ⟨⟨fun _ => 0, descs, privates, streams⟩, fun _ => none⟩

variable {disk fat} {r : FileRun} {op : FileCall}

theorem record_rejection {fd : Int} (target : op.fd = some fd) (history : History) :
    record history op op.rejection = history := by
  cases op with
  | fopen modeStr env => cases target
  | fread | fseek | fstat => rfl
  | fclose fd' =>
      simp only [record, FileCall.rejection]
      exact if_neg (by decide)

theorem FileRun.Own.isOpen_iff (own : r.Own) (fd : Int) : r.IsOpen fd ↔ r.files.Open fd := by
  refine and_congr_right fun lower => and_congr_right fun upper => not_congr ?_
  rw [own fd.toNat (by omega), Files.entry, Option.map_eq_none_iff, Files.slot_eq_none_iff]

structure FileRun.Inv (r : FileRun) : Prop where
  wellFormed : r.files.WellFormed
  own : r.Own

theorem FileRun.inv_fsInit (descs : Word → FileDescriptor) (privates : Word → FatFileDescriptor)
    (streams : FatStreams) : (fsInit descs privates streams).Inv :=
  ⟨⟨nofun, nofun⟩, fun _ _ => rfl⟩

theorem FileRun.Inv.step (inv : r.Inv) (legal : Legal r.files op) : (r.step disk fat op).Inv where
  wellFormed := (call_effect legal).wellFormed inv.wellFormed
  own := fun _ inside => (call_effect legal).entry inv.wellFormed inv.own inside

theorem FileRun.Inv.tableLaw (inv : r.Inv) (legal : Legal r.files op) : TableLaw disk fat r op where
  index := (inv.step legal).wellFormed.index
  opens := by
    rintro modeStr env fd rfl answer success
    have fresh : env.Fresh r.files := legal
    rcases fopen_cases fresh modeStr with ⟨failed, _⟩ | ⟨i, entry, free, _, opened⟩
    · cases answer
      exact absurd failed (not_lt.mpr success)
    · obtain ⟨inside, null, least⟩ := freeSlot_eq_some_iff.mp free
      simp only [FileRun.step, Files.call, opened] at answer ⊢
      cases answer
      rw [Int.toNat_natCast]
      refine ⟨by exact_mod_cast inside, null, least, fun j insideJ other => ⟨?_, ?_⟩⟩
      · exact Function.update_of_ne other _ _
      · exact slot_opened_other fresh entry insideJ other
  closes := by
    rintro fd rfl isOpen
    have inUse := (inv.own.isOpen_iff fd).mp isOpen
    simp only [FileRun.step, Files.call, Files.fclose, fileGetDescriptor_of_open inUse,
      if_neg inUse.2.2, inv.wellFormed.free inUse, and_self]
  rejects := by
    intro fd target closed
    have unused := mt (inv.own.isOpen_iff fd).mpr closed
    rw [FileRun.step, call_rejected target unused]
    exact ⟨rfl, by rw [record_rejection target]⟩
  own := (inv.step legal).own

end Runs

/-- `fopen` finds a file of ten bytes and gets two blocks. -/
def tenBytesFound : OpenEnv where
  pathRoot := some ⟨0, true⟩
  mounted := true
  entry := some (.file ⟨0, 0, 2, 10⟩)
  streams := ⟨⟨0⟩, ⟨0⟩, ⟨0⟩⟩
  fatFileDescriptor := 0x1000000
  fileDescriptor := 0x1001000

def Files.view (s : Files) : FileState where
  fileDescriptors := fun i => (s.slot i).map Prod.snd
  streams := s.streams

theorem fileGetDescriptor_view (s : Files) (fd : Int) :
    fileGetDescriptor s.view fd =
      if s.fileGetDescriptor fd = 0 then none
      else some (s.privates (s.descs (s.fileGetDescriptor fd)).privateData) := by
  rw [fileGetDescriptor, Files.fileGetDescriptor]
  split
  case isTrue => rfl
  case isFalse =>
    simp only [Files.view, Files.slot]
    split <;> rfl

theorem fread_view (disk : Disk) (fat : FatVolume) (s : Files) (out : Nat → Byte)
    (size nmemb : Word) (fd : Int) :
    fread disk fat s.view out size nmemb fd =
      (s.fread disk fat out size nmemb fd).map fun (rc, s, out) => (rc, s.view, out) := by
  simp only [fread, Files.fread, fileGetDescriptor_view]
  split
  case isTrue => rfl
  case isFalse =>
    by_cases null : s.fileGetDescriptor fd = 0
    · simp only [if_pos null]
      rfl
    · simp only [if_neg null, Option.map_map]
      rfl

/-- Seeking through the pointer moves one slot, since the data is nobody else's. -/
theorem fseek_view {s : Files} (wf : s.WellFormed) (fd : Int) (offset : Word)
    (whence : FileSeekMode) :
    (fseek s.view fd offset whence).1 = (s.fseek fd offset whence).1 ∧
      ∀ i < maxOpenFiles, (fseek s.view fd offset whence).2.fileDescriptors i =
        (s.fseek fd offset whence).2.view.fileDescriptors i := by
  simp only [fseek, Files.fseek, fileGetDescriptor_view]
  by_cases inUse : s.Open fd
  · simp only [fileGetDescriptor_of_open inUse, if_neg inUse.2.2, true_and]
    intro i inside
    generalize (fat16Fseek _ offset whence).2 = data
    have after : { s with
        privates := Function.update s.privates (s.descs (s.fileDescriptors fd.toNat)).privateData
          data } = s.setData fd.toNat data := rfl
    rw [after]
    simp only [Files.view]
    by_cases same : i = fd.toNat
    · rw [same, Function.update_self, slot_setData_self inUse.2.2, Option.map_some]
    · rw [Function.update_of_ne same, slot_setData_other wf inUse.lt inside inUse.2.2 same]
  · simp only [fileGetDescriptor_of_not_open inUse, if_true, true_and, implies_true]

end ConiferOS.Fs
