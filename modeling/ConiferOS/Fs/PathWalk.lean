import ConiferOS.Fs.Directory

/-! # Walking a path

`fat16_get_directory_entry` goes from directory to directory as long as there are parts
left. Its loop looks at the path only: an entry that was not found, or a directory that
could not be loaded, is followed like any other.
-/

namespace ConiferOS.Fs

open Lib

/-! ## What a path leads to -/

/-- The parts are looked up one after the other, from a directory on: the entry that the
    last one stands for, or nothing if a part is missing or a file is in the way. -/
inductive Reaches (disk : Disk) (fat : FatVolume) :
    FatDirectory → (part : List Byte) → (next : List (List Byte)) → Option (List Byte) → Prop where
  | missing {directory part next} (absent : directory.lookup part = none) :
      Reaches disk fat directory part next none
  | last {directory part rawEntry} (found : directory.lookup part = some rawEntry) :
      Reaches disk fat directory part [] (some rawEntry)
  | file {directory part rawEntry after next} (found : directory.lookup part = some rawEntry)
      (file : ¬ IsSubdirectory rawEntry) : Reaches disk fat directory part (after :: next) none
  | enter {directory part rawEntry inner after next result} (found : directory.lookup part = some rawEntry)
      (subdirectory : IsSubdirectory rawEntry) (loads : LoadsAs disk fat rawEntry (some inner))
      (rest : Reaches disk fat inner after next result) :
      Reaches disk fat directory part (after :: next) result

theorem Reaches.unique {disk : Disk} {fat : FatVolume} {directory : FatDirectory} {part : List Byte}
    {next : List (List Byte)} {a b : Option (List Byte)} (ha : Reaches disk fat directory part next a)
    (hb : Reaches disk fat directory part next b) : a = b := by
  induction ha with
  | missing absent =>
      cases hb with
      | missing | file => rfl
      | last found | enter found => rw [absent] at found; cases found
  | last found =>
      cases hb with
      | missing absent => rw [found] at absent; cases absent
      | last found' => exact found.symm.trans found'
  | file found file =>
      cases hb with
      | missing | file => rfl
      | enter found' subdirectory =>
          cases found.symm.trans found'
          exact absurd subdirectory file
  | enter found subdirectory loads _ ih =>
      cases hb with
      | missing absent => rw [found] at absent; cases absent
      | file found' file =>
          cases found.symm.trans found'
          exact absurd subdirectory file
      | enter found' _ loads' rest' =>
          cases found.symm.trans found'
          cases loads.unique loads'
          exact ih rest'

/-- With room for what is allocated, the walk returns, and with the entry that the path
    leads to from the root directory. -/
def Resolves (disk : Disk) (fat : FatVolume) (part : List Byte) (next : List (List Byte)) : Prop :=
  ∀ (σ : Type) (A : Allocator σ), A.Serves → ∀ s : DriverState σ,
    (fat16GetDirectoryEntry disk fat A part next).Yields s fun entry _ =>
      ∃ found, Reaches disk fat fat.rootDirectory part next found ∧ Made disk fat found entry

/-! ## Which walks return -/

/-- Every directory on the way can be searched, those that are entered could be loaded, and
    if a part is missing it is the last one. -/
inductive Clear (disk : Disk) (fat : FatVolume) :
    FatDirectory → (part : List Byte) → (next : List (List Byte)) → Prop where
  | last {directory part} (searchable : Searchable disk fat directory part) :
      Clear disk fat directory part []
  | file {directory part rawEntry after next} (searchable : Searchable disk fat directory part)
      (found : directory.lookup part = some rawEntry) (file : ¬ IsSubdirectory rawEntry) :
      Clear disk fat directory part (after :: next)
  | enter {directory part rawEntry inner after next} (searchable : Searchable disk fat directory part)
      (found : directory.lookup part = some rawEntry) (subdirectory : IsSubdirectory rawEntry)
      (loads : LoadsAs disk fat rawEntry (some inner)) (rest : Clear disk fat inner after next) :
      Clear disk fat directory part (after :: next)

section Walk

variable {σ : Type} {A : Allocator σ} {disk : Disk} {fat : FatVolume} {directory : FatDirectory}
  {part : List Byte} {next : List (List Byte)} {entry : Option EasyEntry}

theorem Clear.searchable (clear : Clear disk fat directory part next) :
    Searchable disk fat directory part := by
  cases clear <;> assumption

theorem walkPath_yields (serves : A.Serves) (clear : Clear disk fat directory part next)
    (made : Made disk fat (directory.lookup part) entry) (s : DriverState σ) :
    (walkPath disk fat A entry next).Yields s fun entry _ =>
      ∃ found, Reaches disk fat directory part next found ∧ Made disk fat found entry := by
  induction clear generalizing entry s with
  | @last directory part _ =>
      rw [walkPath]
      refine .pure ⟨_, ?_, made⟩
      cases found : directory.lookup part with
      | none => exact .missing found
      | some rawEntry => exact .last found
  | file _ found file =>
      rw [found] at made
      obtain ⟨easyEntry, rfl, made⟩ := made
      obtain ⟨entry, item⟩ := made.of_file file
      rw [walkPath, item]
      exact .pure ⟨none, .file found file, rfl⟩
  | @enter directory part rawEntry inner after next _ found subdirectory loads rest ih =>
      rw [found] at made
      obtain ⟨easyEntry, rfl, made⟩ := made
      obtain ⟨loaded, item, loads'⟩ := made.of_subdirectory subdirectory
      obtain ⟨innerDirectory, rfl, rfl⟩ := Option.map_eq_some_iff.mp (loads'.unique loads)
      rw [walkPath, item]
      refine (find_yields serves rest.searchable s).bind fun tmpEntry s made => ?_
      refine (fat16EasyDirEntryFree_yields easyEntry s).bind fun _ s _ => ?_
      obtain ⟨result, s', run, found', reaches, made⟩ := ih made s
      exact ⟨result, s', run, found', .enter found subdirectory loads reaches, made⟩

theorem walkPath_ensures (serves : A.Serves) (searchable : Searchable disk fat directory part)
    (made : Made disk fat (directory.lookup part) entry) (s : DriverState σ) :
    (walkPath disk fat A entry next).Ensures s fun _ _ => Clear disk fat directory part next := by
  induction next generalizing directory part entry s with
  | nil => exact fun _ _ _ => .last searchable
  | cons after next ih =>
      cases entry with
      | none => exact .throw _
      | some easyEntry =>
          cases found : directory.lookup part with
          | none => rw [found] at made; cases made
          | some rawEntry =>
              rw [found] at made
              obtain ⟨_, same, made⟩ := made
              cases same
              by_cases subdirectory : IsSubdirectory rawEntry
              · obtain ⟨loaded, item, loads⟩ := made.of_subdirectory subdirectory
                rw [walkPath, item]
                cases loaded with
                | none => exact .throw _
                | some inner =>
                    refine (find_ensures serves inner.contents after s).bind ?_
                    rintro tmpEntry s ⟨searchable', made'⟩
                    refine .next fun _ s => ?_
                    intro result s' run
                    exact .enter searchable found subdirectory loads (ih searchable' made' s result s' run)
              · exact fun _ _ _ => .file searchable found subdirectory

end Walk

/-- An allocator that does not keep books. -/
def plentiful : Allocator Unit := ⟨fun _ _ => some (4096, ()), fun _ _ => ()⟩

theorem plentiful_serves : plentiful.Serves := fun _ _ => ⟨4096, (), rfl, by decide⟩

theorem Resolves.clear {disk : Disk} {fat : FatVolume} {part : List Byte} {next : List (List Byte)}
    (resolves : Resolves disk fat part next) :
    Searchable disk fat fat.rootDirectory part ∧ fat.rootDirectory.lookup part = none ∨
      Clear disk fat fat.rootDirectory part next := by
  obtain ⟨entry, s', run, -⟩ := resolves Unit plentiful plentiful_serves ⟨(), freshStreams⟩
  obtain ⟨first, s, find, rest⟩ := Prog.run_bind_eq_ok.mp run
  obtain ⟨searchable, made⟩ := find_ensures plentiful_serves _ _ _ first s find
  cases first with
  | none => exact .inl ⟨searchable, made.eq_none⟩
  | some easyEntry => exact .inr (walkPath_ensures plentiful_serves searchable made s entry s' rest)

/-- A path is resolved exactly when the way is clear, or its first part is missing. -/
theorem path_resolution_iff (disk : Disk) (fat : FatVolume) (part : List Byte) (next : List (List Byte)) :
    Resolves disk fat part next ↔
      Searchable disk fat fat.rootDirectory part ∧ fat.rootDirectory.lookup part = none ∨
        Clear disk fat fat.rootDirectory part next := by
  refine ⟨Resolves.clear, fun returns σ A serves s => ?_⟩
  have searchable : Searchable disk fat fat.rootDirectory part :=
    returns.elim (·.1) (·.searchable)
  refine (find_yields serves searchable s).bind fun first s made => ?_
  cases first with
  | none => exact .pure ⟨none, .missing made.eq_none, rfl⟩
  | some easyEntry =>
      rcases returns with ⟨-, absent⟩ | clear
      · rw [absent] at made
        cases made
      · exact walkPath_yields serves clear made s

/-! ## A part that is missing in the middle -/

/-- A directory `A` that starts in cluster 2. -/
def folderEntry : List Byte :=
  0x41 :: List.replicate 10 0x20 ++ 0x10 :: List.replicate 14 0 ++ [2, 0, 0, 0, 0, 0]

/-- It is all there is on the disk. -/
def folderDisk : Disk := ⟨fun lba i => if lba = 17 then folderEntry.getD i 0 else 0, fun _ => 0⟩

def folderVolume : FatVolume := ⟨blankHeader 16, loadedRoot folderDisk (blankHeader 16) 1⟩

theorem rootPos_sixteen (disk : Disk) : rootPos disk (blankHeader 16) = ((17 * 512 : Nat) : Int) := by
  have sector : rootDirSector (blankHeader 16) = 17 := rfl
  rw [rootPos, sector]
  exact int32_of_mem (show -2 ^ 31 ≤ (17 * 512 : Int) by decide) (show (17 * 512 : Int) < 2 ^ 31 by decide)

theorem folderDisk_ends : EndsAt folderDisk (rootPos folderDisk (blankHeader 16)) 1 := by
  rw [rootPos_sixteen]
  constructor
  · rw [slotMark_eq folderDisk _ _ (by decide)]
    decide
  · intro i before
    obtain rfl : i = 0 := by omega
    rw [slotMark_eq folderDisk _ _ (by decide)]
    decide

theorem folderVolume_loaded : folderVolume.Loaded folderDisk := by
  obtain ⟨stream, load⟩ := fat16GetRootDirectory_ends folderDisk_ends
  exact ⟨directorySlots, true, stream, load⟩

theorem folderVolume_total : folderVolume.rootDirectory.total.toNat = 1 := by
  have live : liveSlots folderDisk (rootPos folderDisk (blankHeader 16)) 1 = 1 := by
    rw [liveSlots_succ, rootPos_sixteen, slotMark_eq folderDisk _ _ (by decide)]
    decide
  rw [folderVolume, loadedRoot, live]
  rfl

theorem folderVolume_from : ∃ rest, folderVolume.rootDirectory.from 0 = folderEntry ++ rest := by
  have size : rootDirSize (blankHeader 16) = ((32 + 480 : Nat) : Int) := rfl
  have bytes : diskBytes folderDisk (17 * 512) 32 = folderEntry := by decide
  refine ⟨diskBytes folderDisk (17 * 512 + 32) 480, ?_⟩
  simp only [folderVolume, loadedRoot, FatDirectory.from, Nat.mul_zero, List.drop_zero]
  rw [rootPos_sixteen, size, diskStreamRead_eq folderDisk _ _ (by decide), diskBytes_add, bytes]

theorem folderEntry_filename (rest : List Byte) :
    fat16GetFilename (folderEntry ++ rest) maxFilePathChars = some (0x41 :: List.replicate 127 0) := by
  have name : writtenName folderEntry maxFilePathChars = some [0x41] := by decide
  have parts := (writtenName_eq_some.mp name).append rest
  rw [fat16GetFilename, writtenName_eq_some.mpr parts]
  rfl

theorem folderEntry_pos (rest : List Byte) :
    subdirectoryPos folderDisk folderVolume (folderEntry ++ rest) = ((18 * 512 : Nat) : Int) := by
  have cluster : fat16GetFirstCluster (FatDirectoryEntry.ofBytes (folderEntry ++ rest)) = 2 := by
    rw [FatDirectoryEntry.ofBytes_append rfl]
    decide
  have sector : fat16ClusterToStartSector folderVolume 2 = 18 := rfl
  rw [subdirectoryPos, cluster, sector]
  exact int32_of_mem (by decide) (by decide)

theorem folderEntry_ends (rest : List Byte) :
    EndsAt folderDisk (subdirectoryPos folderDisk folderVolume (folderEntry ++ rest)) 0 := by
  rw [folderEntry_pos]
  refine ⟨?_, fun i before => by omega⟩
  rw [slotMark_eq folderDisk _ _ (by decide)]
  decide

theorem folderVolume_lookup {rest : List Byte}
    (first : folderVolume.rootDirectory.from 0 = folderEntry ++ rest) :
    folderVolume.rootDirectory.lookup [0x41] = some (folderEntry ++ rest) ∧
      Searchable folderDisk folderVolume folderVolume.rootDirectory [0x41] := by
  have read := folderEntry_filename rest
  rw [← first] at read
  have named : folderVolume.rootDirectory.named [0x41] 0 = true := by
    rw [FatDirectory.named, read]
    decide
  constructor
  · rw [FatDirectory.lookup, folderVolume_total, FatDirectory.lastNamed, if_pos named, first]
  · rw [Searchable, folderVolume_total]
    constructor
    · intro i bound
      obtain rfl : i = 0 := by omega
      rw [read]
      rfl
    · intro i bound _ _
      obtain rfl : i = 0 := by omega
      rw [first]
      exact ⟨by decide, 0, folderEntry_ends rest⟩

/-- A directory without entries finds nothing. -/
theorem lookup_empty {disk : Disk} {fat : FatVolume} {directory : FatDirectory} (name : List Byte)
    (empty : directory.total = 0) :
    directory.lookup name = none ∧ Searchable disk fat directory name := by
  rw [FatDirectory.lookup, Searchable, empty]
  refine ⟨rfl, ?_, ?_⟩
  · intro i bound
    cases bound
  · intro i bound
    cases bound

/-- `0:/A/B/C`, where `A` is empty. -/
theorem path_null_entry_middle :
    folderVolume.Loaded folderDisk ∧
      (fat16GetDirectoryEntry folderDisk folderVolume plentiful [0x41] [[0x42], [0x43]]).run
        ⟨(), freshStreams⟩ = .error .nullPointer ∧
      ¬ Resolves folderDisk folderVolume [0x41] [[0x42], [0x43]] := by
  have fault : (fat16GetDirectoryEntry folderDisk folderVolume plentiful [0x41] [[0x42], [0x43]]).run
      ⟨(), freshStreams⟩ = .error .nullPointer := by
    obtain ⟨rest, first⟩ := folderVolume_from
    obtain ⟨found, searchable⟩ := folderVolume_lookup first
    obtain ⟨entry, s, find, made⟩ := find_yields plentiful_serves searchable ⟨(), freshStreams⟩
    rw [found] at made
    obtain ⟨easyEntry, rfl, made⟩ := made
    have subdirectory : IsSubdirectory (folderEntry ++ rest) := by
      rw [IsSubdirectory, FatDirectoryEntry.ofBytes_append rfl]
      decide
    obtain ⟨loaded, item, loaded'⟩ := made.of_subdirectory subdirectory
    have loads : LoadsAs folderDisk folderVolume (folderEntry ++ rest)
        (some (loadedSubdirectory folderDisk folderVolume (folderEntry ++ rest) 0)) :=
      ⟨by decide, 0, folderEntry_ends rest, (if_pos (show int32 0 ≤ 512 by decide)).symm⟩
    obtain ⟨inner, rfl, contents⟩ := Option.map_eq_some_iff.mp (loaded'.unique loads)
    have empty : inner.contents.total = 0 := by
      rw [contents]
      rfl
    obtain ⟨absent, searchable'⟩ := lookup_empty [0x42] empty
    obtain ⟨tmpEntry, s', find', made'⟩ := find_yields plentiful_serves searchable' s
    rw [absent] at made'
    cases made'
    obtain ⟨_, s'', free, -⟩ := fat16EasyDirEntryFree_yields (A := plentiful) easyEntry s'
    rw [fat16GetDirectoryEntry, Prog.run_bind_of_ok find]
    simp only [walkPath, item]
    rw [Prog.run_bind_of_ok find', Prog.run_bind_of_ok free]
    rfl
  refine ⟨folderVolume_loaded, fault, fun resolves => ?_⟩
  obtain ⟨entry, s, run, -⟩ := resolves Unit plentiful plentiful_serves ⟨(), freshStreams⟩
  rw [fault] at run
  cases run

end ConiferOS.Fs
