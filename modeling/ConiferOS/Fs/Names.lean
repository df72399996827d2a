import ConiferOS.Memory.StringCompare

/-! # File names

A directory entry has eight bytes for the name and three for the extension, filled up with
spaces. `fat16_get_filename` reads each of them like a string, up to a space or a zero, so
a field without padding is read into the next one: a name of eight characters into the
extension, and an extension of three into the attribute byte and on.
-/

namespace ConiferOS.Fs

/-! ## Decoding -/

/-- The characters that end a field. -/
def endsField (c : Byte) : Bool := c = 0x00 ∨ c = 0x20

/-- The bytes that `out` moves over. `none` when `in` leaves the entries in memory, or `out`
    the `room` that is left in its buffer: a space is written as a zero. -/
def fat16ConvertSpacesToNull : (input : List Byte) → (room : Nat) → Option (List Byte)
  | [], _ => none
  | c :: input, room =>
      if c = 0x00 then some []
      else if room = 0 then none
      else if c = 0x20 then some []
      else (fat16ConvertSpacesToNull input (room - 1)).map (c :: ·)

/-- The name and the extension, with a dot between them. -/
def writtenName (rawEntry : List Byte) (maxlen : Nat) : Option (List Byte) := do
  let base ← fat16ConvertSpacesToNull rawEntry maxlen
  let ext0 ← rawEntry[8]?
  if endsField ext0 then some base
  else if maxlen ≤ base.length then none
  else
    let ext ← fat16ConvertSpacesToNull (rawEntry.drop 8) (maxlen - base.length - 1)
    some (base ++ 0x2E :: ext)

/-- The buffer of `maxlen` bytes, which is cleared first. `rawEntry` is memory from the
    entry on, as far as the entries of the directory go. -/
def fat16GetFilename (rawEntry : List Byte) (maxlen : Nat) : Option (List Byte) :=
  (writtenName rawEntry maxlen).map fun name => name ++ List.replicate (maxlen - name.length) 0

section Convert

variable {input name : List Byte} {room : Nat}

/-- A field is read up to the first space or zero, wherever that is. -/
theorem convert_eq_takeWhile (read : fat16ConvertSpacesToNull input room = some name) :
    name = input.takeWhile (fun c => !endsField c) ∧ name.length ≤ room := by
  fun_induction fat16ConvertSpacesToNull input room generalizing name with
  | case1 => cases read
  | case2 => cases read; simp [endsField]
  | case3 => cases read
  | case4 => cases read; simp [endsField]
  | case5 c input room nonzero full char ih =>
      obtain ⟨rest, later, rfl⟩ := Option.map_eq_some_iff.mp read
      obtain ⟨chars, short⟩ := ih later
      have inside : endsField c = false := by simpa [endsField] using ⟨nonzero, char⟩
      refine ⟨by simp [inside, ← chars], ?_⟩
      simp only [List.length_cons]
      omega

/-- A field that ends in the memory at hand is read, and what is behind it does not matter. -/
theorem convert_of_ends (chars : ∀ c ∈ name, endsField c = false) {stop : Byte}
    (stops : endsField stop = true) (behind : List Byte) (fits : name.length < room) :
    fat16ConvertSpacesToNull (name ++ stop :: behind) room = some name := by
  induction name generalizing room with
  | nil =>
      have space : room ≠ 0 := Nat.ne_of_gt fits
      have either : stop = 0x00 ∨ stop = 0x20 := by simpa [endsField] using stops
      rcases either with rfl | rfl <;> simp [fat16ConvertSpacesToNull, space]
  | cons c name ih =>
      obtain ⟨inside, others⟩ := List.forall_mem_cons.mp chars
      simp only [List.length_cons] at fits
      have bytes : c ≠ 0x00 ∧ c ≠ 0x20 := by simpa [endsField] using inside
      rw [List.cons_append, fat16ConvertSpacesToNull, if_neg bytes.1, if_neg (by omega), if_neg bytes.2,
        ih others (by omega)]
      rfl

theorem convert_append (read : fat16ConvertSpacesToNull input room = some name) (behind : List Byte) :
    fat16ConvertSpacesToNull (input ++ behind) room = some name := by
  fun_induction fat16ConvertSpacesToNull input room generalizing name with
  | case1 => cases read
  | case2 => exact read
  | case3 => cases read
  | case4 room _ full _ => simpa [fat16ConvertSpacesToNull, full] using read
  | case5 c input room nonzero full char ih =>
      obtain ⟨rest, later, rfl⟩ := Option.map_eq_some_iff.mp read
      rw [List.cons_append, fat16ConvertSpacesToNull, if_neg nonzero, if_neg full, if_neg char, ih later]
      rfl

/-- Nothing is read behind a zero. -/
theorem convert_zero (input behind behind' : List Byte) (room : Nat) :
    fat16ConvertSpacesToNull (input ++ 0 :: behind) room =
      fat16ConvertSpacesToNull (input ++ 0 :: behind') room := by
  induction input generalizing room with
  | nil => rfl
  | cons c input ih => rw [List.cons_append, List.cons_append, fat16ConvertSpacesToNull,
      fat16ConvertSpacesToNull, ih]

end Convert

section Name

variable {rawEntry name : List Byte} {maxlen : Nat}

/-- What the two fields are read as, when they are read. -/
inductive NameParts (rawEntry : List Byte) (maxlen : Nat) : List Byte → Prop where
  | base {base : List Byte} {ext0 : Byte} (read : fat16ConvertSpacesToNull rawEntry maxlen = some base)
      (field : rawEntry[8]? = some ext0) (ends : endsField ext0 = true) : NameParts rawEntry maxlen base
  | ext {base ext : List Byte} {ext0 : Byte} (read : fat16ConvertSpacesToNull rawEntry maxlen = some base)
      (field : rawEntry[8]? = some ext0) (begins : endsField ext0 = false) (room : base.length < maxlen)
      (readExt : fat16ConvertSpacesToNull (rawEntry.drop 8) (maxlen - base.length - 1) = some ext) :
      NameParts rawEntry maxlen (base ++ 0x2E :: ext)

theorem writtenName_eq_some : writtenName rawEntry maxlen = some name ↔ NameParts rawEntry maxlen name := by
  constructor
  · intro written
    obtain ⟨base, read, rest⟩ := Option.bind_eq_some_iff.mp written
    obtain ⟨ext0, field, rest⟩ := Option.bind_eq_some_iff.mp rest
    split at rest
    case isTrue ends =>
      cases rest
      exact .base read field ends
    case isFalse begins =>
      split at rest
      case isTrue => cases rest
      case isFalse room =>
        obtain ⟨ext, readExt, rest⟩ := Option.bind_eq_some_iff.mp rest
        cases rest
        exact .ext read field (by simpa using begins) (not_le.mp room) readExt
  · intro parts
    cases parts with
    | base read field ends => simp [writtenName, read, field, ends]
    | ext read field begins room readExt =>
        simp [writtenName, read, field, begins, not_le.mpr room, readExt]

theorem NameParts.append (parts : NameParts rawEntry maxlen name) (behind : List Byte) :
    NameParts (rawEntry ++ behind) maxlen name := by
  have field : ∀ {ext0 : Byte}, rawEntry[8]? = some ext0 → (rawEntry ++ behind)[8]? = some ext0 := by
    intro ext0 field
    rw [List.getElem?_append_left (List.getElem?_eq_some_iff.mp field).1, field]
  cases parts with
  | base read here ends => exact .base (convert_append read behind) (field here) ends
  | ext read here begins room readExt =>
      refine .ext (convert_append read behind) (field here) begins room ?_
      have long : 8 ≤ rawEntry.length := Nat.le_of_lt (List.getElem?_eq_some_iff.mp here).1
      rw [List.drop_append_of_le_length long]
      exact convert_append readExt behind

theorem writtenName_zero {input : List Byte} (long : 8 < input.length) (behind behind' : List Byte)
    (maxlen : Nat) :
    writtenName (input ++ 0 :: behind) maxlen = writtenName (input ++ 0 :: behind') maxlen := by
  have ext : ∀ more : List Byte, (input ++ 0 :: more).drop 8 = input.drop 8 ++ 0 :: more :=
    fun more => List.drop_append_of_le_length long.le
  rw [writtenName, writtenName, convert_zero input behind behind', List.getElem?_append_left long,
    List.getElem?_append_left long, ext, ext]
  simp only [convert_zero (input.drop 8) behind behind']

/-- The mark of a deleted entry is the first character of its name. -/
theorem NameParts.deleted_iff (parts : NameParts rawEntry maxlen name) :
    name.headD 0 = 0xE5 ↔ rawEntry.headD 0 = 0xE5 := by
  have field : ∀ {base : List Byte} (more : List Byte), more.headD 0 ≠ 0xE5 →
      fat16ConvertSpacesToNull rawEntry maxlen = some base →
      ((base ++ more).headD 0 = 0xE5 ↔ rawEntry.headD 0 = 0xE5) := by
    intro base more other read
    obtain ⟨chars, -⟩ := convert_eq_takeWhile read
    cases rawEntry with
    | nil => cases read
    | cons c rest =>
        by_cases ends : endsField c = true
        · have stop : c ≠ 0xE5 := by
            rintro rfl
            exact absurd ends (by decide)
          have none : base = [] := by simp [chars, ends]
          simpa [none] using iff_of_false other stop
        · rw [List.takeWhile_cons_of_pos (by simp [ends])] at chars
          rw [chars]
          rfl
  cases parts with
  | base read => simpa using field [] (by decide) read
  | ext read => exact field _ (show (0x2E : Byte) ≠ 0xE5 by decide) read

theorem NameParts.length_le (parts : NameParts rawEntry maxlen name) : name.length ≤ maxlen := by
  cases parts with
  | base read => exact (convert_eq_takeWhile read).2
  | ext read _ _ room readExt =>
      have short := (convert_eq_takeWhile readExt).2
      simp only [List.length_append, List.length_cons]
      omega

theorem not_endsField_of_mem_takeWhile {input : List Byte} {c : Byte}
    (mem : c ∈ input.takeWhile fun c => !endsField c) : endsField c = false := by
  simpa using List.mem_takeWhile_imp mem

/-- No name has a zero in it. -/
theorem NameParts.zero_notMem (parts : NameParts rawEntry maxlen name) : (0 : Byte) ∉ name := by
  have field : ∀ {input room base}, fat16ConvertSpacesToNull input room = some base → (0 : Byte) ∉ base := by
    intro input room base read zero
    rw [(convert_eq_takeWhile read).1] at zero
    exact absurd (not_endsField_of_mem_takeWhile zero) (by decide)
  cases parts with
  | base read => exact field read
  | ext read _ _ _ readExt =>
      simp only [List.mem_append, List.mem_cons, not_or]
      exact ⟨field read, by decide, field readExt⟩

end Name

/-! ## Names in 8.3 form -/

/-- An entry whose name and extension are stored the way FAT16 stores them. -/
structure ShortEntry where
  base : List Byte
  ext : List Byte
  attributes : Byte
  others : List Byte
  base_length : 1 ≤ base.length ∧ base.length ≤ 8
  ext_length : ext.length ≤ 3
  base_chars : ∀ c ∈ base, endsField c = false
  ext_chars : ∀ c ∈ ext, endsField c = false
  others_length : others.length = 20

namespace ShortEntry

/-- The 32 bytes of the entry. -/
def bytes (e : ShortEntry) : List Byte :=
  (e.base ++ List.replicate (8 - e.base.length) 0x20) ++
    (e.ext ++ List.replicate (3 - e.ext.length) 0x20) ++ e.attributes :: e.others

/-- What users call the file. -/
def text (e : ShortEntry) : List Byte := if e.ext = [] then e.base else e.base ++ 0x2E :: e.ext

/-- The buffer holds the text and nothing but zeros behind it. -/
def Decoded (e : ShortEntry) (buffer : List Byte) : Prop :=
  buffer = e.text ++ List.replicate (maxFilePathChars - e.text.length) 0

/-- Whatever lies behind the entry in memory. -/
def Faithful (e : ShortEntry) : Prop :=
  ∀ behind, ∃ buffer, fat16GetFilename (e.bytes ++ behind) maxFilePathChars = some buffer ∧
    e.Decoded buffer

/-- The name ends before the extension, and the extension before the attribute. -/
def Delimited (e : ShortEntry) : Prop :=
  (e.base.length < 8 ∨ e.ext = []) ∧ (e.ext.length < 3 ∨ endsField e.attributes = true)

variable (e : ShortEntry)

theorem zero_notMem_text : (0 : Byte) ∉ e.text := by
  have field : ∀ {l : List Byte}, (∀ c ∈ l, endsField c = false) → (0 : Byte) ∉ l :=
    fun chars zero => absurd (chars 0 zero) (by decide)
  rw [text]
  split
  case isTrue => exact field e.base_chars
  case isFalse =>
    simp only [List.mem_append, List.mem_cons, not_or]
    exact ⟨field e.base_chars, by decide, field e.ext_chars⟩

theorem drop_bytes (behind : List Byte) :
    (e.bytes ++ behind).drop 8 =
      e.ext ++ (List.replicate (3 - e.ext.length) 0x20 ++ e.attributes :: e.others ++ behind) := by
  have base := e.base_length
  have eight : (e.base ++ List.replicate (8 - e.base.length) (0x20 : Byte)).length = 8 := by
    simp only [List.length_append, List.length_replicate]
    omega
  rw [bytes, List.append_assoc, List.append_assoc, List.drop_left' eight]
  simp

/-- The bytes behind the name, when it is not read into the extension. -/
theorem bytes_of_base (ends : e.base.length < 8 ∨ e.ext = []) (behind : List Byte) :
    ∃ rest, e.bytes ++ behind = e.base ++ 0x20 :: rest := by
  have base := e.base_length
  rw [bytes]
  rcases Nat.lt_or_ge e.base.length 8 with short | full
  · obtain ⟨k, pad⟩ := Nat.exists_eq_succ_of_ne_zero (Nat.sub_ne_zero_of_lt short)
    simp [pad, List.replicate_succ]
  · have noExt : e.ext = [] := ends.resolve_left (by omega)
    simp [noExt, Nat.sub_eq_zero_of_le full, List.replicate_succ]

theorem bytes_of_ext (ends : e.ext.length < 3 ∨ endsField e.attributes = true) (behind : List Byte) :
    ∃ stop rest, endsField stop = true ∧ (e.bytes ++ behind).drop 8 = e.ext ++ stop :: rest := by
  have ext := e.ext_length
  rw [drop_bytes]
  rcases Nat.lt_or_ge e.ext.length 3 with short | full
  · obtain ⟨k, pad⟩ := Nat.exists_eq_succ_of_ne_zero (Nat.sub_ne_zero_of_lt short)
    refine ⟨0x20, List.replicate k 0x20 ++ e.attributes :: e.others ++ behind, by decide, ?_⟩
    simp [pad, List.replicate_succ]
  · refine ⟨e.attributes, e.others ++ behind, ends.resolve_left (by omega), ?_⟩
    simp [Nat.sub_eq_zero_of_le full]

theorem getElem?_eight (behind : List Byte) :
    (e.bytes ++ behind)[8]? = some (e.ext.headD 0x20) := by
  have head : (e.bytes ++ behind)[8]? = ((e.bytes ++ behind).drop 8).head? := by
    simp [List.head?_drop]
  rw [head, drop_bytes]
  cases e.ext with
  | nil => rfl
  | cons c ext => rfl

theorem endsField_headD : endsField (e.ext.headD 0x20) = decide (e.ext = []) := by
  have chars := e.ext_chars
  cases field : e.ext with
  | nil => rfl
  | cons c ext =>
      rw [field] at chars
      simpa using chars c List.mem_cons_self

theorem written_of_delimited (delimited : e.Delimited) (behind : List Byte) :
    writtenName (e.bytes ++ behind) maxFilePathChars = some e.text := by
  have base := e.base_length
  have ext := e.ext_length
  have size : maxFilePathChars = 128 := rfl
  obtain ⟨rest, bytes⟩ := e.bytes_of_base delimited.1 behind
  have read : fat16ConvertSpacesToNull (e.bytes ++ behind) maxFilePathChars = some e.base := by
    rw [bytes]
    exact convert_of_ends e.base_chars (by decide) rest (by omega)
  rw [writtenName_eq_some, text]
  split
  case isTrue noExt =>
    exact .base read (e.getElem?_eight behind) (e.endsField_headD.trans (decide_eq_true noExt))
  case isFalse hasExt =>
    obtain ⟨stop, after, stops, field⟩ := e.bytes_of_ext delimited.2 behind
    refine .ext read (e.getElem?_eight behind) (e.endsField_headD.trans (decide_eq_false hasExt))
      (by omega) ?_
    rw [field]
    exact convert_of_ends e.ext_chars stops after (by omega)

theorem takeWhile_of_chars {l : List Byte} (chars : ∀ c ∈ l, endsField c = false) (more : List Byte) :
    (l ++ more).takeWhile (fun c => !endsField c) = l ++ more.takeWhile fun c => !endsField c :=
  List.takeWhile_append_of_pos fun c mem => by simp [chars c mem]

/-- A field that runs into the next one makes the name too long. -/
theorem text_lt_written (delimited : ¬ e.Delimited) {behind name : List Byte}
    (written : writtenName (e.bytes ++ behind) maxFilePathChars = some name) :
    e.text.length < name.length := by
  have base := e.base_length
  have ext := e.ext_length
  have hasExt : e.ext ≠ [] := by
    intro noExt
    exact delimited ⟨.inr noExt, .inl (by simp [noExt])⟩
  have counted : e.text.length = e.base.length + 1 + e.ext.length := by
    rw [text, if_neg hasExt]
    simp only [List.length_append, List.length_cons]
    omega
  cases writtenName_eq_some.mp written with
  | base _ field ends =>
      rw [e.getElem?_eight] at field
      cases field
      rw [e.endsField_headD] at ends
      exact absurd (of_decide_eq_true ends) hasExt
  | ext read _ _ _ readExt =>
      rw [(convert_eq_takeWhile read).1, (convert_eq_takeWhile readExt).1, e.drop_bytes,
        takeWhile_of_chars e.ext_chars, bytes, List.append_assoc, List.append_assoc, List.append_assoc,
        takeWhile_of_chars e.base_chars]
      by_cases short : e.base.length < 8
      · have full : ¬ e.ext.length < 3 := fun ends => delimited ⟨.inl short, .inl ends⟩
        have runsOn : endsField e.attributes = false :=
          Bool.eq_false_iff.mpr fun ends => delimited ⟨.inl short, .inr ends⟩
        simp [counted, Nat.sub_eq_zero_of_le (not_lt.mp full), runsOn]
        omega
      · have positive : 0 < e.ext.length := List.length_pos_iff.mpr hasExt
        rw [Nat.sub_eq_zero_of_le (not_lt.mp short), List.replicate_zero, List.nil_append,
          List.append_assoc e.ext, takeWhile_of_chars e.ext_chars]
        simp only [List.length_append, List.length_cons]
        omega

end ShortEntry

/-- Names without zeros are told apart in a cleared buffer. -/
theorem eq_of_buffer_eq {a b : List Byte} (ha : (0 : Byte) ∉ a) (hb : (0 : Byte) ∉ b) {m n : Nat}
    (same : a ++ List.replicate m 0 = b ++ List.replicate n 0) : a = b := by
  have cut : ∀ {l : List Byte} {k : Nat}, (0 : Byte) ∉ l →
      (l ++ List.replicate k 0).takeWhile (fun c => decide (c ≠ 0)) = l := by
    intro l k nonzero
    have inside : ∀ c ∈ l, decide (c ≠ 0) = true := by
      intro c mem
      exact decide_eq_true fun zero => nonzero (zero ▸ mem)
    rw [List.takeWhile_append_of_pos inside]
    cases k <;> simp [List.replicate_succ]
  rw [← cut ha (k := m), same, cut hb]

namespace ShortEntry

variable (e : ShortEntry)

theorem faithful_iff : e.Faithful ↔ e.Delimited := by
  constructor
  · intro faithful
    by_contra delimited
    obtain ⟨buffer, read, rfl⟩ := faithful []
    obtain ⟨name, written, same⟩ := Option.map_eq_some_iff.mp read
    have parts := writtenName_eq_some.mp written
    have text := eq_of_buffer_eq parts.zero_notMem e.zero_notMem_text same
    have longer := e.text_lt_written delimited written
    rw [text] at longer
    exact lt_irrefl _ longer
  · intro delimited behind
    exact ⟨_, by rw [fat16GetFilename, e.written_of_delimited delimited behind, Option.map_some], rfl⟩

/-- Both names are decoded, and different names and extensions give different buffers. -/
def DecodedApart (e f : ShortEntry) : Prop :=
  e.Faithful ∧ f.Faithful ∧
    ((e.base, e.ext) ≠ (f.base, f.ext) → ∀ behind behind' : List Byte,
      fat16GetFilename (e.bytes ++ behind) maxFilePathChars ≠
        fat16GetFilename (f.bytes ++ behind') maxFilePathChars)

/-- A dot that is a character of a name is not told from the one between the fields. -/
theorem text_injective (f : ShortEntry) (he : (0x2E : Byte) ∉ e.base) (hf : (0x2E : Byte) ∉ f.base)
    (same : e.text = f.text) : (e.base, e.ext) = (f.base, f.ext) := by
  have cut : ∀ (g : ShortEntry), (0x2E : Byte) ∉ g.base →
      g.text.takeWhile (fun c => decide (c ≠ 0x2E)) = g.base := by
    intro g clean
    have inside : ∀ c ∈ g.base, decide (c ≠ 0x2E) = true := by
      intro c mem
      exact decide_eq_true fun dot => clean (dot ▸ mem)
    rw [text]
    split
    case isTrue => exact List.takeWhile_eq_self_iff.mpr inside
    case isFalse =>
      rw [List.takeWhile_append_of_pos inside]
      simp
  have base : e.base = f.base := by rw [← cut e he, same, cut f hf]
  have ext : e.ext = f.ext := by
    rw [text, text, base] at same
    split at same
    case isTrue noExt =>
      split at same
      case isTrue noExt' => rw [noExt, noExt']
      case isFalse => simp at same
    case isFalse =>
      split at same
      case isTrue => simp at same
      case isFalse => simpa using same
  rw [base, ext]

/-- Two entries are decoded faithfully, and told apart, exactly when in each the fields end
    where they should, and the texts that users see differ. -/
theorem filename_faithful_iff (e f : ShortEntry) :
    DecodedApart e f ↔ e.Delimited ∧ f.Delimited ∧ ((e.base, e.ext) ≠ (f.base, f.ext) → e.text ≠ f.text) := by
  rw [DecodedApart, faithful_iff, faithful_iff]
  refine and_congr_right fun delimited => and_congr_right fun delimited' => imp_congr_right fun _ => ?_
  simp only [fat16GetFilename, e.written_of_delimited delimited, f.written_of_delimited delimited',
    Option.map_some]
  constructor
  · intro apart same
    exact apart [] [] (by rw [same])
  · intro differ _ _ same
    exact differ (eq_of_buffer_eq e.zero_notMem_text f.zero_notMem_text (Option.some.inj same))

end ShortEntry

/-- `PROGRAM1.ELF`, with the archive flag. -/
def program1Elf : ShortEntry where
  base := [0x50, 0x52, 0x4F, 0x47, 0x52, 0x41, 0x4D, 0x31]
  ext := [0x45, 0x4C, 0x46]
  attributes := 0x20
  others := List.replicate 20 0
  base_length := by decide
  ext_length := by decide
  base_chars := by decide
  ext_chars := by decide
  others_length := by decide

/-- It is read as `PROGRAM1ELF.ELF`. -/
theorem filename_unfaithful_program1 :
    writtenName program1Elf.bytes maxFilePathChars =
        some (program1Elf.base ++ program1Elf.ext ++ 0x2E :: program1Elf.ext) ∧
      ¬ ShortEntry.DecodedApart program1Elf program1Elf := by
  refine ⟨by decide, fun decoded => ?_⟩
  have delimited := program1Elf.faithful_iff.mp decoded.1
  exact absurd delimited.1 (by decide)

end ConiferOS.Fs
