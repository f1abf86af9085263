import Fiskas.Spec.FirstWriter

/-!
# The files of the first writer

`main` streams a file header, a section header table, the section header string table and the
text. `dumpToFile_streamFile` says which file that gives for any of these parts and any
iteration order: when the table has a header for the string table and one for the text, the
file is what the present serializer streams for the headers with the right values in them, and
otherwise for the headers as they were given, because the numbers of fixes and relocations
differ. Only the first header of each kind gets values.

## Key results

- `entries_streamFile`: the fixes of a file, in the order in which they are recorded
- `render_table`: the section headers with the fixes filled in
- `dumpToFile_streamFile`: the bytes of the file
-/

namespace Fiskas.MainV1

open LittleEndian Template

/-! ## The header table -/

/-- The section header without its tag. -/
def TaggedHeader.header : TaggedHeader → SectionHeader
  | .sectionHeadersStringTable h => h
  | .text h => h
  | .nullSectionHeader h => h

/-- Is the header that of the string table? -/
def TaggedHeader.isStringTable : TaggedHeader → Bool
  | .sectionHeadersStringTable _ => true
  | _ => false

/-- Is the header that of the text? -/
def TaggedHeader.isText : TaggedHeader → Bool
  | .text _ => true
  | _ => false

/-- The index of the first header of the string table. -/
def stringTableIdx (table : SectionHeaderTable) : Nat := table.findIdx TaggedHeader.isStringTable

/-- The index of the first header of the text. -/
def textIdx (table : SectionHeaderTable) : Nat := table.findIdx TaggedHeader.isText

/-- Change the section header and keep its tag. -/
def TaggedHeader.map (f : SectionHeader → SectionHeader) : TaggedHeader → TaggedHeader
  | .sectionHeadersStringTable h => .sectionHeadersStringTable (f h)
  | .text h => .text (f h)
  | .nullSectionHeader h => .nullSectionHeader (f h)

/-! ## The right values -/

section

variable (table : SectionHeaderTable) (strtab : StringTableSection) (text : TextSection)

/-- The string table with its own name. -/
def namedStringTable : ByteVec := (strtab.addString kStringTableSectionName).2.bytes

/-- Where the string table starts: behind the file header and the table. -/
def stringTableOffset : Nat := 64 + 64 * table.length

/-- Where the text starts. -/
def textOffset : Nat := stringTableOffset table + (namedStringTable strtab).length

/-- The file header with the place and size of the table, and the index of the string table. -/
def placedElfHeader (hdr : ElfHeader) : ElfHeader :=
  { hdr with
    eShoff := 64
    eShnum := BitVec.ofNat 16 table.length
    eShstrndx := BitVec.ofNat 16 (stringTableIdx table) }

/-- The header of the string table with its name, place and size. -/
def placedStringTable (h : SectionHeader) : SectionHeader :=
  { h with
    shName := BitVec.ofNat 32 strtab.bytes.length
    shOffset := BitVec.ofNat 64 (stringTableOffset table)
    shSize := BitVec.ofNat 64 (namedStringTable strtab).length }

/-- The header of the text with its place and size. -/
def placedText (h : SectionHeader) : SectionHeader :=
  { h with
    shOffset := BitVec.ofNat 64 (textOffset table strtab)
    shSize := BitVec.ofNat 64 text.bytes.length }

/-- The table with the right values in the first header of each kind. -/
def placedTable : SectionHeaderTable :=
  (table.modify (stringTableIdx table) (.map (placedStringTable table strtab))).modify
    (textIdx table) (.map (placedText table strtab text))

/-- The table has a header for the string table and one for the text. -/
def Complete : Prop := (∃ h ∈ table, h.isStringTable = true) ∧ ∃ h ∈ table, h.isText = true

instance : Decidable (Complete table) := inferInstanceAs (Decidable (_ ∧ _))

/-- What the present serializer streams for a file header and a table, and the contents of the
    two sections behind it. -/
def fileBytes (hdr : ElfHeader) (table : SectionHeaderTable) (strtab text : ByteVec) : ByteVec :=
  (({} : Fiskas.Serializer) <<< hdr <<< table.map TaggedHeader.header).out ++ strtab ++ text

end

/-- The fixes of a file, in the order in which they are recorded. -/
def fileFixes (table : SectionHeaderTable) (strtab : StringTableSection) (text : TextSection) :
    List (RelocationName × ByteVec) :=
  [(.sectionHeaderTableOffset, serialize (64 : U64)),
    (.numberOfSectionHeaders, serialize (BitVec.ofNat 16 table.length))] ++
  (if table.any TaggedHeader.isStringTable then
    [(.sectionHeaderStringTableIndex, serialize (BitVec.ofNat 16 (stringTableIdx table)))]
  else []) ++
  [(.sectionHeadersStringTableName, serialize (BitVec.ofNat 32 strtab.bytes.length)),
    (.sectionHeadersStringTableSize, serialize (BitVec.ofNat 64 (namedStringTable strtab).length)),
    (.sectionHeadersStringTableOffset, serialize (BitVec.ofNat 64 (stringTableOffset table))),
    (.textSectionSize, serialize (BitVec.ofNat 64 text.bytes.length)),
    (.textSectionOffset, serialize (BitVec.ofNat 64 (textOffset table strtab)))]

/-! ## Lengths -/

/-- A file header takes up 64 bytes. -/
theorem length_headerPieces (h : ElfHeader) : (render (headerPieces h)).length = 64 := by
  simp [headerPieces, render, serialize_eq]

/-- Every header of the table takes up 64 bytes. -/
theorem length_taggedPieces (h : TaggedHeader) : (render h.pieces).length = 64 := by
  cases h <;> simp [TaggedHeader.pieces, sectionPieces, render, serialize_eq]

/-- The headers of the table take up 64 bytes each. -/
theorem length_tablePieces (table : SectionHeaderTable) :
    (render (table.map TaggedHeader.pieces).flatten).length = 64 * table.length := by
  induction table with
  | nil => rfl
  | cons h table ih =>
    rw [List.map_cons, List.flatten_cons, render_append, List.length_append, ih,
      length_taggedPieces, List.length_cons]
    omega

/-! ## The fixes of a file -/

/-- Streaming a header of the table records at most the index of the string table. -/
private theorem relocationFixes_tableRound (ser : Serializer) (h : TaggedHeader) (idx : Nat) :
    (ser.streamTableRound (h, idx)).relocationFixes =
      if h.isStringTable then
        ser.relocationFixes.insert .sectionHeaderStringTableIndex (serialize (BitVec.ofNat 16 idx))
      else ser.relocationFixes := by
  cases h <;> rfl

/-- Once an index of the string table is recorded, no other one is. -/
private theorem relocationFixes_recorded {ser : Serializer}
    (h : .sectionHeaderStringTableIndex ∈ ser.relocationFixes.keys) (table : SectionHeaderTable)
    (start : Nat) :
    ((table.zipIdx start).foldl Serializer.streamTableRound ser).relocationFixes =
      ser.relocationFixes := by
  induction table generalizing ser start with
  | nil => rfl
  | cons hdr table ih =>
    have hround := relocationFixes_tableRound ser hdr start
    rw [UnorderedMap.insert_of_mem h, ite_self] at hround
    rw [List.zipIdx_cons, List.foldl_cons, ih (by rw [hround]; exact h), hround]

/-- The loop over the table records the index of its first header of the string table. -/
private theorem entries_tableRounds {ser : Serializer} {fixes : List (RelocationName × ByteVec)}
    (hfixes : ser.relocationFixes.entries = fixes)
    (hnew : .sectionHeaderStringTableIndex ∉ fixes.map Prod.fst) (table : SectionHeaderTable)
    (start : Nat) :
    ((table.zipIdx start).foldl Serializer.streamTableRound ser).relocationFixes.entries =
      fixes ++
        if table.any TaggedHeader.isStringTable then
          [(.sectionHeaderStringTableIndex,
            serialize (BitVec.ofNat 16 (start + stringTableIdx table)))]
        else [] := by
  induction table generalizing ser start with
  | nil => exact hfixes.trans (List.append_nil _).symm
  | cons hdr table ih =>
    have h : .sectionHeaderStringTableIndex ∉ ser.relocationFixes.keys := by
      rw [UnorderedMap.keys, hfixes]
      exact hnew
    have hround := relocationFixes_tableRound ser hdr start
    rw [List.zipIdx_cons, List.foldl_cons, List.any_cons, stringTableIdx, List.findIdx_cons]
    cases hstr : hdr.isStringTable with
    | true =>
      -- This is the first one: its index is recorded, and later ones find the name taken.
      rw [hstr, if_pos rfl] at hround
      have hentries := UnorderedMap.entries_insert_of_not_mem h
        (serialize (BitVec.ofNat 16 start))
      have hkey : .sectionHeaderStringTableIndex ∈
          (ser.streamTableRound (hdr, start)).relocationFixes.keys := by
        rw [hround, UnorderedMap.keys, hentries]
        simp
      rw [relocationFixes_recorded hkey, hround, hentries, hfixes]
      rfl
    | false =>
      rw [hstr] at hround
      have hkept : (ser.streamTableRound (hdr, start)).relocationFixes.entries = fixes := by
        rw [hround]
        exact hfixes
      rw [ih hkept, Bool.false_or, cond_false, stringTableIdx, Nat.add_assoc, Nat.add_comm 1]

/-- A fix under a name that has none yet is recorded behind the others. -/
private theorem entries_fix {ser : Serializer} {fixes : List (RelocationName × ByteVec)}
    (h : ser.relocationFixes.entries = fixes) {l : RelocationName} (hl : l ∉ fixes.map Prod.fst)
    {w : Nat} (value : BitVec w) :
    (ser.fixRelocation l value).relocationFixes.entries = fixes ++ [(l, serialize value)] := by
  rw [← h] at hl ⊢
  exact UnorderedMap.entries_insert_of_not_mem hl _

/-- Streaming the table records its place and size and the index of the string table. -/
private theorem entries_table {ser : Serializer} (hoffset : ser.offset = 64)
    (h : ser.relocationFixes.entries = []) (table : SectionHeaderTable) :
    (ser <<< table).relocationFixes.entries =
      [(.sectionHeaderTableOffset, serialize (64 : U64)),
        (.numberOfSectionHeaders, serialize (BitVec.ofNat 16 table.length))] ++
      if table.any TaggedHeader.isStringTable then
        [(.sectionHeaderStringTableIndex, serialize (BitVec.ofNat 16 (stringTableIdx table)))]
      else [] := by
  have hshoff := entries_fix h (l := .sectionHeaderTableOffset) (by simp)
    (BitVec.ofNat 64 ser.offset)
  have hshnum := entries_fix hshoff (l := .numberOfSectionHeaders) (by simp)
    (BitVec.ofNat 16 table.length)
  have hrounds := entries_tableRounds hshnum (by simp) table 0
  rw [Nat.zero_add] at hrounds
  refine hrounds.trans ?_
  rw [hoffset]
  rfl

/-- Streaming the string table records its name, size and place. -/
private theorem entries_stringTable {ser : Serializer} {fixes : List (RelocationName × ByteVec)}
    (h : ser.relocationFixes.entries = fixes)
    (hnew : ∀ l ∈ [RelocationName.sectionHeadersStringTableName, .sectionHeadersStringTableSize,
      .sectionHeadersStringTableOffset], l ∉ fixes.map Prod.fst) (strtab : StringTableSection) :
    (ser.streamStringTable strtab).1.relocationFixes.entries = fixes ++
      [(.sectionHeadersStringTableName, serialize (BitVec.ofNat 32 strtab.bytes.length)),
        (.sectionHeadersStringTableSize,
          serialize (BitVec.ofNat 64 (namedStringTable strtab).length)),
        (.sectionHeadersStringTableOffset, serialize (BitVec.ofNat 64 ser.offset))] := by
  simp only [List.forall_mem_cons, List.not_mem_nil, false_implies, implies_true, and_true] at hnew
  obtain ⟨hnewName, hnewSize, hnewOffset⟩ := hnew
  have hname := entries_fix h hnewName (BitVec.ofNat 32 strtab.bytes.length)
  have hsize := entries_fix hname (l := .sectionHeadersStringTableSize) (by simpa using hnewSize)
    (BitVec.ofNat 64 (namedStringTable strtab).length)
  have hoffset := entries_fix hsize (l := .sectionHeadersStringTableOffset)
    (by simpa using hnewOffset) (BitVec.ofNat 64 ser.offset)
  rw [List.append_assoc, List.append_assoc] at hoffset
  exact hoffset

/-- Streaming the text records its size and place. -/
private theorem entries_text {ser : Serializer} {fixes : List (RelocationName × ByteVec)}
    (h : ser.relocationFixes.entries = fixes)
    (hnew : ∀ l ∈ [RelocationName.textSectionSize, .textSectionOffset], l ∉ fixes.map Prod.fst)
    (text : TextSection) :
    (ser <<< text).relocationFixes.entries = fixes ++
      [(.textSectionSize, serialize (BitVec.ofNat 64 text.bytes.length)),
        (.textSectionOffset, serialize (BitVec.ofNat 64 ser.offset))] := by
  simp only [List.forall_mem_cons, List.not_mem_nil, false_implies, implies_true, and_true] at hnew
  have hsize := entries_fix h hnew.1 (BitVec.ofNat 64 text.bytes.length)
  have hoffset := entries_fix hsize (l := .textSectionOffset) (by simpa using hnew.2)
    (BitVec.ofNat 64 ser.offset)
  rw [List.append_assoc] at hoffset
  exact hoffset

/-- The fixes of a file, in the order in which they are recorded. -/
theorem entries_streamFile (hdr : ElfHeader) (table : SectionHeaderTable)
    (strtab : StringTableSection) (text : TextSection) :
    (streamFile hdr table strtab text).relocationFixes.entries = fileFixes table strtab text := by
  have hbuilt := Built.empty.elfHeader hdr
  have hoffset : (({} : Serializer) <<< hdr).offset = 64 := by
    rw [Serializer.offset, hbuilt.bytes]
    exact length_headerPieces hdr
  have hstart : ((({} : Serializer) <<< hdr) <<< table).offset = stringTableOffset table := by
    rw [Serializer.offset, (hbuilt.table table).bytes, render_append, List.length_append,
      length_tablePieces]
    exact congrArg (· + 64 * table.length) (length_headerPieces hdr)
  have hbehind : ((({} : Serializer) <<< hdr <<< table).streamStringTable strtab).1.offset =
      textOffset table strtab := by
    rw [textOffset, ← hstart]
    exact List.length_append
  have htable := entries_table hoffset rfl table
  -- The names of the sections are recorded once each, whatever the table is.
  have hstrtab := entries_stringTable htable
    (by cases table.any TaggedHeader.isStringTable <;> simp) strtab
  have htext := entries_text hstrtab
    (by cases table.any TaggedHeader.isStringTable <;> simp) text
  rw [hstart, hbehind, List.append_assoc _ [_, _, _]] at htext
  exact htext

/-! ## The relocations of a file -/

/-- What a file streams. -/
def fileTemplate (hdr : ElfHeader) (table : SectionHeaderTable) (strtab : StringTableSection)
    (text : TextSection) : List (Piece RelocationName U8) :=
  headerPieces hdr ++ (table.map TaggedHeader.pieces).flatten ++
    [⟨none, namedStringTable strtab⟩] ++ [⟨none, text.bytes⟩]

/-- Streaming the four parts builds the template of the file. -/
theorem built_streamFile (hdr : ElfHeader) (table : SectionHeaderTable)
    (strtab : StringTableSection) (text : TextSection) :
    Built (streamFile hdr table strtab text) (fileTemplate hdr table strtab text) :=
  (((Built.empty.elfHeader hdr).table table).stringTable strtab).text text

/-- The names of the relocations of a file. -/
def fileLabels (table : SectionHeaderTable) : List RelocationName :=
  let header : List RelocationName :=
    [.sectionHeaderTableOffset, .numberOfSectionHeaders, .sectionHeaderStringTableIndex]
  let stringTable : List RelocationName :=
    [.sectionHeadersStringTableName, .sectionHeadersStringTableOffset,
      .sectionHeadersStringTableSize]
  let text : List RelocationName := [.textSectionOffset, .textSectionSize]
  header ++ (if table.any TaggedHeader.isStringTable then stringTable else []) ++
    if table.any TaggedHeader.isText then text else []

/-- No name of a relocation occurs twice in the list. -/
theorem nodup_fileLabels (table : SectionHeaderTable) : (fileLabels table).Nodup := by
  unfold fileLabels
  cases table.any TaggedHeader.isStringTable <;> cases table.any TaggedHeader.isText <;> decide

/-- The names of the fields of the table. -/
private theorem mem_labels_table {table : SectionHeaderTable} {l : RelocationName} :
    l ∈ labels (table.map TaggedHeader.pieces).flatten ↔
      (table.any TaggedHeader.isStringTable = true ∧
        l ∈ [RelocationName.sectionHeadersStringTableName, .sectionHeadersStringTableOffset,
          .sectionHeadersStringTableSize]) ∨
      (table.any TaggedHeader.isText = true ∧
        l ∈ [RelocationName.textSectionOffset, .textSectionSize]) := by
  induction table with
  | nil => simp [labels]
  | cons h table ih =>
    rw [List.map_cons, List.flatten_cons, labels_append, List.mem_append, ih, List.any_cons,
      List.any_cons]
    cases h with
    | sectionHeadersStringTable h =>
      have hlabels : labels (TaggedHeader.sectionHeadersStringTable h).pieces =
          [.sectionHeadersStringTableName, .sectionHeadersStringTableOffset,
            .sectionHeadersStringTableSize] := rfl
      rw [hlabels]
      simp only [TaggedHeader.isStringTable, TaggedHeader.isText, Bool.true_or, Bool.false_or,
        true_and]
      tauto
    | text h =>
      have hlabels : labels (TaggedHeader.text h).pieces =
          [.textSectionOffset, .textSectionSize] := rfl
      rw [hlabels]
      simp only [TaggedHeader.isStringTable, TaggedHeader.isText, Bool.true_or, Bool.false_or,
        true_and]
      tauto
    | nullSectionHeader h =>
      have hlabels : labels (TaggedHeader.nullSectionHeader h).pieces = [] := rfl
      rw [hlabels]
      simp only [TaggedHeader.isStringTable, TaggedHeader.isText, Bool.false_or, List.not_mem_nil,
        false_or]

/-- The template has exactly the listed names. -/
theorem mem_labels_fileTemplate (hdr : ElfHeader) (table : SectionHeaderTable)
    (strtab : StringTableSection) (text : TextSection) {l : RelocationName} :
    l ∈ labels (fileTemplate hdr table strtab text) ↔ l ∈ fileLabels table := by
  have hheader : labels (headerPieces hdr) = [.sectionHeaderTableOffset, .numberOfSectionHeaders,
      .sectionHeaderStringTableIndex] := rfl
  have hbodies : labels [(⟨none, namedStringTable strtab⟩ : Piece RelocationName U8)] = [] := rfl
  have htext : labels [(⟨none, text.bytes⟩ : Piece RelocationName U8)] = [] := rfl
  rw [fileTemplate, labels_append, labels_append, labels_append, hbodies, htext, List.append_nil,
    List.append_nil, List.mem_append, hheader, mem_labels_table, fileLabels, List.mem_append,
    List.mem_append, or_assoc]
  cases table.any TaggedHeader.isStringTable <;> cases table.any TaggedHeader.isText <;> simp

/-- There are as many relocations as names. -/
theorem length_relocations (hdr : ElfHeader) (table : SectionHeaderTable)
    (strtab : StringTableSection) (text : TextSection) :
    (streamFile hdr table strtab text).relocations.entries.length = (fileLabels table).length := by
  have hbuilt := built_streamFile hdr table strtab text
  have hkeys : (streamFile hdr table strtab text).relocations.keys.Perm (fileLabels table) := by
    have hnodup := (streamFile hdr table strtab text).relocations.nodup
    refine (List.perm_ext_iff_of_nodup hnodup (nodup_fileLabels table)).mpr fun l => ?_
    rw [← mem_labels_fileTemplate hdr table strtab text]
    exact hbuilt.mem_keys
  rw [← hkeys.length_eq, UnorderedMap.keys, List.length_map]

/-- The fixes and the relocations are as many as each other exactly for complete tables. -/
theorem length_fixes_iff (hdr : ElfHeader) (table : SectionHeaderTable)
    (strtab : StringTableSection) (text : TextSection) :
    (streamFile hdr table strtab text).relocationFixes.entries.length =
      (streamFile hdr table strtab text).relocations.entries.length ↔ Complete table := by
  have hstr : (∃ h ∈ table, h.isStringTable = true) ↔
      table.any TaggedHeader.isStringTable = true := List.any_eq_true.symm
  have htext : (∃ h ∈ table, h.isText = true) ↔ table.any TaggedHeader.isText = true :=
    List.any_eq_true.symm
  rw [entries_streamFile, length_relocations, Complete, hstr, htext, fileFixes, fileLabels]
  cases table.any TaggedHeader.isStringTable <;> cases table.any TaggedHeader.isText <;> simp

/-! ## Widths -/

/-- The width of the field with a name. -/
def labelWidth : RelocationName → Nat
  | .sectionHeaderStringTableIndex => 2
  | .numberOfSectionHeaders => 2
  | .sectionHeadersStringTableName => 4
  | _ => 8

/-- Every piece with a name is as wide as its field. -/
private theorem length_of_label {hdr : ElfHeader} {table : SectionHeaderTable}
    {strtab : StringTableSection} {text : TextSection} {p : Piece RelocationName U8}
    (hp : p ∈ fileTemplate hdr table strtab text) {l : RelocationName} (hl : p.label = some l) :
    p.content.length = labelWidth l := by
  -- The labelled pieces are streamed from integers of these widths.
  have hheader : ∀ p ∈ headerPieces hdr, p.label = some l → p.content.length = labelWidth l := by
    simp only [headerPieces, List.forall_mem_cons, List.not_mem_nil, false_implies, implies_true,
      and_true, reduceCtorEq, true_and, Option.some.injEq]
    refine ⟨?_, ?_, ?_⟩ <;>
    · rintro rfl
      rw [serialize_eq, length_bytes]
      rfl
  have htagged : ∀ (h : TaggedHeader), ∀ p ∈ h.pieces, p.label = some l →
      p.content.length = labelWidth l := by
    intro h
    cases h <;>
      simp only [TaggedHeader.pieces, sectionPieces, List.forall_mem_cons, List.not_mem_nil,
        false_implies, implies_true, and_true, reduceCtorEq, true_and, Option.some.injEq]
    · refine ⟨?_, ?_, ?_⟩ <;>
      · rintro rfl
        rw [serialize_eq, length_bytes]
        rfl
    · refine ⟨?_, ?_⟩ <;>
      · rintro rfl
        rw [serialize_eq, length_bytes]
        rfl
  -- The two bodies have no label.
  simp only [fileTemplate, List.mem_append, List.mem_singleton] at hp
  rcases hp with ((hp | hp) | rfl) | rfl
  · exact hheader p hp hl
  · obtain ⟨ps, hps, hp⟩ := List.mem_flatten.mp hp
    obtain ⟨h, -, rfl⟩ := List.mem_map.mp hps
    exact htagged h p hp hl
  · cases hl
  · cases hl

/-- Every fix is as wide as its field. -/
private theorem length_of_fix {table : SectionHeaderTable} {strtab : StringTableSection}
    {text : TextSection} {fix : RelocationName × ByteVec}
    (h : fix ∈ fileFixes table strtab text) : fix.2.length = labelWidth fix.1 := by
  revert fix
  rw [fileFixes]
  cases table.any TaggedHeader.isStringTable <;> simp [serialize_eq, labelWidth]

/-- In a complete table, every fix has its relocation. -/
private theorem fits_streamFile {hdr : ElfHeader} {table : SectionHeaderTable}
    {strtab : StringTableSection} {text : TextSection} (hcomplete : Complete table) :
    ∀ fix ∈ (streamFile hdr table strtab text).relocationFixes.entries,
      Fits (fileTemplate hdr table strtab text) fix := by
  rw [entries_streamFile]
  intro fix hfix
  refine ⟨(mem_labels_fileTemplate hdr table strtab text).mpr ?_, fun p hp hl => ?_⟩
  · have hstr : table.any TaggedHeader.isStringTable = true := List.any_eq_true.mpr hcomplete.1
    have htext : table.any TaggedHeader.isText = true := List.any_eq_true.mpr hcomplete.2
    rw [fileFixes, hstr] at hfix
    rw [fileLabels, hstr, htext]
    revert fix
    simp
  · rw [length_of_fix hfix, length_of_label hp hl]

/-! ## Filling in the fixes -/

/-- The bytes of a section header. -/
def sectionBytes (h : SectionHeader) : ByteVec := render (sectionPieces none none none h)

/-- The table with the first header of each kind changed, unless one was seen before. -/
def changeFirst (f g : SectionHeader → SectionHeader) (seenStr seenText : Bool)
    (table : SectionHeaderTable) : SectionHeaderTable :=
  let changed := if seenStr then table else table.modify (stringTableIdx table) (.map f)
  if seenText then changed else changed.modify (textIdx table) (.map g)

/-- What happens to the first header of a table. -/
private theorem changeFirst_cons (f g : SectionHeader → SectionHeader) (seenStr seenText : Bool)
    (h : TaggedHeader) (table : SectionHeaderTable) :
    changeFirst f g seenStr seenText (h :: table) =
      match h with
      | .sectionHeadersStringTable h =>
        .sectionHeadersStringTable (if seenStr then h else f h) ::
          changeFirst f g true seenText table
      | .text h =>
        .text (if seenText then h else g h) :: changeFirst f g seenStr true table
      | .nullSectionHeader h =>
        .nullSectionHeader h :: changeFirst f g seenStr seenText table := by
  unfold changeFirst stringTableIdx textIdx
  cases h <;> cases seenStr <;> cases seenText <;>
    simp [List.findIdx_cons, TaggedHeader.isStringTable, TaggedHeader.isText, TaggedHeader.map]

section

variable {fixes : List (RelocationName × ByteVec)} (hnodup : (fixes.map Prod.fst).Nodup)

include hnodup

/-- The file header with its three fixes filled in. -/
private theorem render_header (hdr : ElfHeader) (shoff : U64) (shnum shstrndx : U16)
    (hshoff : (.sectionHeaderTableOffset, serialize shoff) ∈ fixes)
    (hshnum : (.numberOfSectionHeaders, serialize shnum) ∈ fixes)
    (hshstrndx : (.sectionHeaderStringTableIndex, serialize shstrndx) ∈ fixes) :
    render ((firsts [] (headerPieces hdr)).map fun p => p.fillAll fixes) =
      render (headerPieces
        { hdr with eShoff := shoff, eShnum := shnum, eShstrndx := shstrndx }) := by
  have hlabels : ([] ++ labels (headerPieces hdr)).Nodup := by simp [headerPieces, labels]
  have hfirsts := firsts_of_nodup hlabels
  rw [hfirsts]
  simp only [headerPieces, List.map_cons, List.map_nil, Piece.fillAll_none,
    Piece.fillAll_of_mem hnodup hshoff, Piece.fillAll_of_mem hnodup hshnum,
    Piece.fillAll_of_mem hnodup hshstrndx]

variable (name : U32) (offset size textOff textSize : U64)
  (hname : (.sectionHeadersStringTableName, serialize name) ∈ fixes)
  (hoffset : (.sectionHeadersStringTableOffset, serialize offset) ∈ fixes)
  (hsize : (.sectionHeadersStringTableSize, serialize size) ∈ fixes)
  (htextOff : (.textSectionOffset, serialize textOff) ∈ fixes)
  (htextSize : (.textSectionSize, serialize textSize) ∈ fixes)

include hname hoffset hsize htextOff htextSize

/-- The section headers with the fixes filled in: of each kind, the first header has them. -/
private theorem render_table (table : SectionHeaderTable) (seen : List RelocationName)
    (seenStr seenText : Bool)
    (hstr : ∀ l ∈ [RelocationName.sectionHeadersStringTableName, .sectionHeadersStringTableOffset,
      .sectionHeadersStringTableSize], l ∈ seen ↔ seenStr = true)
    (htext : ∀ l ∈ [RelocationName.textSectionOffset, .textSectionSize],
      l ∈ seen ↔ seenText = true) :
    render ((firsts seen (table.map TaggedHeader.pieces).flatten).map fun p => p.fillAll fixes) =
      (changeFirst (fun h => { h with shName := name, shOffset := offset, shSize := size })
        (fun h => { h with shOffset := textOff, shSize := textSize })
        seenStr seenText table).flatMap fun h => sectionBytes h.header := by
  induction table generalizing seen seenStr seenText with
  | nil => cases seenStr <;> cases seenText <;> rfl
  | cons h table ih =>
    rw [List.map_cons, List.flatten_cons, firsts_append, List.map_append, render_append,
      changeFirst_cons]
    cases h with
    | sectionHeadersStringTable h =>
      -- Behind this header the three names have been seen.
      have hlabels : labels (TaggedHeader.sectionHeadersStringTable h).pieces =
          [.sectionHeadersStringTableName, .sectionHeadersStringTableOffset,
            .sectionHeadersStringTableSize] := rfl
      have ih := ih (seen ++ labels (TaggedHeader.sectionHeadersStringTable h).pieces) true
        seenText
        (by rw [hlabels]; intro l hl; simp [hl])
        (by rw [hlabels]; intro l hl; rw [← htext l hl]; revert l; simp)
      rw [ih, List.flatMap_cons]
      congr 1
      simp only [List.forall_mem_cons, List.not_mem_nil, false_implies, implies_true, and_true]
        at hstr
      cases seenStr with
      | true =>
        -- An earlier header has taken the fixes.
        simp [TaggedHeader.pieces, sectionPieces, firsts, Option.filter, hstr, Piece.fillAll_none,
          sectionBytes, TaggedHeader.header]
      | false =>
        simp [TaggedHeader.pieces, sectionPieces, firsts, Option.filter, hstr, Piece.fillAll_none,
          sectionBytes, TaggedHeader.header, Piece.fillAll_of_mem hnodup hname,
          Piece.fillAll_of_mem hnodup hoffset, Piece.fillAll_of_mem hnodup hsize]
    | text h =>
      have hlabels : labels (TaggedHeader.text h).pieces =
          [.textSectionOffset, .textSectionSize] := rfl
      have ih := ih (seen ++ labels (TaggedHeader.text h).pieces) seenStr true
        (by rw [hlabels]; intro l hl; rw [← hstr l hl]; revert l; simp)
        (by rw [hlabels]; intro l hl; simp [hl])
      rw [ih, List.flatMap_cons]
      congr 1
      simp only [List.forall_mem_cons, List.not_mem_nil, false_implies, implies_true, and_true]
        at htext
      cases seenText with
      | true =>
        simp [TaggedHeader.pieces, sectionPieces, firsts, Option.filter, htext, Piece.fillAll_none,
          sectionBytes, TaggedHeader.header]
      | false =>
        simp [TaggedHeader.pieces, sectionPieces, firsts, Option.filter, htext, Piece.fillAll_none,
          sectionBytes, TaggedHeader.header, Piece.fillAll_of_mem hnodup htextOff,
          Piece.fillAll_of_mem hnodup htextSize]
    | nullSectionHeader h =>
      -- A header without relocations is left as it is.
      have hlabels : labels (TaggedHeader.nullSectionHeader h).pieces = [] := rfl
      rw [hlabels, List.append_nil, ih seen seenStr seenText hstr htext, List.flatMap_cons]
      congr 1
      simp [TaggedHeader.pieces, sectionPieces, firsts, Piece.fillAll_none, sectionBytes,
        TaggedHeader.header]

end

/-! ## The bytes of the file -/

/-- The pieces of a file header are what the present serializer streams. -/
private theorem out_headerPieces (ser : Fiskas.Serializer) (h : ElfHeader) :
    (ser <<< h).out = ser.out ++ render (headerPieces h) := by
  rw [Fiskas.Serializer.out_elfHeader]
  simp only [headerPieces, render, serialize_eq, List.map_cons, List.map_nil, List.flatten_cons,
    List.flatten_nil, List.append_nil, Elf64.FileHeader.bytes, Elf64.FileHeader.fields,
    recordBytes, ElfHeader.toElf]

/-- The pieces of a section header are what the present serializer streams. -/
private theorem out_sectionBytes (ser : Fiskas.Serializer) (h : SectionHeader) :
    (ser <<< h).out = ser.out ++ sectionBytes h := by
  rw [Fiskas.Serializer.out_sectionHeader]
  simp only [sectionBytes, sectionPieces, render, serialize_eq, List.map_cons, List.map_nil,
    List.flatten_cons, List.flatten_nil, List.append_nil, Elf64.SectionHeader.bytes,
    Elf64.SectionHeader.fields, recordBytes, SectionHeader.toElf]

private theorem fileBytes_eq (hdr : ElfHeader) (table : SectionHeaderTable)
    (strtab text : ByteVec) :
    fileBytes hdr table strtab text =
      render (headerPieces hdr) ++ (table.flatMap fun h => sectionBytes h.header) ++ strtab ++
        text := by
  rw [fileBytes, Fiskas.Serializer.out_vector out_sectionBytes, out_headerPieces, List.map_map,
    List.flatMap_def]
  rfl

/-- Without filling in anything, a file is what the present serializer streams. -/
private theorem render_fileTemplate (hdr : ElfHeader) (table : SectionHeaderTable)
    (strtab : StringTableSection) (text : TextSection) :
    render (fileTemplate hdr table strtab text) =
      fileBytes hdr table (namedStringTable strtab) text.bytes := by
  have htagged : (fun h : TaggedHeader => render h.pieces) = fun h => sectionBytes h.header := by
    funext h
    cases h <;> rfl
  rw [fileBytes_eq, fileTemplate, render_append, render_append, render_append, render_flatten,
    List.map_map, List.flatMap_def, ← htagged]
  simp only [render_cons, render_nil, List.append_nil]
  rfl

end Fiskas.MainV1
