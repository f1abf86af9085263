import Fiskas.Native.Serializer

/-!
# The headers-first writer

`cemetery/main_v2.cc`: an earlier serializer, which writes the section headers in front of the
bodies. A header field whose value is not known yet is written as it is, and its position is
recorded under a label. When the value becomes known, a fix with that label is recorded, and
`dump_to` runs the fixes.

The structures `SectionHeader` of this file and `ElfHeader` of `cemetery/assembler/elf.hh` have
the fields of those of `elf/elf_types.hh`, which stand for them here.
-/

namespace Fiskas.MainV2

/-! ## Sections -/

/-- `enum struct SectionType`. -/
inductive SectionType where
  | sectionHeaderStringTable | null | text | symTab | symTabStringTable | invalid
deriving DecidableEq, Repr

/-- `Section`. -/
structure Section where
  name : ByteVec := []
  header : SectionHeader := {}
  body : ByteVec := []
  type : SectionType := .invalid
deriving DecidableEq, Repr

/-- The constructor of `fiska::elf::ElfHeader`. -/
def newElfHeader : ElfHeader where
  eIdent := #v[0x7f, 0x45, 0x4c, 0x46, 2, 1, 1, 3, 0, 0, 0, 0, 0, 0, 0, 0]
  eType := 1
  eMachine := 62
  eEhsize := 64
  eShentsize := 64

/-! ## Relocations -/

/-- `enum struct ElfHeaderRelocationLabel`. -/
inductive ElfHeaderRelocationLabel where
  | sectionHeaderTableOffset | sectionHeaderStringTableIdx | numberOfSectionHeaders | invalid
deriving DecidableEq, Repr

/-- `SectionRelocationLabel::Label`. -/
inductive SectionRelocationLabel.Label where
  | sectionName | sectionOffset | sectionSize | invalid
deriving DecidableEq, Repr

/-- `SectionRelocationLabel`. -/
structure SectionRelocationLabel where
  sectionType : SectionType := .invalid
  label : SectionRelocationLabel.Label := .invalid
deriving DecidableEq, Repr

/-- `Relocation::LabelType`, a variant. -/
inductive LabelType where
  | ofElfHeader (label : ElfHeaderRelocationLabel)
  | ofSection (label : SectionRelocationLabel)
deriving DecidableEq, Repr

/-- `Relocation`. -/
structure Relocation where
  offset : U64 := 0
  label : LabelType
deriving DecidableEq, Repr

/-- What the closure of `fix_relocation` captures: a label and a value of some width. -/
structure RelocationFix where
  label : LabelType
  width : Nat
  value : BitVec width

/-! ## Serializer -/

structure Serializer where
  out : ByteVec := []
  relocations : List Relocation := []
  relocationFixes : List RelocationFix := []

namespace Serializer

/-- `operator<<(T value)` for an unsigned integer. -/
instance (w : Nat) : HShiftLeft Serializer (BitVec w) Serializer where
  hShiftLeft ser value := { ser with out := Fiskas.Serializer.pushBytes ser.out value (w / 8) }

/-- `operator<<(T (&arr)[sz])`. -/
instance (sz : Nat) : HShiftLeft Serializer (Vector U8 sz) Serializer where
  hShiftLeft ser arr := { ser with out := extend ser.out arr.toList }

/-- `operator<<(const ByteVec &vec)`. -/
instance : HShiftLeft Serializer ByteVec Serializer where
  hShiftLeft ser vec := { ser with out := extend ser.out vec }

/-- `fix_relocation(label, value)`. -/
def fixRelocation {w : Nat} (ser : Serializer) (label : LabelType) (value : BitVec w) :
    Serializer :=
  { ser with relocationFixes := ser.relocationFixes ++ [{ label, width := w, value }] }

/-- Push a relocation at the end of the output. -/
def pushRelocation (ser : Serializer) (label : LabelType) : Serializer :=
  { ser with relocations := ser.relocations ++ [{ offset := ByteVec.size ser.out, label }] }

instance : HShiftLeft Serializer ElfHeader Serializer where
  hShiftLeft ser elfHeader :=
    let ser := ser <<< elfHeader.eIdent
      <<< elfHeader.eType
      <<< elfHeader.eMachine
      <<< elfHeader.eVersion
      <<< elfHeader.eEntry
      <<< elfHeader.ePhoff
    let ser := ser.pushRelocation (.ofElfHeader .sectionHeaderTableOffset)
    let ser := ser <<< elfHeader.eShoff
    let ser := ser <<< elfHeader.eFlags
      <<< elfHeader.eEhsize
      <<< elfHeader.ePhentsize
      <<< elfHeader.ePhnum
      <<< elfHeader.eShentsize
    let ser := ser.pushRelocation (.ofElfHeader .numberOfSectionHeaders)
    let ser := ser <<< elfHeader.eShnum
    let ser := ser.pushRelocation (.ofElfHeader .sectionHeaderStringTableIdx)
    ser <<< elfHeader.eShstrndx

/-! ## Section header table -/

/-- One round of the loop over the section headers. -/
def serializeHeader (ser : Serializer) (sec : Section) : Serializer :=
  let ser := ser.pushRelocation (.ofSection ⟨sec.type, .sectionName⟩)
  let ser := ser <<< sec.header.shName
  let ser := ser <<< sec.header.shType
    <<< sec.header.shFlags
    <<< sec.header.shAddr
  let ser := ser.pushRelocation (.ofSection ⟨sec.type, .sectionOffset⟩)
  let ser := ser <<< sec.header.shOffset
  let ser := ser.pushRelocation (.ofSection ⟨sec.type, .sectionSize⟩)
  let ser := ser <<< sec.header.shSize
  ser <<< sec.header.shLink
    <<< sec.header.shInfo
    <<< sec.header.shAddralign
    <<< sec.header.shEntsize

/-- `serialize_section(section)`. The argument is a reference into the table, so it is an index
    here, and the section is read behind the extension of the string table, which it may be. -/
def serializeSection {n : Nat} (shStrtabIdx : Fin n) (acc : Serializer × Vector Section n)
    (i : Fin n) : Serializer × Vector Section n :=
  let (ser, table) := acc
  let shStrtab := table.get shStrtabIdx
  let nameOffset := ByteVec.size shStrtab.body
  let table := table.set shStrtabIdx
    { shStrtab with body := extend shStrtab.body (table.get i).name } shStrtabIdx.isLt
  let sec := table.get i
  let ser := ser.fixRelocation (.ofSection ⟨sec.type, .sectionName⟩) (nameOffset.setWidth 32)
  let ser := ser.fixRelocation (.ofSection ⟨sec.type, .sectionSize⟩) (ByteVec.size sec.body)
  let ser := ser.fixRelocation (.ofSection ⟨sec.type, .sectionOffset⟩) (ByteVec.size ser.out)
  (ser <<< sec.body, table)

/-- One round of the loop over the section bodies: the string table is left for the end. -/
def serializeSectionRound {n : Nat} (shStrtabIdx : Fin n) (acc : Serializer × Vector Section n)
    (i : Fin n) : Serializer × Vector Section n :=
  if (acc.2.get i).type = .sectionHeaderStringTable then acc else serializeSection shStrtabIdx acc i

/-- `operator<<(std::span<Section> section_header_table)`. It also returns the table, whose
    string table it extends. -/
def serializeTable {n : Nat} (ser : Serializer) (table : Vector Section n) :
    Except Stop (Serializer × Vector Section n) :=
  let ser := ser.fixRelocation (.ofElfHeader .numberOfSectionHeaders) (BitVec.ofNat 16 n)
  let ser := ser.fixRelocation (.ofElfHeader .sectionHeaderTableOffset) (ByteVec.size ser.out)
  match (List.finRange n).find? fun i => (table.get i).type = .sectionHeaderStringTable with
  | none => .error (.exit "Failed to find the section header strign table\n")
  | some shStrtabIdx =>
    let ser := ser.fixRelocation (.ofElfHeader .sectionHeaderStringTableIdx)
      (BitVec.ofNat 16 shStrtabIdx.val)
    let ser := table.toList.foldl serializeHeader ser
    let acc := (List.finRange n).foldl (serializeSectionRound shStrtabIdx) (ser, table)
    .ok (serializeSection shStrtabIdx acc shStrtabIdx)

end Serializer

/-! ## Running the fixes -/

/-- The loop of a fix: `out[pos + idx]` for the bytes of the value. -/
def patch (out : ByteVec) (pos : U64) : ByteVec → Except Stop ByteVec
  | [] => .ok out
  | byte :: bytes => do
    let out ← out.store pos.toNat byte
    patch out (pos + 1) bytes

/-- The bytes of the value, by a serializer of its own. -/
def RelocationFix.bytes (fix : RelocationFix) : ByteVec := (({} : Serializer) <<< fix.value).out

/-- The closure of `fix_relocation`. -/
def RelocationFix.run (fix : RelocationFix) (relocations : List Relocation) (out : ByteVec) :
    Except Stop ByteVec :=
  match relocations.find? fun reloc => reloc.label = fix.label with
  | none => .error (.exit "Failed to find relocation\n")
  | some reloc => patch out reloc.offset fix.bytes

/-- `dump_to`, up to the bytes that it hands to `File::write`. -/
def Serializer.dumpTo (ser : Serializer) : Except Stop ByteVec :=
  ser.relocationFixes.foldlM (fun out fix => fix.run ser.relocations out) ser.out

end Fiskas.MainV2
