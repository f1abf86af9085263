import Fiskas.ForStd.UnorderedMap
import Fiskas.Native.MainV2
import Fiskas.Native.Serializer

/-!
# The first writer

`cemetery/main.cc`: the first serializer. A field whose value is not known yet is written as it
is, and its position is kept in a map under the name of its relocation; the bytes that belong
there are kept in another map. Both maps keep what was inserted first. `dump_to_file` writes all of
these bytes over the output, in the iteration order of the second map, but only when the maps
have the same number of entries.

The maps are keyed by the underlying values of the names, which stand for the names here. The
iteration order of a hash map is left open, so `FixOrder` is any order of its entries. The
structures `ElfHeader` and `SectionHeader<T>` of `cemetery/assembler/elf.hh` have the fields of
those of `elf/elf_types.hh`, which stand for them; the constructor of `ElfHeader`, from the same
header file, is `MainV2.newElfHeader`. Positions are natural numbers: the elements of
a vector are far fewer than `2 ^ 64`.
-/

namespace Fiskas.MainV1

/-! ## Sections -/

/-- An element of a `SectionHeaderTable`: a variant of `SectionHeader<T>` for the three tags. -/
inductive TaggedHeader where
  | sectionHeadersStringTable (h : SectionHeader)
  | text (h : SectionHeader)
  | nullSectionHeader (h : SectionHeader)
deriving DecidableEq, Repr

/-- `SectionHeaderTable`. -/
abbrev SectionHeaderTable := List TaggedHeader

/-- `Section<SectionHeadersStringTable>`. -/
structure StringTableSection where
  bytes : ByteVec := [0x00]
deriving DecidableEq, Repr

/-- `add_string`. -/
def StringTableSection.addString (sec : StringTableSection) (sectionName : ByteVec) :
    Nat × StringTableSection :=
  (sec.bytes.length, { bytes := extend sec.bytes sectionName ++ [0x00] })

/-- `Section<Text>`. -/
structure TextSection where
  bytes : ByteVec := [0x48, 0xc7, 0xc0, 0x7b, 0x00, 0x00, 0x00, 0xc3]
deriving DecidableEq, Repr

def kStringTableSectionName : ByteVec := str ".shstrtab"

def kTextSectionName : ByteVec := str ".text"

/-! ## Relocations -/

/-- `enum struct RelocationName : u32`. -/
inductive RelocationName where
  | sectionHeaderTableOffset | sectionHeaderStringTableIndex | numberOfSectionHeaders
  | sectionHeadersStringTableName | sectionHeadersStringTableOffset | sectionHeadersStringTableSize
  | textSectionHeaderName | textSectionOffset | textSectionSize
  | invalid
deriving DecidableEq, Repr

/-- `Relocation`. -/
structure Relocation where
  offset : Nat := 0
  relname : RelocationName := .invalid
deriving DecidableEq, Repr

/-- `serialize(num x)`. -/
def serialize {w : Nat} (x : BitVec w) : ByteVec := Fiskas.Serializer.pushBytes [] x (w / 8)

/-- `Serializer` with its `RelocationHandler`, which writes over the same bytes. -/
structure Serializer where
  bytes : ByteVec := []
  relocations : UnorderedMap RelocationName Relocation := .empty
  relocationFixes : UnorderedMap RelocationName ByteVec := .empty

namespace Serializer

def offset (ser : Serializer) : Nat := ser.bytes.length

/-- `add_relocation`. -/
def addRelocation (ser : Serializer) (rel : Relocation) : Serializer :=
  { ser with relocations := ser.relocations.insert rel.relname rel }

/-- `fix_relocation(bytes, relname, value)`. -/
def fixRelocation {w : Nat} (ser : Serializer) (relname : RelocationName) (value : BitVec w) :
    Serializer :=
  { ser with relocationFixes := ser.relocationFixes.insert relname (serialize value) }

/-! ## Streaming -/

/-- `operator<<(const std::vector<u8> &data)`. -/
instance : HShiftLeft Serializer ByteVec Serializer where
  hShiftLeft ser data := { ser with bytes := extend ser.bytes data }

instance : HShiftLeft Serializer ElfHeader Serializer where
  hShiftLeft ser elfHeader :=
    let ser := ser <<< elfHeader.eIdent.toList
      <<< serialize elfHeader.eType
      <<< serialize elfHeader.eMachine
      <<< serialize elfHeader.eVersion
      <<< serialize elfHeader.eEntry
      <<< serialize elfHeader.ePhoff
    let ser := ser.addRelocation ⟨ser.offset, .sectionHeaderTableOffset⟩
    let ser := ser <<< serialize elfHeader.eShoff
    let ser := ser <<< serialize elfHeader.eFlags
      <<< serialize elfHeader.eEhsize
      <<< serialize elfHeader.ePhentsize
      <<< serialize elfHeader.ePhnum
      <<< serialize elfHeader.eShentsize
    let ser := ser.addRelocation ⟨ser.offset, .numberOfSectionHeaders⟩
    let ser := ser <<< serialize elfHeader.eShnum
    let ser := ser.addRelocation ⟨ser.offset, .sectionHeaderStringTableIndex⟩
    ser <<< serialize elfHeader.eShstrndx

/-- `operator<<(const SectionHeader<SectionHeadersStringTable> &section_headers_strtab)`. -/
def streamStringTableHeader (ser : Serializer) (sectionHeadersStrtab : SectionHeader) :
    Serializer :=
  let ser := ser.addRelocation ⟨ser.offset, .sectionHeadersStringTableName⟩
  let ser := ser <<< serialize sectionHeadersStrtab.shName
  let ser := ser <<< serialize sectionHeadersStrtab.shType
    <<< serialize sectionHeadersStrtab.shFlags
    <<< serialize sectionHeadersStrtab.shAddr
  let ser := ser.addRelocation ⟨ser.offset, .sectionHeadersStringTableOffset⟩
  let ser := ser <<< serialize sectionHeadersStrtab.shOffset
  let ser := ser.addRelocation ⟨ser.offset, .sectionHeadersStringTableSize⟩
  let ser := ser <<< serialize sectionHeadersStrtab.shSize
  ser <<< serialize sectionHeadersStrtab.shLink
    <<< serialize sectionHeadersStrtab.shInfo
    <<< serialize sectionHeadersStrtab.shAddralign
    <<< serialize sectionHeadersStrtab.shEntsize

/-- `operator<<(const SectionHeader<Text> &text_section_header)`, which leaves the name as it
    is. -/
def streamTextHeader (ser : Serializer) (textSectionHeader : SectionHeader) : Serializer :=
  let ser := ser <<< serialize textSectionHeader.shName
  let ser := ser <<< serialize textSectionHeader.shType
    <<< serialize textSectionHeader.shFlags
    <<< serialize textSectionHeader.shAddr
  let ser := ser.addRelocation ⟨ser.offset, .textSectionOffset⟩
  let ser := ser <<< serialize textSectionHeader.shOffset
  let ser := ser.addRelocation ⟨ser.offset, .textSectionSize⟩
  let ser := ser <<< serialize textSectionHeader.shSize
  ser <<< serialize textSectionHeader.shLink
    <<< serialize textSectionHeader.shInfo
    <<< serialize textSectionHeader.shAddralign
    <<< serialize textSectionHeader.shEntsize

/-- `operator<<(const SectionHeader<NullSectionHeader> &null_section_header)`. -/
def streamNullHeader (ser : Serializer) (nullSectionHeader : SectionHeader) : Serializer :=
  let ser := ser <<< serialize nullSectionHeader.shName
  let ser := ser <<< serialize nullSectionHeader.shType
    <<< serialize nullSectionHeader.shFlags
    <<< serialize nullSectionHeader.shAddr
  let ser := ser <<< serialize nullSectionHeader.shOffset
  let ser := ser <<< serialize nullSectionHeader.shSize
  ser <<< serialize nullSectionHeader.shLink
    <<< serialize nullSectionHeader.shInfo
    <<< serialize nullSectionHeader.shAddralign
    <<< serialize nullSectionHeader.shEntsize

/-- One round of the loop over the table, with the index of the header. -/
def streamTableRound (ser : Serializer) (entry : TaggedHeader × Nat) : Serializer :=
  match entry with
  | (.sectionHeadersStringTable h, idx) =>
    let ser := ser.fixRelocation .sectionHeaderStringTableIndex (BitVec.ofNat 16 idx)
    ser.streamStringTableHeader h
  | (.text h, _) => ser.streamTextHeader h
  | (.nullSectionHeader h, _) => ser.streamNullHeader h

instance : HShiftLeft Serializer SectionHeaderTable Serializer where
  hShiftLeft ser sectionHeaderTable :=
    let ser := ser.fixRelocation .sectionHeaderTableOffset (BitVec.ofNat 64 ser.offset)
    let ser := ser.fixRelocation .numberOfSectionHeaders
      (BitVec.ofNat 16 sectionHeaderTable.length)
    sectionHeaderTable.zipIdx.foldl streamTableRound ser

/-- `operator<<(Section<SectionHeadersStringTable> &section_headers_strtab)`. It also returns the
    section, to which it adds a name. -/
def streamStringTable (ser : Serializer) (sectionHeadersStrtab : StringTableSection) :
    Serializer × StringTableSection :=
  let (nameOffset, sectionHeadersStrtab) :=
    sectionHeadersStrtab.addString kStringTableSectionName
  let size := sectionHeadersStrtab.bytes.length
  let ser := ser.fixRelocation .sectionHeadersStringTableName (BitVec.ofNat 32 nameOffset)
  let ser := ser.fixRelocation .sectionHeadersStringTableSize (BitVec.ofNat 64 size)
  let ser := ser.fixRelocation .sectionHeadersStringTableOffset (BitVec.ofNat 64 ser.offset)
  (ser <<< sectionHeadersStrtab.bytes, sectionHeadersStrtab)

/-- `operator<<(const Section<Text> &text_section)`. -/
instance : HShiftLeft Serializer TextSection Serializer where
  hShiftLeft ser textSection :=
    let size := textSection.bytes.length
    let ser := ser.fixRelocation .textSectionSize (BitVec.ofNat 64 size)
    let ser := ser.fixRelocation .textSectionOffset (BitVec.ofNat 64 ser.offset)
    ser <<< textSection.bytes

/-! ## Fixing relocations -/

/-- The loop over the bytes of a fix. -/
def writeFix (bytes : ByteVec) (pos : Nat) : ByteVec → Except Stop ByteVec
  | [] => .ok bytes
  | byte :: data => do
    let bytes ← bytes.store pos byte
    writeFix bytes (pos + 1) data

/-- One round of the loop over the fixes: `relocations[reloc_id]` inserts a relocation at the
    beginning of the file when there is none with the name. -/
def fixOne (ser : Serializer) (fix : RelocationName × ByteVec) : Except Stop Serializer := do
  let relocations := ser.relocations.insert fix.1 {}
  let offset := ((relocations.find fix.1).getD {}).offset
  let bytes ← writeFix ser.bytes offset fix.2
  return { ser with bytes, relocations }

/-- An order in which the fixes are iterated. -/
structure FixOrder (ser : Serializer) where
  entries : List (RelocationName × ByteVec)
  perm : entries.Perm ser.relocationFixes.entries

/-- `fix_relocations`, which prints a message and skips all fixes when the sizes differ. -/
def fixRelocations (ser : Serializer) (order : FixOrder ser) : Except Stop Serializer :=
  if ser.relocationFixes.entries.length ≠ ser.relocations.entries.length then .ok ser
  else order.entries.foldlM fixOne ser

/-- `dump_to_file`, up to the bytes that it hands to `File::write`. -/
def dumpToFile (ser : Serializer) (order : FixOrder ser) : Except Stop ByteVec := do
  let ser ← ser.fixRelocations order
  return ser.bytes

end Serializer

/-! ## The file -/

/-- The order in which `main` streams the parts of a file, and the serializer behind them. -/
def streamFile (elfHeader : ElfHeader) (sectionHeaderTable : SectionHeaderTable)
    (sectionHeadersStrtab : StringTableSection) (textSection : TextSection) : Serializer :=
  let ser := ({} : Serializer) <<< elfHeader
  let ser := ser <<< sectionHeaderTable
  let (ser, _) := ser.streamStringTable sectionHeadersStrtab
  ser <<< textSection

/-- `main`, up to `dump_to_file`. -/
def main : Serializer :=
  let sectionHeadersStrtab : StringTableSection := {}
  let nullSectionHeader : SectionHeader := { shType := 0 }
  let sectionHeadersStrtabHeader : SectionHeader := { shType := 3, shAddralign := 1 }
  let (nameOffset, sectionHeadersStrtab) := sectionHeadersStrtab.addString kTextSectionName
  let textSectionHeader : SectionHeader :=
    { shName := BitVec.ofNat 32 nameOffset, shType := 1, shAddralign := 1 }
  let sectionHeaderTable : SectionHeaderTable := [
    .nullSectionHeader nullSectionHeader,
    .text textSectionHeader,
    .sectionHeadersStringTable sectionHeadersStrtabHeader]
  streamFile MainV2.newElfHeader sectionHeaderTable sectionHeadersStrtab {}

end Fiskas.MainV1
