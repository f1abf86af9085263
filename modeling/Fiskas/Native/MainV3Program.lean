import Fiskas.ForStd.UnorderedMap
import Fiskas.Native.ElfBuilder
import Fiskas.Native.MainV3

/-!
# The program of the serializer with entries

`main` of `cemetery/main_v3.cc`: what it streams, in which order, and which fixes it records in
between. The bytes of the text section and the name of its only function are literals in the
source; here they are arguments. The constants of `ElfHeader` and `SectionHeader` and the macros
are those of `elf/elf_types.hh` and `elf_builder.cc`, which stand for them here.
-/

namespace Fiskas.MainV3

/-! ## String table -/

/-- `StringTable`: a section that remembers the offsets of its strings. -/
structure StringTable extends Section where
  offsets : UnorderedMap ByteVec U64 := .empty

namespace StringTable

/-- `add_string`. -/
def addString (t : StringTable) (name : ByteVec) : U64 × StringTable :=
  let offset := ByteVec.size t.data
  (offset, {
    data := extend t.data name ++ [0x00]
    offsets := t.offsets.assign name offset })

/-- One call of `add_string` after the other. -/
def addStrings (t : StringTable) (names : List ByteVec) : StringTable :=
  names.foldl (fun t name => (t.addString name).2) t

/-- `offsets[name]`, which is zero for a name that is not there. That the name is there from then
    on is left out, since nothing looks at the names of the map. -/
def offset (t : StringTable) (name : ByteVec) : U64 := (t.offsets.find name).getD 0

end StringTable

/-! ## Labels -/

/-- `name_reloc_label`. -/
def SectionHeader.nameRelocLabel (secType : SectionType) : LabelType :=
  .ofSection ⟨secType, .sectionName⟩

/-- `size_reloc_label`. -/
def SectionHeader.sizeRelocLabel (secType : SectionType) : LabelType :=
  .ofSection ⟨secType, .sectionSize⟩

/-- `offset_reloc_label`. -/
def SectionHeader.offsetRelocLabel (secType : SectionType) : LabelType :=
  .ofSection ⟨secType, .sectionOffset⟩

/-- The sum of the sizes of the entries. -/
def SectionHeader.serializedSize : U64 := 4 + 4 + 8 + 8 + 8 + 8 + 4 + 4 + 8 + 8

/-- The sum of the sizes of the entries. -/
def ElfHeader.serializedSize : U64 := 16 + 2 + 2 + 4 + 8 + 8 + 8 + 4 + 2 + 2 + 2 + 2 + 2 + 2

/-- The sum of the sizes of the entries. -/
def Symbol.serializedSize : U64 := 4 + 1 + 1 + 2 + 8 + 8

/-! ## Headers -/

namespace Main

open Fiskas.SectionHeader (shtProgbits shtSymtab shtStrtab)
open Fiskas.ElfHeader (createWithDefaultParams etRel emX8664 evCurrent)

/-- An entry that a fix with the label is to fill in. -/
def withLabel {T : Type} (label : LabelType) : Entry T := .relocation (.withLabel label)

def elfHeader : ElfHeader where
  eIdent := .value createWithDefaultParams.eIdent
  eType := .value (etRel.setWidth 16)
  eMachine := .value (emX8664.setWidth 16)
  eVersion := .value (evCurrent.setWidth 32)
  eEntry := .value 0
  ePhoff := .value 0
  eShoff := withLabel (.ofElfHeader .sectionHeaderTableOffset)
  eFlags := .value 0
  eEhsize := .value (ElfHeader.serializedSize.setWidth 16)
  ePhentsize := .value 0
  ePhnum := .value 0
  eShentsize := .value (SectionHeader.serializedSize.setWidth 16)
  eShnum := withLabel (.ofElfHeader .numSectionHeaders)
  eShstrndx := withLabel (.ofElfHeader .sectionHeaderStrTabIdx)

/-- What the headers of all sections have in common: the name, the offset and the size are filled
    in later. -/
def sectionHeader (secType : SectionType) (shType : U8) : SectionHeader where
  shName := withLabel (SectionHeader.nameRelocLabel secType)
  shType := .value (shType.setWidth 32)
  shFlags := .value 0
  shAddr := .value 0
  shOffset := withLabel (SectionHeader.offsetRelocLabel secType)
  shSize := withLabel (SectionHeader.sizeRelocLabel secType)
  shLink := .value 0
  shInfo := .value 0
  shAddralign := .value 1
  shEntsize := .value 0

/-- `SectionHeader::sht_null` is 0. -/
def nullSection : SectionHeader := sectionHeader .null 0

def text : SectionHeader := sectionHeader .text shtProgbits

def symtab : SectionHeader :=
  { sectionHeader .symTab shtSymtab with
    shLink := withLabel (.ofSection ⟨.symTab, .link⟩)
    shInfo := withLabel (.ofSection ⟨.symTab, .info⟩)
    shAddralign := .value 8
    shEntsize := .value Symbol.serializedSize }

def symtabStrtab : SectionHeader := sectionHeader .symTabStringTable shtStrtab

def shStrtab : SectionHeader := sectionHeader .sectionHeaderStringTable shtStrtab

/-! ## Sections -/

def shStrtabSection : StringTable :=
  ({} : StringTable).addStrings
    [str ".text", str "", str ".shstrtab", str ".symtab", str ".strtab"]

def symtabStrtabSection (name : ByteVec) : StringTable :=
  ({} : StringTable).addStrings [str "", name]

/-- `syms[1]`; `syms[0]` is `Symbol{}`. -/
def funcSymbol (name : ByteVec) : Symbol where
  stName := .value (((symtabStrtabSection name).offset name).setWidth 32)
  stInfo := .value (elf64StInfo stbGlobal sttFunc)
  stShndx := withLabel (.ofSection ⟨.symTab, .textSectionIdx⟩)
  stValue := .value 0
  stSize := .value 0

/-- `sz`: the bytes of both symbols, streamed into a serializer of their own. -/
def symtabSize (name : ByteVec) : U64 :=
  let auxSer := ({} : Serializer) <<< ({} : Symbol) <<< funcSymbol name
  ByteVec.size auxSer.buffer

/-! ## Program -/

/-- `fix_relocation` with a value. -/
def fixWith (value : U64) (labelToFix : LabelType) (valueSizeInBytes : U16) : Op :=
  .fixRelocation { value := some value, labelToFix, valueSizeInBytes }

/-- `fix_relocation` without a value, which becomes the size of the buffer. -/
def fixHere (labelToFix : LabelType) (valueSizeInBytes : U16) : Op :=
  .fixRelocation { labelToFix, valueSizeInBytes }

/-- `main`, up to `dump_to_file`, for the bytes of the text section and the name of the
    function. -/
def program (textData name : ByteVec) : List Op := [
  .elfHeader elfHeader,
  fixHere (.ofElfHeader .sectionHeaderTableOffset) 8,
  .sectionHeader nullSection,
  .sectionHeader text,
  .sectionHeader symtab,
  fixWith 3 (.ofSection ⟨.symTab, .link⟩) 4,
  fixWith 1 (.ofSection ⟨.symTab, .info⟩) 4,
  .sectionHeader symtabStrtab,
  .sectionHeader shStrtab,
  fixWith 5 (.ofElfHeader .numSectionHeaders) 2,
  fixWith 4 (.ofElfHeader .sectionHeaderStrTabIdx) 2,
  fixWith 0 (SectionHeader.sizeRelocLabel .null) 8,
  fixHere (SectionHeader.offsetRelocLabel .null) 8,
  fixWith 1 (.ofSection ⟨.symTab, .textSectionIdx⟩) 2,
  fixWith (ByteVec.size textData) (SectionHeader.sizeRelocLabel .text) 8,
  fixHere (SectionHeader.offsetRelocLabel .text) 8,
  .ofSection { data := textData },
  fixWith (shStrtabSection.offset (str ".text")) (SectionHeader.nameRelocLabel .text) 4,
  fixWith (shStrtabSection.offset (str "")) (SectionHeader.nameRelocLabel .null) 4,
  fixWith (shStrtabSection.offset (str ".shstrtab"))
    (SectionHeader.nameRelocLabel .sectionHeaderStringTable) 4,
  fixWith (shStrtabSection.offset (str ".symtab")) (SectionHeader.nameRelocLabel .symTab) 4,
  fixWith (shStrtabSection.offset (str ".strtab"))
    (SectionHeader.nameRelocLabel .symTabStringTable) 4,
  fixHere (SectionHeader.offsetRelocLabel .sectionHeaderStringTable) 8,
  fixWith (ByteVec.size shStrtabSection.data)
    (SectionHeader.sizeRelocLabel .sectionHeaderStringTable) 8,
  .ofSection shStrtabSection.toSection,
  fixHere (SectionHeader.offsetRelocLabel .symTabStringTable) 8,
  fixWith (ByteVec.size (symtabStrtabSection name).data)
    (SectionHeader.sizeRelocLabel .symTabStringTable) 8,
  .ofSection (symtabStrtabSection name).toSection,
  fixHere (SectionHeader.offsetRelocLabel .symTab) 8,
  fixWith (symtabSize name) (SectionHeader.sizeRelocLabel .symTab) 8,
  .symbol {},
  .symbol (funcSymbol name)]

end Main

end Fiskas.MainV3
