import Fiskas.ForStd.UnorderedMap
import Fiskas.Native.Base

/-!
# ELF types

`elf/elf_types.hh` and `lib/elf/elf_types.cc`: the string table, the section header, the
symbol, the section table and the ELF header.

The two hash maps of the section table are iterated, in an order that the standard library
leaves open. `HashOrders` is a choice of both orders, and the constructor of the section table
takes one.
-/

namespace Fiskas

/-! ## String table -/

structure StringTable where
  out : ByteVec := []
deriving DecidableEq, Repr

/-- `add_string`: append the name and a zero byte, and return where the name starts. -/
def StringTable.addString (t : StringTable) (name : ByteVec) : U64 × StringTable :=
  let offset := ByteVec.size t.out
  (offset, { out := extend t.out name ++ [0x00] })

/-! ## Section types -/

/-- `enum struct SectionType : u16`. -/
inductive SectionType where
  | null | text | sectionHeaderStrTab | symTab | symTabStrTab | data
deriving DecidableEq, Repr

/-- `operator+`: the underlying value of a section type. -/
def SectionType.toUnderlying : SectionType → U16
  | .null => 0
  | .text => 1
  | .sectionHeaderStrTab => 2
  | .symTab => 3
  | .symTabStrTab => 4
  | .data => 5

/-! ## Section header -/

structure SectionHeader where
  shName : U32 := 0
  shType : U32 := 0
  shFlags : U64 := 0
  shAddr : U64 := 0
  shOffset : U64 := 0
  shSize : U64 := 0
  shLink : U32 := 0
  shInfo : U32 := 0
  shAddralign : U64 := 0
  shEntsize : U64 := 0
deriving DecidableEq, Repr

namespace SectionHeader

def shtProgbits : U8 := 1
def shtSymtab : U8 := 2
def shtStrtab : U8 := 3

/-- The sum of the `sizeof`s of the fields. -/
def serializedSize : U64 := 4 + 4 + 8 + 8 + 8 + 8 + 4 + 4 + 8 + 8

end SectionHeader

/-! ## Symbol -/

structure Symbol where
  stName : U32 := 0
  stInfo : U8 := 0
  stOther : U8 := 0
  stShndx : U16 := 0
  stValue : U64 := 0
  stSize : U64 := 0
deriving DecidableEq, Repr

/-- The sum of the `sizeof`s of the fields. -/
def Symbol.serializedSize : U64 := 4 + 1 + 1 + 2 + 8 + 8

/-! ## Section table -/

/-- `HeaderSectionPair`: a header and a body. -/
abbrev HeaderSectionPair := SectionHeader × ByteVec

/-- `SectionTable`: a header and a body for every section type. -/
structure SectionTable where
  sections : UnorderedMap SectionType HeaderSectionPair
  complete : ∀ secTy, secTy ∈ sections.keys

namespace SectionTable

/-- The initialiser of `sections`. -/
def initialSections : List (SectionType × HeaderSectionPair) := [
  (.null, ({}, [])),
  (.text, ({}, [])),
  (.sectionHeaderStrTab, ({}, [])),
  (.symTab, ({}, [])),
  (.data, ({}, [])),
  (.symTabStrTab, ({}, []))]

/-- The initialiser of `section_names`. -/
def sectionNames : List (SectionType × ByteVec) := [
  (.null, str ""),
  (.text, str ".text"),
  (.sectionHeaderStrTab, str ".shstrtab"),
  (.symTab, str ".symtab"),
  (.data, str ".data"),
  (.symTabStrTab, str ".strtab")]

end SectionTable

/-- An iteration order of `sections` and one of `section_names`: any two maps with the entries
    of the initialisers. -/
structure HashOrders where
  sections : UnorderedMap SectionType HeaderSectionPair
  sectionNames : UnorderedMap SectionType ByteVec
  sections_perm : sections.entries.Perm SectionTable.initialSections
  sectionNames_perm : sectionNames.entries.Perm SectionTable.sectionNames

/-- The orders in which the initialisers list the entries. -/
def HashOrders.listed : HashOrders where
  sections := { entries := SectionTable.initialSections, nodup := by decide }
  sectionNames := { entries := SectionTable.sectionNames, nodup := by decide }
  sections_perm := .refl _
  sectionNames_perm := .refl _

namespace SectionTable

/-- `header(sec_ty)`, read. -/
def header (t : SectionTable) (secTy : SectionType) : SectionHeader :=
  (t.sections.get secTy (t.complete secTy)).1

/-- `body(sec_ty)`, read. -/
def body (t : SectionTable) (secTy : SectionType) : ByteVec :=
  (t.sections.get secTy (t.complete secTy)).2

/-- Assignments through the reference that `header(sec_ty)` returns. -/
def setHeader (t : SectionTable) (secTy : SectionType) (f : SectionHeader → SectionHeader) :
    SectionTable where
  sections := t.sections.modify secTy fun pair => (f pair.1, pair.2)
  complete := by
    intro secTy'
    rw [UnorderedMap.keys_modify]
    exact t.complete secTy'

/-- An assignment to the reference that `body(sec_ty)` returns. -/
def setBody (t : SectionTable) (secTy : SectionType) (body : ByteVec) : SectionTable where
  sections := t.sections.modify secTy fun pair => (pair.1, body)
  complete := by
    intro secTy'
    rw [UnorderedMap.keys_modify]
    exact t.complete secTy'

/-- `std::accumulate` over the map, in `u64`. -/
def sizeOfAllSectionBodies (t : SectionTable) : U64 :=
  t.sections.entries.foldl (fun size entry => size + ByteVec.size entry.2.2) 0

/-- One round of the loop over `section_names`: add the name to the string table and store its
    offset, cast to `u32`, in the header of its section. -/
def addSectionName (acc : StringTable × SectionTable) (entry : SectionType × ByteVec) :
    StringTable × SectionTable :=
  let (shStrtab, t) := acc
  let (secTy, name) := entry
  let (offset, shStrtab) := shStrtab.addString name
  (shStrtab, t.setHeader secTy fun h => { h with shName := offset.setWidth 32 })

def buildShStrtabAndFixAllHdrNameOffsets (sectionNames : UnorderedMap SectionType ByteVec)
    (t : SectionTable) : SectionTable :=
  let (shStrtab, t) := sectionNames.entries.foldl addSectionName ({}, t)
  let t := t.setBody .sectionHeaderStrTab shStrtab.out
  t.setHeader .sectionHeaderStrTab fun h =>
    { h with
      shType := SectionHeader.shtStrtab.setWidth 32
      shSize := ByteVec.size (t.body .sectionHeaderStrTab)
      shAddralign := 1 }

/-- The map with the initial entries has every section type. -/
private theorem complete_of_perm {m : UnorderedMap SectionType HeaderSectionPair}
    (h : m.entries.Perm initialSections) (secTy : SectionType) : secTy ∈ m.keys := by
  have hkeys : m.keys.Perm (initialSections.map Prod.fst) := h.map Prod.fst
  rw [hkeys.mem_iff]
  cases secTy <;> decide

/-- The table with the initialiser of `sections`. -/
def initial (o : HashOrders) : SectionTable where
  sections := o.sections
  complete := complete_of_perm o.sections_perm

/-- The constructor. -/
def create (o : HashOrders) : SectionTable :=
  buildShStrtabAndFixAllHdrNameOffsets o.sectionNames (initial o)

/-- `sec_ty_from_idx`; the default case is undefined behaviour. -/
def secTyFromIdx (idx : U16) : Option SectionType :=
  if idx = 0 then some .null
  else if idx = 1 then some .text
  else if idx = 2 then some .sectionHeaderStrTab
  else if idx = 3 then some .symTab
  else if idx = 4 then some .symTabStrTab
  else if idx = 5 then some .data
  else none

/-- The number of entries of a fresh table. -/
def numSections : U64 := BitVec.ofNat 64 initialSections.length

end SectionTable

/-! ## ELF header -/

structure ElfHeader where
  eIdent : Vector U8 16 := Vector.replicate 16 0
  eType : U16 := 0
  eMachine : U16 := 0
  eVersion : U32 := 0
  eEntry : U64 := 0
  ePhoff : U64 := 0
  eShoff : U64 := 0
  eFlags : U32 := 0
  eEhsize : U16 := 0
  ePhentsize : U16 := 0
  ePhnum : U16 := 0
  eShentsize : U16 := 0
  eShnum : U16 := 0
  eShstrndx : U16 := 0
deriving DecidableEq, Repr

namespace ElfHeader

def elfMag0 : U8 := 0x7f
def elfMag1 : U8 := 0x45
def elfMag2 : U8 := 0x4c
def elfMag3 : U8 := 0x46
def elfClass64 : U8 := 2
def elfData2Lsb : U8 := 1
def evCurrent : U8 := 1
def elfOsAbiLinux : U8 := 3
def etRel : U8 := 1
def emX8664 : U8 := 62

/-- The sum of the size of `e_ident` and the `sizeof`s of the other fields. -/
def serializedSize : U64 := 16 + 2 + 2 + 4 + 8 + 8 + 8 + 4 + 2 + 2 + 2 + 2 + 2 + 2

def createWithDefaultParams : ElfHeader where
  eIdent := #v[elfMag0, elfMag1, elfMag2, elfMag3, elfClass64, elfData2Lsb, evCurrent,
    elfOsAbiLinux, 0, 0, 0, 0, 0, 0, 0, 0]
  eType := etRel.setWidth 16
  eMachine := emX8664.setWidth 16
  eVersion := evCurrent.setWidth 32
  eShoff := serializedSize
  eEhsize := serializedSize.setWidth 16
  eShentsize := SectionHeader.serializedSize.setWidth 16
  eShnum := SectionTable.numSections.setWidth 16
  eShstrndx := SectionType.sectionHeaderStrTab.toUnderlying

end ElfHeader

end Fiskas
