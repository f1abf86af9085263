import Fiskas.Elf64.TextObject
import Fiskas.Spec.ElfRoundTrip

/-!
# Object files with one function

What a reader finds in an object file with a text and one global function, whose name stands in
the string table behind the empty one, and that the present writer writes such a file for a code
with the text and one symbol.

## Key results

- `readSymbol_functionRecords`: the two symbols
- `readTextObject_functionCode`: the file of the present writer
-/

namespace Fiskas

open Slice LittleEndian Elf64

/-- The function as a reader sees it. -/
def function (name : ByteVec) : Elf64.Symbol where
  name
  bind := Elf64.stbGlobal
  type := Elf64.sttFunc
  other := 0
  shndx := 1
  value := 0
  size := 0

/-- What a reader takes from the file. -/
def functionObject (textData name : ByteVec) : TextObject where
  text := textData
  textIdx := 1
  symbols := [nullSymbol, function name]
  info := 1

/-- The records of the null symbol and the function. -/
def functionRecords : List SymbolRecord := [
  { name := 0, info := 0, other := 0, shndx := 0, value := 0, size := 0 },
  { name := 1, info := 18, other := 0, shndx := 1, value := 0, size := 0 }]

theorem length_functionRecords :
    (functionRecords.map SymbolRecord.bytes).flatten.length = 48 := by decide

/-- The symbols are read from their records. -/
theorem readSymbol_functionRecords {name : ByteVec} (hname : 0 ∉ name) :
    (functionRecords.map SymbolRecord.bytes).mapM (readSymbol (table [[], name])) =
      some [nullSymbol, function name] := by
  have hempty : IsAt (table [[], name]) 0 (terminated []) := .intro [] (terminated []) _
  have hfunc : IsAt (table [[], name]) 1 (terminated name) := .intro (terminated []) _ []
  have hread (sym : Symbol) {text : ByteVec}
      (hat : IsAt (table [[], name]) sym.toElf.name (terminated text)) (htext : 0 ∉ text) :=
    readSymbol_bytes sym.fits hat htext
  have hnull := hread {} hempty (by decide)
  have hfunction := hread { stName := 1, stInfo := 18, stShndx := 1 } hfunc hname
  apply List.mapM_eq_some_of_forall₂
  exact .cons hnull (.cons hfunction .nil)

/-! ## The present writer -/

/-- The code with the text and the function. -/
def functionCode (textData name : ByteVec) : Code where
  text := textData
  symbols := [{ codeSection := .text, name }]

theorem length_functionCode (o : HashOrders) (textData name : ByteVec) :
    (fileOf o (functionCode textData name)).length = 537 + textData.length + name.length := by
  rw [length_fileOf_eq]
  show 64 + textData.length + 39 + 48 + (name.length + 1) + 1 + 0 + 384 = _
  omega

/-- A reader finds the function in the file that is written for its code. -/
theorem readTextObject_functionCode {o : HashOrders} {textData name : ByteVec} (hname : 0 ∉ name)
    (hsize : 537 + textData.length + name.length < 2 ^ 64) :
    readTextObject (str ".text") (str ".symtab") (fileOf o (functionCode textData name)) =
      some (functionObject textData name) := by
  rw [← length_functionCode o] at hsize
  have hsections : HasSections (fileOf o (functionCode textData name)) _ _ SectionTable.order
      SectionTable.nameOf (built o (functionCode textData name)).body :=
    ⟨readFileHeader_fileOf _ _, readSections_fileOf hsize,
      (sectionName_fileOf hsize).and (sectionBody_fileOf hsize)⟩
  -- The header of the symbol table.
  obtain ⟨symtab, hsymtab, hfields⟩ : ∃ sec,
      (sectionHeaders o (functionCode textData name))[3]? = some sec ∧
        sec = { ((built o (functionCode textData name)).header .symTab).toElf with
          offset := sec.offset } := by
    obtain ⟨hlength, hget⟩ := List.forall₂_iff_get.mp
      (@fields_sectionHeaders o (functionCode textData name))
    have hlt : 3 < (sectionHeaders o (functionCode textData name)).length :=
      hlength ▸ (by decide : 3 < SectionTable.order.length)
    exact ⟨_, List.getElem?_eq_getElem hlt, hget 3 hlt (by decide)⟩
  obtain ⟨hentsize, hlink, hinfo⟩ : symtab.entsize = 24 ∧ symtab.link = 4 ∧ symtab.info = 1 := by
    obtain ⟨off, hheader, _⟩ := header_built o (functionCode textData name) .symTab
    rw [hfields, hheader]
    exact ⟨rfl, rfl, rfl⟩
  have htextIdx : (SectionTable.order.findIdx? fun secTy =>
      SectionTable.nameOf secTy = str ".text") = some 1 := by decide
  have hsymtabIdx : (SectionTable.order.findIdx? fun secTy =>
      SectionTable.nameOf secTy = str ".symtab") = some 3 := by decide
  have htext : (built o (functionCode textData name)).body .text = textData := body_built _ _ _
  have hstrtab : (built o (functionCode textData name)).body .symTabStrTab = table [[], name] :=
    body_built _ _ _
  have hrecords : (built o (functionCode textData name)).body .symTab =
      (functionRecords.map SymbolRecord.bytes).flatten := body_built _ _ _
  have hobj := hsections.readTextObject_eq htextIdx rfl hsymtabIdx rfl hsymtab hentsize
    (hlink ▸ rfl) hrecords (hstrtab ▸ readSymbol_functionRecords hname)
  rw [hobj, hinfo, htext]
  rfl

end Fiskas
