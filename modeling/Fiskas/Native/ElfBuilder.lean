import Fiskas.Native.Serializer

/-!
# ELF builder

`elf/elf_builder.hh` and `lib/elf/elf_builder.cc`: the code that goes into an object file and
the bytes of that file. `build_elf_file` hands these bytes to `File::write`; here it returns
them.
-/

namespace Fiskas

/-- `Code::Symbol`. -/
structure Code.Symbol where
  offset : U64 := 0
  codeSection : SectionType
  name : ByteVec := []
  value : U64 := 0
deriving DecidableEq, Repr

structure Code where
  text : ByteVec := []
  data : ByteVec := []
  symbols : List Code.Symbol := []
deriving DecidableEq, Repr

def Code.createDummyCode : Code where
  text := [0x48, 0xc7, 0xc0, 0x8b, 0x01, 0x00, 0x00, 0xc3,
    0x48, 0xc7, 0xc0, 0x8d, 0x01, 0x00, 0x00, 0xc3]
  data := [0xff, 0xff, 0xff, 0x7f]
  symbols := [
    { offset := 0, codeSection := .text, name := str "test_function_1" },
    { offset := 8, codeSection := .text, name := str "test_function_2" },
    { offset := 0, codeSection := .data, name := str "global_variable", value := 4 }]

def stbGlobal : U8 := 1
def sttFunc : U8 := 2
def sttObject : U8 := 1

/-- `ELF64_ST_INFO(bind, type)`. -/
def elf64StInfo (bind type : U8) : U8 := (bind <<< 4) + (type &&& 0xf)

/-- One round of the loop over the symbols: add the name to the string table and a symbol with
    its offset, cast to `u32`, to the symbols. -/
def addSymbol (acc : List Symbol × StringTable) (codeSym : Code.Symbol) :
    List Symbol × StringTable :=
  let (symbols, symStrtab) := acc
  let codeSymInfo :=
    if codeSym.codeSection = .text then elf64StInfo stbGlobal sttFunc
    else elf64StInfo stbGlobal sttObject
  let (offset, symStrtab) := symStrtab.addString codeSym.name
  let symbol : Symbol :=
    { stName := offset.setWidth 32
      stInfo := codeSymInfo
      stShndx := codeSym.codeSection.toUnderlying
      stValue := codeSym.offset
      stSize := codeSym.value }
  (symbols ++ [symbol], symStrtab)

/-- The symbols stand behind a dummy symbol, and their names behind the empty name. -/
def extractSymsAndSymStrtab (code : Code) : List Symbol × StringTable :=
  let (_, symStrtab) := ({} : StringTable).addString (str "")
  code.symbols.foldl addSymbol ([{}], symStrtab)

def buildAllSectionsAndUpdateHdrs (secTab : SectionTable) (code : Code) : SectionTable :=
  let (elfSyms, symStrtab) := extractSymsAndSymStrtab code
  let secTab := secTab.setBody .text code.text
  let secTab := secTab.setBody .data code.data
  let secTab := secTab.setBody .symTabStrTab symStrtab.out
  let secTab := secTab.setBody .symTab (({} : Serializer) <<< elfSyms).out
  let secTab := secTab.setHeader .text fun h =>
    { h with
      shType := SectionHeader.shtProgbits.setWidth 32
      shSize := ByteVec.size (secTab.body .text)
      shAddralign := 1 }
  let secTab := secTab.setHeader .data fun h =>
    { h with
      shType := SectionHeader.shtProgbits.setWidth 32
      shSize := ByteVec.size (secTab.body .data)
      shAddralign := 8 }
  let secTab := secTab.setHeader .symTabStrTab fun h =>
    { h with
      shType := SectionHeader.shtStrtab.setWidth 32
      shSize := ByteVec.size (secTab.body .symTabStrTab)
      shAddralign := 1 }
  secTab.setHeader .symTab fun h =>
    { h with
      shType := SectionHeader.shtSymtab.setWidth 32
      shSize := ByteVec.size (secTab.body .symTab)
      shLink := SectionType.symTabStrTab.toUnderlying.setWidth 32
      shInfo := 1
      shAddralign := 1
      shEntsize := Symbol.serializedSize }

/-- The indices that the two loops of `build_elf_file` count through. -/
def secIdxs : List U16 :=
  (List.range SectionTable.numSections.toNat).map (BitVec.ofNat 16)

/-- One round of the first loop: place the section behind the output and append its body. -/
def placeSection (acc : SectionTable × Serializer) (secTy : SectionType) :
    SectionTable × Serializer :=
  let (secTab, ser) := acc
  let secTab := secTab.setHeader secTy fun h => { h with shOffset := ByteVec.size ser.out }
  (secTab, ser <<< secTab.body secTy)

/-- The bytes that `build_elf_file` writes. The loops stop at the number of sections, so the
    default case of `sec_ty_from_idx` is not reached. -/
def buildElfFile (o : HashOrders) (code : Code) : Option ByteVec := do
  let secTab := SectionTable.create o
  let elfHeader := ElfHeader.createWithDefaultParams
  let secTab := buildAllSectionsAndUpdateHdrs secTab code
  let elfHeader :=
    { elfHeader with eShoff := ElfHeader.serializedSize + secTab.sizeOfAllSectionBodies }
  let ser := ({} : Serializer) <<< elfHeader
  let (secTab, ser) ← secIdxs.foldlM (fun acc secIdx => do
    let secTy ← SectionTable.secTyFromIdx secIdx
    return placeSection acc secTy) (secTab, ser)
  let ser ← secIdxs.foldlM (fun ser secIdx => do
    let secTy ← SectionTable.secTyFromIdx secIdx
    return ser <<< secTab.header secTy) ser
  return ser.out

end Fiskas
