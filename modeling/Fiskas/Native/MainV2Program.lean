import Fiskas.Native.ElfBuilder
import Fiskas.Native.MainV2

/-!
# The program of the headers-first writer

`main` of `cemetery/main_v2.cc`: the section table that it builds and streams. The bytes of the
text section and the name of its only function are literals in the source; here they are arguments.
The macros are those of `elf_builder.cc`, which stand for them here.
-/

namespace Fiskas.MainV2

/-! ## Symbols -/

/-- `operator<<(const Symbol &sym)`. -/
instance : HShiftLeft Serializer Symbol Serializer where
  hShiftLeft ser sym := ser <<< sym.stName
    <<< sym.stInfo
    <<< sym.stOther
    <<< sym.stShndx
    <<< sym.stValue
    <<< sym.stSize

/-- `SymbolSection`, without the map of the offsets, which the program does not look at. -/
structure SymbolSection where
  out : ByteVec := []
  symbols : List Symbol := []
deriving DecidableEq, Repr

namespace SymbolSection

/-- `add_string`. -/
def addString (sec : SymbolSection) (name : ByteVec) : U64 × SymbolSection :=
  (ByteVec.size sec.out, { sec with out := extend sec.out name ++ [0x00] })

/-- `body()`: push the null symbol and the function, and stream all symbols. -/
def body (sec : SymbolSection) (name : ByteVec) : ByteVec × SymbolSection :=
  let sec := { sec with symbols := sec.symbols ++ [({} : Symbol)], out := sec.out ++ [0x00] }
  let (stName, sec) := sec.addString name
  let sym : Symbol :=
    { stName := stName.setWidth 32
      stInfo := elf64StInfo stbGlobal sttFunc
      stShndx := 1
      stValue := 0 }
  let sec := { sec with symbols := sec.symbols ++ [sym] }
  let ser := sec.symbols.foldl (fun ser sym => ser <<< sym) ({} : Serializer)
  (ser.out, sec)

end SymbolSection

/-! ## Sections -/

namespace Main

open Fiskas.SectionHeader (shtProgbits shtSymtab shtStrtab)

/-- `SHT_NULL` is 0. -/
def nullSection : Section where
  name := str "\x00"
  header := { shType := 0 }
  type := .null

def shStrtab : Section where
  name := str ".shstrtab\x00"
  header := { shType := shtStrtab.setWidth 32, shAddralign := 1 }
  type := .sectionHeaderStringTable

def text (textData : ByteVec) : Section where
  name := str ".text\x00"
  header := { shType := shtProgbits.setWidth 32, shAddralign := 1 }
  body := textData
  type := .text

def symtab (body : ByteVec) : Section where
  name := str ".symtab\x00"
  header := {
    shType := shtSymtab.setWidth 32
    shLink := 3
    shInfo := 1
    shAddralign := 8
    shEntsize := 24 }
  body
  type := .symTab

def symtabStrtab (out : ByteVec) : Section where
  name := str ".strtab\x00"
  header := { shType := shtStrtab.setWidth 32, shAddralign := 1 }
  body := out
  type := .symTabStringTable

def sectionHeaderTable (textData name : ByteVec) : Vector Section 5 :=
  let (symtabBody, sec) := ({} : SymbolSection).body name
  #v[nullSection, text textData, symtab symtabBody, symtabStrtab sec.out, shStrtab]

/-! ## Program -/

/-- `main`, up to the bytes that `dump_to` hands to `File::write`, for the bytes of the text section
    and the name of the function. -/
def program (textData name : ByteVec) : Except Stop ByteVec := do
  let serializer := ({} : Serializer) <<< newElfHeader
  let (serializer, _) ← serializer.serializeTable (sectionHeaderTable textData name)
  serializer.dumpTo

end Main

end Fiskas.MainV2
