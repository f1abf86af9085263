import Fiskas.Elf64.StringTable

/-!
# Reading an ELF64 object file

A plain reader of little-endian ELF64 object files. The file header, the section headers and
the symbol records are read at the positions and widths that the format fixes, a section's
name is the string at `sh_name` in section `e_shstrndx`, a section's body is the slice at
`sh_offset` of length `sh_size`, and a symbol's name is the string at `st_name` in the section
that `sh_link` of the symbol table names.

Each record also has its bytes, as the row of its fields, and is read back from them.

## Key results

- `readFileHeader_of_isAt`, `readSectionHeader_of_isAt`, `readSymbolRecord_of_isAt`: a record
  that stands in a file is read
- `readSymbol_bytes`: a symbol is read from its record and the string table
-/

namespace Elf64

open Slice LittleEndian

/-! ## File header -/

/-- The file header, without its 16 identification bytes. -/
structure FileHeader where
  type : Nat
  machine : Nat
  version : Nat
  entry : Nat
  phoff : Nat
  shoff : Nat
  flags : Nat
  ehsize : Nat
  phentsize : Nat
  phnum : Nat
  shentsize : Nat
  shnum : Nat
  shstrndx : Nat
deriving DecidableEq, Repr

/-- Read the file header of a file. -/
def readFileHeader (file : List Byte) : Option FileHeader := do
  let type ← readNat file 16 2
  let machine ← readNat file 18 2
  let version ← readNat file 20 4
  let entry ← readNat file 24 8
  let phoff ← readNat file 32 8
  let shoff ← readNat file 40 8
  let flags ← readNat file 48 4
  let ehsize ← readNat file 52 2
  let phentsize ← readNat file 54 2
  let phnum ← readNat file 56 2
  let shentsize ← readNat file 58 2
  let shnum ← readNat file 60 2
  let shstrndx ← readNat file 62 2
  return {
    type, machine, version, entry, phoff, shoff, flags, ehsize, phentsize, phnum, shentsize,
    shnum, shstrndx }

namespace FileHeader

/-- The fields of a file header, each with its width. -/
def fields (hdr : FileHeader) : List (Nat × Nat) :=
  [(2, hdr.type), (2, hdr.machine), (4, hdr.version), (8, hdr.entry), (8, hdr.phoff),
    (8, hdr.shoff), (4, hdr.flags), (2, hdr.ehsize), (2, hdr.phentsize), (2, hdr.phnum),
    (2, hdr.shentsize), (2, hdr.shnum), (2, hdr.shstrndx)]

/-- The bytes of a file header. -/
def bytes (hdr : FileHeader) : List Byte := recordBytes hdr.fields

@[simp] theorem length_bytes (hdr : FileHeader) : hdr.bytes.length = 48 := by
  rw [bytes, length_recordBytes]
  simp [recordWidth, fields]

end FileHeader

/-- A file header that stands behind the identification bytes is read. -/
theorem readFileHeader_of_isAt {file : List Byte} {hdr : FileHeader}
    (h : IsAt file 16 hdr.bytes) (hfits : RecordFits hdr.fields) :
    readFileHeader file = some hdr := by
  have hwidths : hdr.fields.map Prod.fst = [2, 2, 4, 8, 8, 8, 4, 2, 2, 2, 2, 2, 2] := rfl
  have hread : ∀ i w v off, hdr.fields[i]? = some (w, v) →
      (List.take i [2, 2, 4, 8, 8, 8, 4, 2, 2, 2, 2, 2, 2]).sum = off →
      readNat file (16 + off) w = some v :=
    fun i w v _ hi => readNat_of_record h hwidths hi (hfits (w, v) (List.mem_of_getElem? hi))
  have htype : readNat file 16 2 = some hdr.type := hread 0 2 _ 0 rfl (by decide)
  have hmachine : readNat file 18 2 = some hdr.machine := hread 1 2 _ 2 rfl (by decide)
  have hversion : readNat file 20 4 = some hdr.version := hread 2 4 _ 4 rfl (by decide)
  have hentry : readNat file 24 8 = some hdr.entry := hread 3 8 _ 8 rfl (by decide)
  have hphoff : readNat file 32 8 = some hdr.phoff := hread 4 8 _ 16 rfl (by decide)
  have hshoff : readNat file 40 8 = some hdr.shoff := hread 5 8 _ 24 rfl (by decide)
  have hflags : readNat file 48 4 = some hdr.flags := hread 6 4 _ 32 rfl (by decide)
  have hehsize : readNat file 52 2 = some hdr.ehsize := hread 7 2 _ 36 rfl (by decide)
  have hphentsize : readNat file 54 2 = some hdr.phentsize := hread 8 2 _ 38 rfl (by decide)
  have hphnum : readNat file 56 2 = some hdr.phnum := hread 9 2 _ 40 rfl (by decide)
  have hshentsize : readNat file 58 2 = some hdr.shentsize := hread 10 2 _ 42 rfl (by decide)
  have hshnum : readNat file 60 2 = some hdr.shnum := hread 11 2 _ 44 rfl (by decide)
  have hshstrndx : readNat file 62 2 = some hdr.shstrndx := hread 12 2 _ 46 rfl (by decide)
  rw [readFileHeader, htype, hmachine, hversion, hentry, hphoff, hshoff, hflags, hehsize,
    hphentsize, hphnum, hshentsize, hshnum, hshstrndx]
  rfl

/-! ## Section headers -/

/-- A section header. -/
structure SectionHeader where
  name : Nat
  type : Nat
  flags : Nat
  addr : Nat
  offset : Nat
  size : Nat
  link : Nat
  info : Nat
  addralign : Nat
  entsize : Nat
deriving DecidableEq, Repr

/-- Read the section header at a position. -/
def readSectionHeader (file : List Byte) (pos : Nat) : Option SectionHeader := do
  let name ← readNat file pos 4
  let type ← readNat file (pos + 4) 4
  let flags ← readNat file (pos + 8) 8
  let addr ← readNat file (pos + 16) 8
  let offset ← readNat file (pos + 24) 8
  let size ← readNat file (pos + 32) 8
  let link ← readNat file (pos + 40) 4
  let info ← readNat file (pos + 44) 4
  let addralign ← readNat file (pos + 48) 8
  let entsize ← readNat file (pos + 56) 8
  return { name, type, flags, addr, offset, size, link, info, addralign, entsize }

namespace SectionHeader

/-- The fields of a section header, each with its width. -/
def fields (sec : SectionHeader) : List (Nat × Nat) :=
  [(4, sec.name), (4, sec.type), (8, sec.flags), (8, sec.addr), (8, sec.offset), (8, sec.size),
    (4, sec.link), (4, sec.info), (8, sec.addralign), (8, sec.entsize)]

/-- The bytes of a section header. -/
def bytes (sec : SectionHeader) : List Byte := recordBytes sec.fields

@[simp] theorem length_bytes (sec : SectionHeader) : sec.bytes.length = 64 := by
  rw [bytes, length_recordBytes]
  simp [recordWidth, fields]

/-- The section headers of a file are equally long. -/
theorem length_of_mem (secs : List SectionHeader) : ∀ part ∈ secs.map bytes, part.length = 64 :=
  List.forall_mem_map.mpr fun sec _ => length_bytes sec

end SectionHeader

/-- A section header that stands in a file is read. -/
theorem readSectionHeader_of_isAt {file : List Byte} {pos : Nat} {sec : SectionHeader}
    (h : IsAt file pos sec.bytes) (hfits : RecordFits sec.fields) :
    readSectionHeader file pos = some sec := by
  have hwidths : sec.fields.map Prod.fst = [4, 4, 8, 8, 8, 8, 4, 4, 8, 8] := rfl
  have hread : ∀ i w v off, sec.fields[i]? = some (w, v) →
      (List.take i [4, 4, 8, 8, 8, 8, 4, 4, 8, 8]).sum = off →
      readNat file (pos + off) w = some v :=
    fun i w v _ hi => readNat_of_record h hwidths hi (hfits (w, v) (List.mem_of_getElem? hi))
  have hname : readNat file pos 4 = some sec.name := hread 0 4 _ 0 rfl (by decide)
  have htype : readNat file (pos + 4) 4 = some sec.type := hread 1 4 _ 4 rfl (by decide)
  have hflags : readNat file (pos + 8) 8 = some sec.flags := hread 2 8 _ 8 rfl (by decide)
  have haddr : readNat file (pos + 16) 8 = some sec.addr := hread 3 8 _ 16 rfl (by decide)
  have hoffset : readNat file (pos + 24) 8 = some sec.offset := hread 4 8 _ 24 rfl (by decide)
  have hsize : readNat file (pos + 32) 8 = some sec.size := hread 5 8 _ 32 rfl (by decide)
  have hlink : readNat file (pos + 40) 4 = some sec.link := hread 6 4 _ 40 rfl (by decide)
  have hinfo : readNat file (pos + 44) 4 = some sec.info := hread 7 4 _ 44 rfl (by decide)
  have haddralign : readNat file (pos + 48) 8 = some sec.addralign := hread 8 8 _ 48 rfl (by decide)
  have hentsize : readNat file (pos + 56) 8 = some sec.entsize := hread 9 8 _ 56 rfl (by decide)
  rw [readSectionHeader, hname, htype, hflags, haddr, hoffset, hsize, hlink, hinfo, haddralign,
    hentsize]
  rfl

/-- Read all section headers. -/
def readSections (file : List Byte) (hdr : FileHeader) : Option (List SectionHeader) :=
  (List.range hdr.shnum).mapM fun i => readSectionHeader file (hdr.shoff + hdr.shentsize * i)

/-- The body of a section. -/
def sectionBody (file : List Byte) (sec : SectionHeader) : Option (List Byte) :=
  slice file sec.offset sec.size

/-- The name of a section: the string at its `sh_name` in section `e_shstrndx`. -/
def sectionName (file : List Byte) (hdr : FileHeader) (secs : List SectionHeader)
    (sec : SectionHeader) : Option (List Byte) := do
  let shstrtab ← secs[hdr.shstrndx]?
  let names ← sectionBody file shstrtab
  cString names sec.name

/-- The first section with a name. -/
def findSection (file : List Byte) (hdr : FileHeader) (secs : List SectionHeader)
    (name : List Byte) : Option SectionHeader :=
  secs.find? fun sec => sectionName file hdr secs sec = some name

/-! ## Symbols -/

/-- A symbol record. -/
structure SymbolRecord where
  name : Nat
  info : Nat
  other : Nat
  shndx : Nat
  value : Nat
  size : Nat
deriving DecidableEq, Repr

/-- Read the symbol record at a position. -/
def readSymbolRecord (file : List Byte) (pos : Nat) : Option SymbolRecord := do
  let name ← readNat file pos 4
  let info ← readNat file (pos + 4) 1
  let other ← readNat file (pos + 5) 1
  let shndx ← readNat file (pos + 6) 2
  let value ← readNat file (pos + 8) 8
  let size ← readNat file (pos + 16) 8
  return { name, info, other, shndx, value, size }

namespace SymbolRecord

/-- The fields of a symbol record, each with its width. -/
def fields (sym : SymbolRecord) : List (Nat × Nat) :=
  [(4, sym.name), (1, sym.info), (1, sym.other), (2, sym.shndx), (8, sym.value), (8, sym.size)]

/-- The bytes of a symbol record. -/
def bytes (sym : SymbolRecord) : List Byte := recordBytes sym.fields

@[simp] theorem length_bytes (sym : SymbolRecord) : sym.bytes.length = 24 := by
  rw [bytes, length_recordBytes]
  simp [recordWidth, fields]

/-- The records of a symbol table are equally long. -/
theorem length_of_mem (syms : List SymbolRecord) : ∀ part ∈ syms.map bytes, part.length = 24 :=
  List.forall_mem_map.mpr fun sym _ => length_bytes sym

end SymbolRecord

/-- A symbol record that stands in a file is read. -/
theorem readSymbolRecord_of_isAt {file : List Byte} {pos : Nat} {sym : SymbolRecord}
    (h : IsAt file pos sym.bytes) (hfits : RecordFits sym.fields) :
    readSymbolRecord file pos = some sym := by
  have hwidths : sym.fields.map Prod.fst = [4, 1, 1, 2, 8, 8] := rfl
  have hread : ∀ i w v off, sym.fields[i]? = some (w, v) →
      (List.take i [4, 1, 1, 2, 8, 8]).sum = off →
      readNat file (pos + off) w = some v :=
    fun i w v _ hi => readNat_of_record h hwidths hi (hfits (w, v) (List.mem_of_getElem? hi))
  have hname : readNat file pos 4 = some sym.name := hread 0 4 _ 0 rfl (by decide)
  have hinfo : readNat file (pos + 4) 1 = some sym.info := hread 1 1 _ 4 rfl (by decide)
  have hother : readNat file (pos + 5) 1 = some sym.other := hread 2 1 _ 5 rfl (by decide)
  have hshndx : readNat file (pos + 6) 2 = some sym.shndx := hread 3 2 _ 6 rfl (by decide)
  have hvalue : readNat file (pos + 8) 8 = some sym.value := hread 4 8 _ 8 rfl (by decide)
  have hsize : readNat file (pos + 16) 8 = some sym.size := hread 5 8 _ 16 rfl (by decide)
  rw [readSymbolRecord, hname, hinfo, hother, hshndx, hvalue, hsize]
  rfl

/-- A symbol with its name resolved and its `st_info` taken apart. -/
structure Symbol where
  name : List Byte
  bind : Nat
  type : Nat
  other : Nat
  shndx : Nat
  value : Nat
  size : Nat
deriving DecidableEq, Repr

/-- Symbols that are not visible outside of their file. -/
def stbLocal : Nat := 0

/-- Symbols that are visible to all files that are linked together. -/
def stbGlobal : Nat := 1

/-- The symbol is a data object. -/
def sttObject : Nat := 1

/-- The symbol is a function. -/
def sttFunc : Nat := 2

/-- Read a symbol from its record, with its name from the string table. -/
def readSymbol (strtab record : List Byte) : Option Symbol := do
  let sym ← readSymbolRecord record 0
  let name ← cString strtab sym.name
  return {
    name, bind := sym.info / 16, type := sym.info % 16, other := sym.other,
    shndx := sym.shndx, value := sym.value, size := sym.size }

/-- A symbol is read from its record when its name stands in the string table. -/
theorem readSymbol_bytes {strtab name : List Byte} {sym : SymbolRecord}
    (hfits : RecordFits sym.fields) (hat : IsAt strtab sym.name (terminated name))
    (hname : 0 ∉ name) :
    readSymbol strtab sym.bytes =
      some {
        name, bind := sym.info / 16, type := sym.info % 16, other := sym.other,
        shndx := sym.shndx, value := sym.value, size := sym.size } := by
  rw [readSymbol, readSymbolRecord_of_isAt (IsAt.refl _) hfits]
  simp only [Option.bind_eq_bind, Option.bind_some, cString_of_isAt hat hname]
  rfl

/-! ## Object files -/

/-- What a linker takes from an object file with code and data: the bodies of `.text` and
    `.data`, the records of `.symtab` as they stand and as symbols, and its `sh_info`. -/
structure Object where
  text : List Byte
  data : List Byte
  records : List (List Byte)
  symbols : List Symbol
  info : Nat
deriving DecidableEq, Repr

/-- Read an object file whose sections of interest have the given names. -/
def readObject (textName dataName symtabName file : List Byte) : Option Object := do
  let hdr ← readFileHeader file
  let secs ← readSections file hdr
  let textSec ← findSection file hdr secs textName
  let text ← sectionBody file textSec
  let dataSec ← findSection file hdr secs dataName
  let data ← sectionBody file dataSec
  let symtab ← findSection file hdr secs symtabName
  let body ← sectionBody file symtab
  let records ← cut body symtab.entsize
  let strtabSec ← secs[symtab.link]?
  let strtab ← sectionBody file strtabSec
  let symbols ← records.mapM (readSymbol strtab)
  return { text, data, records, symbols, info := symtab.info }

end Elf64
