import Fiskas.Native.MainV2Program
import Fiskas.Spec.FunctionObject
import Fiskas.Spec.HeadersFirstFile
import Mathlib.Data.Fintype.Basic
import Mathlib.Tactic.FinCases

/-!
# The program of the headers-first writer writes an object file

A reader finds all sections of a table in the file that is written for it, each under its own name
and with its own body. The table of the program has a text, the records of two symbols and their
names, so it finds one global function, whatever the bytes of the text and the name of the function
are.

## Key results

- `hasSections_serializeTable`: the sections of any table
- `body_symbolSection`: the symbols and their names
- `program_functionObject`: what a reader finds in the file of the program
-/

namespace Fiskas.MainV2

open LittleEndian Slice Elf64

/-! ## The sections of a table -/

/-- All section headers are read from behind the file header. -/
theorem readSections_headersFirst {hdr : ElfHeader} {secs : List SectionHeader} (bodies : ByteVec)
    (hshoff : hdr.toElf.shoff = 64) (hentsize : hdr.toElf.shentsize = 64)
    (hnum : hdr.toElf.shnum = secs.length) :
    readSections (headersFirst hdr secs bodies) hdr.toElf =
      some (secs.map SectionHeader.toElf) := by
  apply readSections_of_isAt _ hentsize
  · rw [hnum, List.length_map]
  · intro sec hsec
    obtain ⟨h, -, rfl⟩ := List.mem_map.mp hsec
    exact SectionHeader.fits h
  · rw [hshoff, List.map_map]
    exact ⟨_, bodies, rfl, length_fileHeader hdr⟩

section Table

variable {n : Nat} {hdr : ElfHeader} {table : Vector Section n} {s : Fin n}

/-- The body of a section in the end: the string table has the names behind what it had. -/
def bodyOf (table : Vector Section n) (s i : Fin n) : ByteVec :=
  ((withNames table s ((bodyOrder table s).map fun i => (table.get i).name).flatten).get i).body

theorem bodyOf_ne {i : Fin n} (h : i ≠ s) : bodyOf table s i = (table.get i).body := by
  rw [bodyOf, withNames_ne _ _ _ h]

/-- The header of a section with its place in the string table and in the bodies. -/
def headerOf (table : Vector Section n) (s : Fin n) (nameOffset offset : Fin n → Nat)
    (i : Fin n) : SectionHeader :=
  fixedHeader (table.get i).header (nameOffset i) (bodyOf table s i).length
    (64 + 64 * n + offset i)

section Placed

variable {nameOf : Fin n → ByteVec} {nameOffset offset : Fin n → Nat} {bodies : ByteVec}

/-- All values fit the fields that they are stored in. -/
theorem toElf_headerOf (hname : ∀ i, nameOffset i < 2 ^ 32)
    (hbody : ∀ i, IsAt bodies (offset i) (bodyOf table s i))
    (hout : 64 + 64 * n + bodies.length < 2 ^ 64) (i : Fin n) :
    (headerOf table s nameOffset offset i).toElf = { (table.get i).header.toElf with
      name := nameOffset i
      offset := 64 + 64 * n + offset i
      size := (bodyOf table s i).length } := by
  have hle := (hbody i).le
  exact toElf_fixedHeader _ (hname i) (by omega) (by omega)

/-- When the names stand in the string table and the bodies stand one behind another, a reader
    finds all sections. -/
theorem hasSections_headersFirst (hn : n < 2 ^ 16) (hentsize : hdr.eShentsize = 64)
    (hoffset : ∀ i, nameOffset i < 2 ^ 32)
    (hname : ∀ i, 0 ∉ nameOf i ∧ IsAt (bodyOf table s s) (nameOffset i) (terminated (nameOf i)))
    (hbody : ∀ i, IsAt bodies (offset i) (bodyOf table s i))
    (hout : 64 + 64 * n + bodies.length < 2 ^ 64) :
    HasSections (headersFirst (fixedElfHeader hdr s)
        ((List.finRange n).map (headerOf table s nameOffset offset)) bodies)
      (fixedElfHeader hdr s).toElf
      (((List.finRange n).map (headerOf table s nameOffset offset)).map SectionHeader.toElf)
      (List.finRange n) nameOf (bodyOf table s) := by
  have hlength : ((List.finRange n).map (headerOf table s nameOffset offset)).length = n := by
    rw [List.length_map, List.length_finRange]
  have hheader : (fixedElfHeader hdr s).toElf =
      { hdr.toElf with shoff := 64, shnum := n, shstrndx := s } := toElf_fixedElfHeader hdr hn s
  have hbodies : ∀ i, sectionBody (headersFirst (fixedElfHeader hdr s)
      ((List.finRange n).map (headerOf table s nameOffset offset)) bodies)
        (headerOf table s nameOffset offset i).toElf = some (bodyOf table s i) := by
    intro i
    have hslice := (isAt_headersFirst (fixedElfHeader hdr s)
      ((List.finRange n).map (headerOf table s nameOffset offset)) (hbody i)).slice
    rw [hlength] at hslice
    rw [toElf_headerOf hoffset hbody hout]
    exact hslice
  refine ⟨readFileHeader_headersFirst _ _ _, readSections_headersFirst bodies ?_ ?_ ?_, ?_⟩
  · rw [hheader]
  · rw [hheader]
    exact congrArg BitVec.toNat hentsize
  · rw [hheader, hlength]
  · rw [List.forall₂_map_left_iff, List.forall₂_map_left_iff, List.forall₂_same]
    intro i _
    refine ⟨?_, hbodies i⟩
    -- The index in the file header leads to the string table, which has the name.
    have hstrtab : (((List.finRange n).map (headerOf table s nameOffset offset)).map
        SectionHeader.toElf)[(fixedElfHeader hdr s).toElf.shstrndx]? =
        some (headerOf table s nameOffset offset s).toElf := by
      rw [hheader]
      simp
    rw [sectionName, hstrtab]
    simp only [Option.bind_eq_bind, Option.bind_some, hbodies]
    rw [toElf_headerOf hoffset hbody hout]
    exact cString_of_isAt (hname i).2 (hname i).1

end Placed

/-- A reader finds all sections of the table in the file, as long as the string table stays below
    `2 ^ 32` bytes and the output below `2 ^ 64`. -/
theorem hasSections_serializeTable {nameOf : Fin n → ByteVec} (hentsize : hdr.eShentsize = 64)
    (htypes : Function.Injective fun i : Fin n => (table.get i).type)
    (hs : (table.get s).type = .sectionHeaderStringTable)
    (hnames : ∀ i, 0 ∉ nameOf i ∧ (table.get i).name = terminated (nameOf i))
    (hstrtab : (table.get s).body.length +
      (table.toList.map fun sec => sec.name.length).sum < 2 ^ 32)
    (hout : 64 + 64 * n +
      (table.toList.map fun sec => sec.body.length + sec.name.length).sum < 2 ^ 64) :
    ∃ ser table' file, (({} : Serializer) <<< hdr).serializeTable table = .ok (ser, table') ∧
      ser.dumpTo = .ok file ∧ ∃ hdr' secs,
        HasSections file hdr' secs (List.finRange n) nameOf (bodyOf table s) ∧
        ∀ i : Fin n, ∃ sec, secs[i.val]? = some sec ∧
          sec = { (table.get i).header.toElf with
            name := sec.name, offset := sec.offset, size := sec.size } := by
  obtain ⟨⟨ser, table'⟩, hser, hw⟩ :=
    serializeTable_written (({} : Serializer) <<< hdr) htypes hs
  have hlen := length_bodies hw htypes hs
  obtain ⟨nameOffset, offset, hdump, hplaced⟩ := dumpTo_written htypes hs hw (by omega)
  have hn := length_le_of_injective htypes
  -- The bodies that are written are those in the end.
  have hbodyOf : ∀ i, (table'.get i).body = bodyOf table s i := by
    intro i
    have htable : table' = withNames table s _ := hw.table
    rw [htable, bodyOf]
  have hlast := strtab_written hw
  simp only [hbodyOf] at hdump hplaced hlen hlast
  have hoffset : ∀ i, nameOffset i < 2 ^ 32 := by
    intro i
    have hle := (hplaced i).1.le
    rw [hlast, List.length_append, length_names htypes hs, (hnames i).2, length_terminated] at hle
    omega
  rw [← hlen] at hout
  have hname : ∀ i, 0 ∉ nameOf i ∧
      IsAt (bodyOf table s s) (nameOffset i) (terminated (nameOf i)) :=
    fun i => ⟨(hnames i).1, (hnames i).2 ▸ (hplaced i).1⟩
  have hsections := @hasSections_headersFirst n hdr table s nameOf nameOffset offset _ (by omega)
    hentsize hoffset hname (fun i => (hplaced i).2) hout
  refine ⟨ser, table', _, hser, hdump, _, _, hsections, fun i => ?_⟩
  refine ⟨(headerOf table s nameOffset offset i).toElf, by simp, ?_⟩
  rw [toElf_headerOf hoffset (fun i => (hplaced i).2) hout]

end Table

/-! ## The symbols -/

/-- `body()` on a fresh section: the records of the null symbol and the function, and their
    names. -/
theorem body_symbolSection (name : ByteVec) :
    (({} : SymbolSection).body name).1 = (functionRecords.map SymbolRecord.bytes).flatten ∧
      (({} : SymbolSection).body name).2.out = table [[], name] := by
  constructor
  · rfl
  · show [] ++ [0] ++ name ++ [0] = terminated [] ++ (terminated name ++ [])
    rw [List.append_nil]
    exact List.append_assoc [0] name [0]

/-! ## The program -/

namespace Main

/-- The names of the sections, without their zero bytes. -/
def nameOf (i : Fin 5) : ByteVec :=
  #v[str "", str ".text", str ".symtab", str ".strtab", str ".shstrtab"].get i

variable {textData name : ByteVec}

theorem name_sectionHeaderTable (i : Fin 5) :
    0 ∉ nameOf i ∧ ((sectionHeaderTable textData name).get i).name = terminated (nameOf i) := by
  have hzero : ∀ i, 0 ∉ nameOf i := by decide
  refine ⟨hzero i, ?_⟩
  fin_cases i <;> rfl

theorem types_injective :
    Function.Injective fun i : Fin 5 => ((sectionHeaderTable textData name).get i).type := by
  have htype : ∀ i, ((sectionHeaderTable textData name).get i).type =
      ((sectionHeaderTable [] []).get i).type := by
    intro i
    fin_cases i <;> rfl
  have hinj : ∀ i j : Fin 5, ((sectionHeaderTable [] []).get i).type =
      ((sectionHeaderTable [] []).get j).type → i = j := by decide
  intro i j hij
  have hij : ((sectionHeaderTable textData name).get i).type =
      ((sectionHeaderTable textData name).get j).type := hij
  rw [htype, htype] at hij
  exact hinj i j hij

/-- The bodies and the names of all sections together. -/
theorem length_sectionHeaderTable :
    ((sectionHeaderTable textData name).toList.map fun sec =>
      sec.body.length + sec.name.length).sum = 83 + textData.length + name.length := by
  have hsymtab : (({} : SymbolSection).body name).1.length = 48 := by
    rw [(body_symbolSection name).1, length_functionRecords]
  have hstrtab : (({} : SymbolSection).body name).2.out.length = name.length + 2 := by
    rw [(body_symbolSection name).2, length_table]
    simp
    omega
  show (0 + 1) + ((textData.length + 6) + (((({} : SymbolSection).body name).1.length + 8) +
    (((({} : SymbolSection).body name).2.out.length + 8) + ((0 + 10) + 0)))) = _
  rw [hsymtab, hstrtab]
  omega

/-- The bodies of the sections that a reader looks at. -/
theorem bodyOf_sectionHeaderTable :
    bodyOf (sectionHeaderTable textData name) 4 1 = textData ∧
      bodyOf (sectionHeaderTable textData name) 4 2 =
        (functionRecords.map SymbolRecord.bytes).flatten ∧
      bodyOf (sectionHeaderTable textData name) 4 3 = table [[], name] := by
  obtain ⟨hsymbols, hnames⟩ := body_symbolSection name
  refine ⟨bodyOf_ne (by decide), ?_, ?_⟩
  · exact (bodyOf_ne (by decide)).trans hsymbols
  · exact (bodyOf_ne (by decide)).trans hnames

/-- The file of the program, and what a reader finds in it. -/
theorem program_functionObject (hname : 0 ∉ name)
    (hsize : 467 + textData.length + name.length < 2 ^ 64) :
    ∃ file, program textData name = .ok file ∧
      readTextObject (str ".text") (str ".symtab") file =
        some (functionObject textData name) := by
  have hnames : ((sectionHeaderTable textData name).toList.map fun sec =>
      sec.name.length).sum = 33 := rfl
  have hstrtab : ((sectionHeaderTable textData name).get 4).body.length +
      ((sectionHeaderTable textData name).toList.map fun sec => sec.name.length).sum < 2 ^ 32 := by
    rw [hnames]
    show 0 + 33 < 2 ^ 32
    omega
  have hout : 64 + 64 * 5 + ((sectionHeaderTable textData name).toList.map fun sec =>
      sec.body.length + sec.name.length).sum < 2 ^ 64 := by
    rw [length_sectionHeaderTable]
    omega
  obtain ⟨ser, table', file, hser, hdump, hdr, secs, hsections, hfields⟩ :=
    @hasSections_serializeTable 5 newElfHeader (sectionHeaderTable textData name) 4 nameOf rfl
      types_injective rfl name_sectionHeaderTable hstrtab hout
  refine ⟨file, ?_, ?_⟩
  · rw [program, hser]
    exact hdump
  · -- The header of the symbol table.
    obtain ⟨symtab, hsymtab, hsec⟩ := hfields 2
    have htextIdx : ((List.finRange 5).findIdx? fun i => nameOf i = str ".text") = some 1 := by
      decide
    have hsymtabIdx : ((List.finRange 5).findIdx? fun i => nameOf i = str ".symtab") = some 2 := by
      decide
    obtain ⟨hentsize, hlink, hinfo⟩ : symtab.entsize = 24 ∧ symtab.link = 3 ∧ symtab.info = 1 := by
      rw [hsec]
      exact ⟨rfl, rfl, rfl⟩
    obtain ⟨htext, hrecords, hstrtab⟩ := @bodyOf_sectionHeaderTable textData name
    have hobj := hsections.readTextObject_eq htextIdx rfl hsymtabIdx rfl hsymtab hentsize
      (hlink ▸ rfl) hrecords (hstrtab ▸ readSymbol_functionRecords hname)
    rw [hobj, hinfo]
    exact congrArg (fun body => some (TextObject.mk body 1 [nullSymbol, function name] 1)) htext

end Main

end Fiskas.MainV2
