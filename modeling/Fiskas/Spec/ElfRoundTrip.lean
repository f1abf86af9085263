import Fiskas.Spec.ElfLayout

/-!
# Reading an object file back

The code that went into an object file is what a reader of object files takes out of it, as
long as no symbol name has a zero byte and the offsets of the names fit the 32 bits that a
symbol record has for them.

## Key results

- `readSymbol_records`: the symbol table and its string table
- `readObject_buildElfFile`: the round trip
-/

namespace Fiskas

open Slice LittleEndian Elf64

/-! ## Symbols -/

/-- A code symbol as a linker sees it. -/
def Code.Symbol.toElf (s : Code.Symbol) : Elf64.Symbol where
  name := s.name
  bind := Elf64.stbGlobal
  type := if s.codeSection = .text then Elf64.sttFunc else Elf64.sttObject
  other := 0
  shndx := s.codeSection.toUnderlying.toNat
  value := s.offset.toNat
  size := s.value.toNat

/-- The symbol of the zero record. -/
def nullSymbol : Elf64.Symbol where
  name := []
  bind := Elf64.stbLocal
  type := 0
  other := 0
  shndx := 0
  value := 0
  size := 0

/-- The string table of the symbols is the empty name and the table of the other names. -/
private theorem table_symbolNames (code : Code) :
    table (symbolNames code) = [0] ++ table (code.symbols.map (·.name)) := by
  rw [symbolNames, table_cons]
  rfl

/-- The records of the symbol table are read as the zero symbol and the symbols of the code. -/
theorem readSymbol_records {code : Code} (hname : ∀ s ∈ code.symbols, 0 ∉ s.name)
    (hsize : (code.symbols.map fun s => s.name.length + 1).sum < 2 ^ 32) :
    ((symbolRecords code).map SymbolRecord.bytes).mapM (readSymbol (table (symbolNames code))) =
      some (nullSymbol :: code.symbols.map Code.Symbol.toElf) := by
  have hbound : ([0] : ByteVec).length + (table (code.symbols.map (·.name))).length ≤ 2 ^ 32 := by
    rw [length_table, List.map_map]
    show 1 + (code.symbols.map fun s => s.name.length + 1).sum ≤ 2 ^ 32
    omega
  have hnames := names_symbolsFrom [0] code.symbols hbound
  rw [← table_symbolNames] at hnames
  apply List.mapM_eq_some_of_forall₂
  rw [symbolRecords, symbolsOf, List.map_map, List.map_cons]
  refine .cons ?_ ?_
  · -- The zero record: its name offset is that of the empty name.
    have hat : IsAt (table (symbolNames code)) 0 (terminated []) := by
      rw [table_symbolNames]
      exact .intro [] [0] _
    exact readSymbol_bytes (Symbol.fits {}) hat List.not_mem_nil
  · rw [List.forall₂_map_left_iff, List.forall₂_map_right_iff]
    -- Each name stands in the table and has no zero byte.
    have hboth := (List.forall₂_and_left code.symbols _).mpr ⟨hname, hnames.flip⟩
    refine hboth.flip.imp fun sym s h => ?_
    obtain ⟨hzero, ⟨offset, rfl⟩, hat⟩ := h
    have hread := readSymbol_bytes (Symbol.fits (symbolAt offset s)) hat hzero
    -- `st_info` has the binding in its upper and the type in its lower half.
    have hinfo : (symbolAt offset s).toElf.info / 16 = Elf64.stbGlobal ∧
        (symbolAt offset s).toElf.info % 16 =
          if s.codeSection = .text then Elf64.sttFunc else Elf64.sttObject := by
      show (BitVec.toNat (if s.codeSection = .text then (0x12 : U8) else 0x11)) / 16 = _ ∧
        (BitVec.toNat (if s.codeSection = .text then (0x12 : U8) else 0x11)) % 16 = _
      split <;> decide
    rw [hinfo.1, hinfo.2] at hread
    exact hread

/-! ## The round trip -/

/-- A section of the file, as the reader finds it: its name, its body and its fields. -/
private def Found (o : HashOrders) (code : Code) (sec : Elf64.SectionHeader)
    (secTy : SectionType) : Prop :=
  sectionName (fileOf o code) (fileHeader o code).toElf (sectionHeaders o code) sec =
      some (SectionTable.nameOf secTy) ∧
    sectionBody (fileOf o code) sec = some ((built o code).body secTy) ∧
    sec = { ((built o code).header secTy).toElf with offset := sec.offset }

private theorem found_sections {o : HashOrders} {code : Code}
    (hsize : (fileOf o code).length < 2 ^ 64) :
    List.Forall₂ (Found o code) (sectionHeaders o code) SectionTable.order :=
  (sectionName_fileOf hsize).and ((sectionBody_fileOf hsize).and fields_sectionHeaders)

/-- No two sections have one name. -/
private theorem nameOf_inj {secTy secTy' : SectionType}
    (h : SectionTable.nameOf secTy = SectionTable.nameOf secTy') : secTy = secTy' := by
  cases secTy <;> cases secTy' <;> first | rfl | exact absurd h (by decide)

/-- Every section is found by its name. -/
private theorem findSection_fileOf {o : HashOrders} {code : Code}
    (hsize : (fileOf o code).length < 2 ^ 64) (secTy : SectionType) :
    ∃ sec, findSection (fileOf o code) (fileHeader o code).toElf (sectionHeaders o code)
        (SectionTable.nameOf secTy) = some sec ∧ Found o code sec secTy := by
  -- The first section with the name is this one, since no other section has that name.
  apply List.find?_of_forall₂ (found_sections hsize) (SectionTable.mem_order secTy)
  intro sec secTy' hfound
  rw [decide_eq_true_eq, hfound.1, Option.some.injEq]
  exact ⟨nameOf_inj, fun h => by rw [h]⟩

/-- The reader takes a code out of an object file: its text and data, a zero record, and behind
    it the symbols of the code in order, the first of which `sh_info` points at. -/
structure ReadBack (code : Code) (obj : Elf64.Object) : Prop where
  text : obj.text = code.text
  data : obj.data = code.data
  zero : obj.records.head? = some (List.replicate 24 0)
  length : obj.records.length = code.symbols.length + 1
  symbols : obj.symbols = nullSymbol :: code.symbols.map Code.Symbol.toElf
  info : obj.info = 1
  locals : ∀ i sym, obj.symbols[i]? = some sym → (sym.bind = Elf64.stbLocal ↔ i < obj.info)

/-- The object that the file of a code holds. -/
def objectOf (code : Code) : Elf64.Object where
  text := code.text
  data := code.data
  records := (symbolRecords code).map SymbolRecord.bytes
  symbols := nullSymbol :: code.symbols.map Code.Symbol.toElf
  info := 1

/-- That object is the code. -/
theorem readBack_objectOf (code : Code) : ReadBack code (objectOf code) where
  text := rfl
  data := rfl
  zero := by
    have hzero : SymbolRecord.bytes (Symbol.toElf {}) = List.replicate 24 0 :=
      recordBytes_zero (by decide)
    show ((symbolRecords code).map SymbolRecord.bytes).head? = _
    rw [symbolRecords, symbolsOf, List.map_cons, List.map_cons, List.head?_cons, hzero]
  length := by
    show ((symbolRecords code).map SymbolRecord.bytes).length = _
    rw [symbolRecords, symbolsOf, List.length_map, List.length_map, List.length_cons,
      length_symbolsFrom]
  symbols := rfl
  info := rfl
  locals := by
    intro i sym hi
    cases i with
    | zero =>
      obtain rfl : nullSymbol = sym := Option.some.inj hi
      exact iff_of_true rfl Nat.one_pos
    | succ i =>
      -- Every symbol of the code is global.
      replace hi : (code.symbols.map Code.Symbol.toElf)[i]? = some sym := hi
      obtain ⟨s, _, rfl⟩ := List.mem_map.mp (List.mem_of_getElem? hi)
      have hlocal : ¬ i + 1 < 1 := by omega
      exact iff_of_false Nat.one_ne_zero hlocal

/-- The reader finds that object in the file that is written. -/
theorem readObject_fileOf {o : HashOrders} {code : Code}
    (hname : ∀ s ∈ code.symbols, 0 ∉ s.name)
    (hstrtab : (code.symbols.map fun s => s.name.length + 1).sum < 2 ^ 32)
    (hsize : (fileOf o code).length < 2 ^ 64) :
    readObject (str ".text") (str ".data") (str ".symtab") (fileOf o code) =
      some (objectOf code) := by
  obtain ⟨text, htext, _, htextBody, _⟩ := findSection_fileOf hsize .text
  obtain ⟨data, hdata, _, hdataBody, _⟩ := findSection_fileOf hsize .data
  obtain ⟨symtab, hsymtab, _, hsymtabBody, hfields⟩ := findSection_fileOf hsize .symTab
  obtain ⟨hentsize, hlink, hinfo⟩ : symtab.entsize = 24 ∧
      symtab.link = SectionType.symTabStrTab.toUnderlying.toNat ∧ symtab.info = 1 := by
    obtain ⟨off, hheader, _⟩ := header_built o code .symTab
    rw [hfields, hheader]
    exact ⟨rfl, rfl, rfl⟩
  -- `sh_link` of the symbol table is the index of its string table.
  obtain ⟨strtab, hstrtabSec, hstrtabBody⟩ := sectionAt_fileOf hsize .symTabStrTab
  have hrecords : cut ((symbolRecords code).map SymbolRecord.bytes).flatten 24 =
      some ((symbolRecords code).map SymbolRecord.bytes) :=
    cut_flatten (by decide) (SymbolRecord.length_of_mem _)
  rw [body_built] at htextBody hdataBody hsymtabBody hstrtabBody
  have htextName : str ".text" = SectionTable.nameOf .text := by decide
  have hdataName : str ".data" = SectionTable.nameOf .data := by decide
  have hsymtabName : str ".symtab" = SectionTable.nameOf .symTab := by decide
  -- The reader, step by step.
  rw [readObject, readFileHeader_fileOf, htextName, hdataName, hsymtabName]
  simp only [Option.bind_eq_bind, Option.bind_some, readSections_fileOf hsize, htext, htextBody,
    hdata, hdataBody, hsymtab, hsymtabBody, hentsize, hrecords, hlink, hstrtabSec, hstrtabBody,
    readSymbol_records hname hstrtab, hinfo]
  rfl

/-- Whatever the iteration orders, the file that is written for a code is read back to that
    code, when no symbol name has a zero byte, the names with their terminators take fewer than
    `2^32` bytes and the file fewer than `2^64`. -/
theorem readObject_buildElfFile (o : HashOrders) (code : Code)
    (hname : ∀ s ∈ code.symbols, 0 ∉ s.name)
    (hstrtab : (code.symbols.map fun s => s.name.length + 1).sum < 2 ^ 32) :
    ∃ file, buildElfFile o code = some file ∧
      (file.length < 2 ^ 64 → ∃ obj,
        readObject (str ".text") (str ".data") (str ".symtab") file = some obj ∧
          ReadBack code obj) := by
  refine ⟨fileOf o code, buildElfFile_eq o code, fun hsize => ?_⟩
  exact ⟨objectOf code, readObject_fileOf hname hstrtab hsize, readBack_objectOf code⟩

/-- The dummy code, with two functions and a variable, is read back. -/
theorem readObject_buildElfFile_dummy :
    ∃ obj, (buildElfFile .listed .createDummyCode).bind
        (readObject (str ".text") (str ".data") (str ".symtab")) = some obj ∧
      ReadBack .createDummyCode obj := by
  obtain ⟨file, hfile, hread⟩ := readObject_buildElfFile .listed .createDummyCode
    (by decide) (by decide)
  obtain ⟨obj, hobj, hback⟩ := hread (length_file_dummy hfile)
  exact ⟨obj, by rw [hfile]; exact hobj, hback⟩

end Fiskas
