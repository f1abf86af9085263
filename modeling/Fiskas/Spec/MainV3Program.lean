import Fiskas.Native.MainV3Program
import Fiskas.Spec.FunctionObject
import Fiskas.Spec.SerializerCheck
import Fiskas.Spec.SerializerDirect

/-!
# The program of the serializer with entries writes an object file

Every label of the program has one fix, as wide as its field, and no relocation comes with a
position. So the dumped file is made of the headers with the values of their labels, the text, the
string tables and the records of the symbols, and a reader finds the text and one global function
in it, whatever the bytes of the text and the name of the function are.

## Key results

- `lastValue_program`: the value of every label
- `bytes_program`: the file, part by part
- `program_readBack`: what a reader finds in it
-/

namespace Fiskas.MainV3

open LittleEndian Slice Template Elf64

/-! ## String table -/

/-- Added names stand behind what was there. -/
theorem StringTable.data_addStrings (t : StringTable) (names : List ByteVec) :
    (t.addStrings names).data = t.data ++ table names := by
  induction names generalizing t with
  | nil => exact (List.append_nil _).symm
  | cons name names ih =>
    rw [addStrings, List.foldl_cons]
    have hrest := ih (t.addString name).2
    rw [addStrings] at hrest
    rw [hrest, table_cons, ← List.append_assoc]
    show t.data ++ name ++ [0] ++ _ = t.data ++ (name ++ [0]) ++ _
    rw [List.append_assoc t.data]

/-- The name that was added last has the offset that it got. -/
theorem StringTable.offset_addString (t : StringTable) (name : ByteVec) :
    (t.addString name).2.offset name = (t.addString name).1 := by
  show ((t.offsets.assign name (ByteVec.size t.data)).find name).getD 0 = ByteVec.size t.data
  rw [UnorderedMap.find_assign, if_pos rfl]
  rfl

/-! ## Headers with their values -/

/-- What a field holds when a relocation has the value of its label. -/
def Entry.filled {w : Nat} (values : LabelType → U64) : Entry (BitVec w) → BitVec w
  | .value v => v
  | .relocation reloc => (values reloc.label).setWidth w

/-- A field is as long as its type. -/
theorem Entry.length_piece {w : Nat} (e : Entry (BitVec w)) : e.piece.content.length = w / 8 := by
  have hlength (v : BitVec w) : (Fiskas.Serializer.pushBytes [] v (w / 8)).length = w / 8 := by
    rw [Fiskas.Serializer.pushBytes_eq, List.nil_append, length_bytes]
  cases e with
  | value v => exact hlength v
  | relocation reloc => exact hlength 0

theorem Entry.length_piece_array {size : Nat} (e : Entry (Vector U8 size)) :
    e.piece.content.length = size := by
  cases e with
  | value v => exact Vector.length_toList
  | relocation reloc => exact Vector.length_toList

/-- The bytes of a field are those of what it holds. -/
theorem Entry.content_filled {w : Nat} (values : LabelType → U64) (e : Entry (BitVec w)) :
    (directPiece values e.piece).content = bytes (w / 8) (e.filled values).toNat := by
  cases e with
  | value v =>
    show Fiskas.Serializer.pushBytes [] v (w / 8) = _
    rw [Fiskas.Serializer.pushBytes_eq, List.nil_append]
    rfl
  | relocation reloc =>
    show bytes (Entry.relocation reloc : Entry (BitVec w)).piece.content.length _ = _
    rw [length_piece, filled, BitVec.toNat_setWidth, bytes_mod _ (Nat.mul_div_le w 8)]

section

variable (values : LabelType → U64)

/-- The header of the present writer with the values; the identification is the one given. -/
def ElfHeader.filled (ident : Vector U8 16) (h : ElfHeader) : Fiskas.ElfHeader where
  eIdent := ident
  eType := h.eType.filled values
  eMachine := h.eMachine.filled values
  eVersion := h.eVersion.filled values
  eEntry := h.eEntry.filled values
  ePhoff := h.ePhoff.filled values
  eShoff := h.eShoff.filled values
  eFlags := h.eFlags.filled values
  eEhsize := h.eEhsize.filled values
  ePhentsize := h.ePhentsize.filled values
  ePhnum := h.ePhnum.filled values
  eShentsize := h.eShentsize.filled values
  eShnum := h.eShnum.filled values
  eShstrndx := h.eShstrndx.filled values

def SectionHeader.filled (h : SectionHeader) : Fiskas.SectionHeader where
  shName := h.shName.filled values
  shType := h.shType.filled values
  shFlags := h.shFlags.filled values
  shAddr := h.shAddr.filled values
  shOffset := h.shOffset.filled values
  shSize := h.shSize.filled values
  shLink := h.shLink.filled values
  shInfo := h.shInfo.filled values
  shAddralign := h.shAddralign.filled values
  shEntsize := h.shEntsize.filled values

def Symbol.filled (s : Symbol) : Fiskas.Symbol where
  stName := s.stName.filled values
  stInfo := s.stInfo.filled values
  stOther := s.stOther.filled values
  stShndx := s.stShndx.filled values
  stValue := s.stValue.filled values
  stSize := s.stSize.filled values

/-- A file header with its values filled in is one of the present writer. -/
theorem render_elfHeader {h : ElfHeader} {ident : Vector U8 16} (hident : h.eIdent = .value ident) :
    render (h.pieces.map (directPiece values)) =
      ident.toList ++ (h.filled values ident).toElf.bytes := by
  simp only [ElfHeader.pieces, List.map_cons, List.map_nil, render_cons, render_nil,
    Entry.content_filled, hident]
  rfl

theorem render_sectionHeader (h : SectionHeader) :
    render (h.pieces.map (directPiece values)) = (h.filled values).toElf.bytes := by
  simp only [SectionHeader.pieces, List.map_cons, List.map_nil, render_cons, render_nil,
    Entry.content_filled]
  rfl

theorem render_symbol (s : Symbol) :
    render (s.pieces.map (directPiece values)) = (s.filled values).toElf.bytes := by
  simp only [Symbol.pieces, List.map_cons, List.map_nil, render_cons, render_nil,
    Entry.content_filled]
  rfl

end

/-! ## The fixes -/

/-- A run records the fixes of its operations and the relocations of its pieces. -/
theorem labels_run (ops : List Op) :
    (({} : Serializer).run ops).fixLabels = (fixes ops).map (·.labelToFix) ∧
      (({} : Serializer).run ops).relocLabels = (labels (pieces ops)).map (·.label) := by
  rw [run_eq_fixesAt]
  constructor
  · have hfixes (base : Nat) :
        (fixesAt base ops).map (·.labelToFix) = (fixes ops).map (·.labelToFix) := by
      induction ops generalizing base with
      | nil => rfl
      | cons op ops ih =>
        rw [fixesAt, fixes_cons, List.map_append, List.map_append, ih]
        cases op.fix? <;> rfl
    exact hfixes 0
  · show (relocationsAt 0 (pieces ops)).map (·.label) = _
    rw [relocationsAt, ← map_snd_marks 0, List.map_map, List.map_map]
    rfl

namespace Main

/-- What an operation streams, in bytes. -/
private theorem length_pieces :
    (∀ h, (render (Op.elfHeader h).pieces).length = 64) ∧
      (∀ h, (render (Op.sectionHeader h).pieces).length = 64) ∧
      (∀ s, (render (Op.symbol s).pieces).length = 24) ∧
      (∀ s, (render (Op.ofSection s).pieces).length = s.data.length) ∧
      ∀ info, (render (Op.fixRelocation info).pieces).length = 0 := by
  refine ⟨fun h => ?_, fun h => ?_, fun s => ?_, fun s => ?_, fun info => rfl⟩
  · simp [Op.pieces, ElfHeader.pieces, Entry.length_piece, Entry.length_piece_array]
  · simp [Op.pieces, SectionHeader.pieces, Entry.length_piece]
  · simp [Op.pieces, Symbol.pieces, Entry.length_piece]
  · simp [Op.pieces]

/-! ### Where the sections start -/

/-- The text stands behind the file header and five section headers. -/
def textStart : Nat := 384

def shStrtabStart (textData : ByteVec) : Nat := textStart + textData.length

def symtabStrtabStart (textData : ByteVec) : Nat :=
  shStrtabStart textData + shStrtabSection.data.length

def symtabStart (textData name : ByteVec) : Nat :=
  symtabStrtabStart textData + (symtabStrtabSection name).data.length

/-- The value of every label. -/
def valueOf (textData name : ByteVec) : LabelType → U64
  | .ofElfHeader .sectionHeaderTableOffset => 64
  | .ofElfHeader .numSectionHeaders => 5
  | .ofElfHeader .sectionHeaderStrTabIdx => 4
  | .ofSection ⟨.null, .sectionName⟩ => shStrtabSection.offset (str "")
  | .ofSection ⟨.null, .sectionOffset⟩ => BitVec.ofNat 64 textStart
  | .ofSection ⟨.text, .sectionName⟩ => shStrtabSection.offset (str ".text")
  | .ofSection ⟨.text, .sectionOffset⟩ => BitVec.ofNat 64 textStart
  | .ofSection ⟨.text, .sectionSize⟩ => ByteVec.size textData
  | .ofSection ⟨.symTab, .sectionName⟩ => shStrtabSection.offset (str ".symtab")
  | .ofSection ⟨.symTab, .sectionOffset⟩ => BitVec.ofNat 64 (symtabStart textData name)
  | .ofSection ⟨.symTab, .sectionSize⟩ => symtabSize name
  | .ofSection ⟨.symTab, .link⟩ => 3
  | .ofSection ⟨.symTab, .info⟩ => 1
  | .ofSection ⟨.symTab, .textSectionIdx⟩ => 1
  | .ofSection ⟨.symTabStringTable, .sectionName⟩ => shStrtabSection.offset (str ".strtab")
  | .ofSection ⟨.symTabStringTable, .sectionOffset⟩ =>
    BitVec.ofNat 64 (symtabStrtabStart textData)
  | .ofSection ⟨.symTabStringTable, .sectionSize⟩ =>
    ByteVec.size (symtabStrtabSection name).data
  | .ofSection ⟨.sectionHeaderStringTable, .sectionName⟩ =>
    shStrtabSection.offset (str ".shstrtab")
  | .ofSection ⟨.sectionHeaderStringTable, .sectionOffset⟩ =>
    BitVec.ofNat 64 (shStrtabStart textData)
  | .ofSection ⟨.sectionHeaderStringTable, .sectionSize⟩ => ByteVec.size shStrtabSection.data
  | _ => 0

/-- The fixes of the program give every label its value. -/
theorem lastValue_program (textData name : ByteVec) :
    (({} : Serializer).run (program textData name)).lastValue = valueOf textData name := by
  have hfixes : (({} : Serializer).run (program textData name)).relocationFixes =
      fixesAt 0 (program textData name) := by
    rw [run_eq_fixesAt]
    rfl
  funext label
  rw [Serializer.lastValue, hfixes]
  -- The fixes without values have the sizes of the buffer that they are recorded at.
  simp only [program, fixesAt, fixWith, fixHere, Op.fix?, fixedAt, length_pieces.1,
    length_pieces.2.1, length_pieces.2.2.1, length_pieces.2.2.2.1, length_pieces.2.2.2.2,
    Option.map_none, Option.map_some, Option.toList_none, Option.toList_some, List.nil_append,
    List.cons_append, Nat.zero_add, Nat.add_zero, Nat.reduceAdd, Option.getD_some,
    Option.getD_none]
  -- Whatever the label is, the last fix with it is found among the fixes of the program.
  cases label with
  | ofElfHeader label => cases label <;> rfl
  | ofSection label =>
    obtain ⟨secType, label⟩ := label
    cases secType <;> cases label <;> rfl

/-- The width of the fields with a label. -/
private def width : LabelType → Nat
  | .ofElfHeader .sectionHeaderTableOffset => 8
  | .ofElfHeader _ => 2
  | .ofSection ⟨_, .sectionOffset⟩ => 8
  | .ofSection ⟨_, .sectionSize⟩ => 8
  | .ofSection ⟨_, .textSectionIdx⟩ => 2
  | .ofSection _ => 4

/-- No relocation of the program comes with a position. -/
private theorem noPositions_program (textData name : ByteVec) :
    NoPositions (pieces (program textData name)) := by
  have hall : (pieces (program textData name)).all
      (fun p => p.label.all fun reloc => reloc.offset.isNone) = true := rfl
  intro p hp reloc hreloc
  have hlabel := List.all_eq_true.mp hall p hp
  rw [hreloc] at hlabel
  exact Option.isNone_iff_eq_none.mp hlabel

/-- Every fix of the program is as wide as its fields. -/
private theorem widthsFit_program (textData name : ByteVec) :
    WidthsFit (fixes (program textData name)) (pieces (program textData name)) := by
  have hfixes : (fixes (program textData name)).all
      (fun info => info.valueSizeInBytes.toNat == width info.labelToFix) = true := rfl
  have hpieces : (pieces (program textData name)).all
      (fun p => p.label.all fun reloc => p.content.length == width reloc.label) = true := rfl
  intro info hinfo p hp reloc hreloc hlabel
  have hwidth := List.all_eq_true.mp hfixes info hinfo
  have hlength := List.all_eq_true.mp hpieces p hp
  rw [hreloc] at hlength
  rw [beq_iff_eq.mp hwidth, ← hlabel]
  exact beq_iff_eq.mp hlength

/-! ## The file -/

/-- The file header. -/
def fileHeader : FileHeader where
  type := 1
  machine := 62
  version := 1
  entry := 0
  phoff := 0
  shoff := 64
  flags := 0
  ehsize := 64
  phentsize := 0
  phnum := 0
  shentsize := 64
  shnum := 5
  shstrndx := 4

/-- A section header with a name, a type, an offset and a size. -/
def headerAt (name type offset size : Nat) : Elf64.SectionHeader where
  name
  type
  flags := 0
  addr := 0
  offset
  size
  link := 0
  info := 0
  addralign := 1
  entsize := 0

/-- The header of the symbol table. -/
def symtabHeader (textData name : ByteVec) : Elf64.SectionHeader :=
  { headerAt 17 2 (symtabStart textData name) 48 with
    link := 3, info := 1, addralign := 8, entsize := 24 }

/-- The section headers. -/
def sectionHeaders (textData name : ByteVec) : List Elf64.SectionHeader := [
  headerAt 6 0 textStart 0,
  headerAt 0 1 textStart textData.length,
  symtabHeader textData name,
  headerAt 25 3 (symtabStrtabStart textData) (symtabStrtabSection name).data.length,
  headerAt 7 3 (shStrtabStart textData) shStrtabSection.data.length]

/-- What stands behind the section headers. -/
def bodies (textData name : ByteVec) : List ByteVec := [
  textData,
  shStrtabSection.data,
  (symtabStrtabSection name).data,
  (functionRecords.map SymbolRecord.bytes).flatten]

/-- The file. -/
def fileOf (textData name : ByteVec) : ByteVec :=
  (ElfHeader.createWithDefaultParams.eIdent.toList ++ fileHeader.bytes) ++
    (((sectionHeaders textData name).map SectionHeader.bytes).flatten ++
      (bodies textData name).flatten)

/-- The string table of the symbols has the empty name and the name of the function. -/
theorem symtabStrtab_eq (name : ByteVec) :
    (symtabStrtabSection name).data = table [[], name] ∧
      (symtabStrtabSection name).offset name = 1 := by
  constructor
  · exact (StringTable.data_addStrings _ _).trans rfl
  · exact StringTable.offset_addString _ name

/-- Both symbols take 48 bytes. -/
private theorem symtabSize_eq (name : ByteVec) : symtabSize name = 48 := by
  have hrun := run_eq_fixesAt {} [.symbol {}, .symbol (funcSymbol name)]
  have hlength : (render (pieces [.symbol {}, .symbol (funcSymbol name)])).length = 48 := by
    rw [pieces, List.flatMap_cons, List.flatMap_singleton, render_append, List.length_append,
      length_pieces.2.2.1, length_pieces.2.2.1]
  show ByteVec.size (({} : Serializer).run [.symbol {}, .symbol (funcSymbol name)]).buffer = _
  rw [hrun]
  show BitVec.ofNat 64 (List.length ([] ++ render _)) = _
  rw [List.nil_append, hlength]
  rfl

/-- The offsets of the section names. -/
private theorem offset_shStrtab :
    shStrtabSection.offset (str "") = 6 ∧ shStrtabSection.offset (str ".text") = 0 ∧
      shStrtabSection.offset (str ".symtab") = 17 ∧ shStrtabSection.offset (str ".strtab") = 25 ∧
      shStrtabSection.offset (str ".shstrtab") = 7 ∧ shStrtabSection.data.length = 33 := by
  decide

variable {textData name : ByteVec}

/-- The string table of the symbols, and where the symbols start. -/
private theorem length_symtabStrtab :
    (symtabStrtabSection name).data.length = name.length + 2 ∧
      symtabStart textData name = 419 + textData.length + name.length := by
  have hstrtab : (symtabStrtabSection name).data.length = name.length + 2 := by
    rw [(symtabStrtab_eq name).1, length_table]
    simp
    omega
  have hshStrtab := offset_shStrtab.2.2.2.2.2
  refine ⟨hstrtab, ?_⟩
  rw [symtabStart, symtabStrtabStart, shStrtabStart, textStart, hstrtab, hshStrtab]
  omega

/-- A section header with the values of its labels. -/
private theorem filled_sectionHeader (values : LabelType → U64) (secType : SectionType)
    (shType : U8) :
    ((sectionHeader secType shType).filled values).toElf =
      headerAt ((values (.ofSection ⟨secType, .sectionName⟩)).setWidth 32).toNat
        (shType.setWidth 32).toNat
        ((values (.ofSection ⟨secType, .sectionOffset⟩)).setWidth 64).toNat
        ((values (.ofSection ⟨secType, .sectionSize⟩)).setWidth 64).toNat := rfl

/-- The header of the symbol table has a link and an index of its own. -/
private theorem filled_symtab (values : LabelType → U64) :
    (symtab.filled values).toElf =
      { ((sectionHeader .symTab SectionHeader.shtSymtab).filled values).toElf with
        link := ((values (.ofSection ⟨.symTab, .link⟩)).setWidth 32).toNat
        info := ((values (.ofSection ⟨.symTab, .info⟩)).setWidth 32).toNat
        addralign := 8
        entsize := 24 } := rfl

/-- A position that fits its field is written as it is. -/
private theorem toNat_position {pos : Nat} (h : pos < 2 ^ 64) :
    ((BitVec.ofNat 64 pos).setWidth 64).toNat = pos := by
  rw [BitVec.setWidth_eq, BitVec.toNat_ofNat, Nat.mod_eq_of_lt h]

/-- The headers of the program with the values of their labels. -/
private theorem filled_sections (hsize : 467 + textData.length + name.length < 2 ^ 64) :
    ([nullSection, text, symtab, symtabStrtab, shStrtab].map fun h =>
      (h.filled (valueOf textData name)).toElf) = sectionHeaders textData name := by
  obtain ⟨hempty, htext, hsymtab, hstrtab, hshstrtab, hlength⟩ := offset_shStrtab
  obtain ⟨hname, hstart⟩ := @length_symtabStrtab textData name
  -- The symbols start last, so all positions and sizes fit 64 bits.
  have hlt : ∀ pos, pos ≤ 419 + textData.length + name.length →
      ((BitVec.ofNat 64 pos).setWidth 64).toNat = pos :=
    fun pos hpos => toNat_position (by omega)
  have hsymtabStart := hlt (symtabStart textData name) (by omega)
  have hstrtabStart := hlt (symtabStrtabStart textData) (by
    rw [symtabStrtabStart, shStrtabStart, textStart, hlength]
    omega)
  have hshStrtabStart := hlt (shStrtabStart textData) (by rw [shStrtabStart, textStart]; omega)
  have htextStart := hlt textStart (by rw [textStart]; omega)
  have htextSize : ((ByteVec.size textData).setWidth 64).toNat = textData.length :=
    hlt _ (by omega)
  have hstrtabSize : ((ByteVec.size (symtabStrtabSection name).data).setWidth 64).toNat =
      (symtabStrtabSection name).data.length := hlt _ (by omega)
  have hshStrtabSize : ((ByteVec.size shStrtabSection.data).setWidth 64).toNat =
      shStrtabSection.data.length := hlt _ (by omega)
  simp only [List.map_cons, List.map_nil, nullSection, text, symtabStrtab, shStrtab,
    filled_symtab, filled_sectionHeader, valueOf, hempty, htext, hsymtab, hstrtab, hshstrtab,
    hsymtabStart, hstrtabStart, hshStrtabStart, htextStart, htextSize, hstrtabSize,
    hshStrtabSize, symtabSize_eq]
  rfl

/-- What the program dumps, part by part. -/
theorem bytes_program (hsize : 467 + textData.length + name.length < 2 ^ 64) :
    (({} : Serializer).run (program textData name)).dumpToFile.map Dump.bytes =
      .ok (fileOf textData name) := by
  have hheader : (elfHeader.filled (valueOf textData name)
      ElfHeader.createWithDefaultParams.eIdent).toElf = fileHeader := rfl
  have hsymbol : ((funcSymbol name).filled (valueOf textData name)).toElf =
      { name := 1, info := 18, other := 0, shndx := 1, value := 0, size := 0 } := by
    rw [funcSymbol, (symtabStrtab_eq name).2]
    rfl
  rw [bytes_dumpToFile_last (noPositions_program textData name) (widthsFit_program textData name),
    lastValue_program, fileOf, ← filled_sections hsize]
  simp only [program, pieces, fixWith, fixHere, List.flatMap_cons, List.flatMap_nil, Op.pieces,
    List.map_append, render_append, List.map_nil, render_nil, List.nil_append, List.append_nil,
    render_elfHeader (valueOf textData name) (h := elfHeader) rfl, render_sectionHeader,
    render_symbol, List.map_cons, render_cons, hheader, hsymbol, List.flatten_cons,
    List.flatten_nil, List.append_assoc, bodies, functionRecords]
  rfl

/-! ## Reading the file -/

/-- The file header is read. -/
theorem readFileHeader_fileOf : readFileHeader (fileOf textData name) = some fileHeader := by
  have hat : IsAt (fileOf textData name) 16 fileHeader.bytes :=
    ⟨ElfHeader.createWithDefaultParams.eIdent.toList, _, List.append_assoc .., rfl⟩
  exact readFileHeader_of_isAt hat (ElfHeader.fits (elfHeader.filled (valueOf [] [])
    ElfHeader.createWithDefaultParams.eIdent))

/-- The section headers are read. -/
theorem readSections_fileOf (hsize : 467 + textData.length + name.length < 2 ^ 64) :
    readSections (fileOf textData name) fileHeader = some (sectionHeaders textData name) := by
  apply readSections_of_isAt _ rfl rfl
  · rw [← filled_sections hsize]
    intro sec hsec
    obtain ⟨h, -, rfl⟩ := List.mem_map.mp hsec
    exact SectionHeader.fits (h.filled (valueOf textData name))
  · exact ⟨_, _, rfl, rfl⟩

/-- The bodies stand where the section headers say. -/
theorem isAt_bodies :
    IsAt (fileOf textData name) textStart textData ∧
      IsAt (fileOf textData name) (shStrtabStart textData) shStrtabSection.data ∧
      IsAt (fileOf textData name) (symtabStrtabStart textData) (symtabStrtabSection name).data ∧
      IsAt (fileOf textData name) (symtabStart textData name)
        (functionRecords.map SymbolRecord.bytes).flatten := by
  have hat := isAt_layout ((ElfHeader.createWithDefaultParams.eIdent.toList ++ fileHeader.bytes) ++
    ((sectionHeaders textData name).map SectionHeader.bytes).flatten) [] (bodies textData name)
  have hcount : (sectionHeaders textData name).length = 5 := rfl
  have hlength : ((ElfHeader.createWithDefaultParams.eIdent.toList ++ fileHeader.bytes) ++
    ((sectionHeaders textData name).map SectionHeader.bytes).flatten).length = textStart := by
    rw [List.length_append, List.length_append, FileHeader.length_bytes,
      length_flatten_of_length (SectionHeader.length_of_mem _), List.length_map,
      Vector.length_toList, hcount, textStart]
  rw [hlength, List.append_nil, List.append_assoc _ _ (bodies textData name).flatten] at hat
  simp only [bodies, layout, List.forall₂_cons] at hat
  obtain ⟨⟨htext, -⟩, ⟨hshStrtab, -⟩, ⟨hstrtab, -⟩, ⟨hsymtab, -⟩, -⟩ := hat
  exact ⟨htext, hshStrtab, hstrtab, hsymtab⟩

/-- The name of a section is looked up in the string table of the section headers. -/
theorem sectionName_fileOf (sec : Elf64.SectionHeader) :
    sectionName (fileOf textData name) fileHeader (sectionHeaders textData name) sec =
      cString shStrtabSection.data sec.name := by
  have hget : (sectionHeaders textData name)[fileHeader.shstrndx]? =
      some (headerAt 7 3 (shStrtabStart textData) shStrtabSection.data.length) := rfl
  have hbody : sectionBody (fileOf textData name)
      (headerAt 7 3 (shStrtabStart textData) shStrtabSection.data.length) =
      some shStrtabSection.data := isAt_bodies.2.1.slice
  rw [sectionName, hget]
  simp only [Option.bind_eq_bind, Option.bind_some, hbody]

/-- The sections by name, with their bodies. -/
def namedBodies (textData name : ByteVec) : List (ByteVec × ByteVec) := [
  (str "", []),
  (str ".text", textData),
  (str ".symtab", (functionRecords.map SymbolRecord.bytes).flatten),
  (str ".strtab", (symtabStrtabSection name).data),
  (str ".shstrtab", shStrtabSection.data)]

/-- The sections are found in the file. -/
theorem hasSections_fileOf (hsize : 467 + textData.length + name.length < 2 ^ 64) :
    HasSections (fileOf textData name) fileHeader (sectionHeaders textData name)
      (namedBodies textData name) Prod.fst Prod.snd := by
  refine ⟨readFileHeader_fileOf, readSections_fileOf hsize, ?_⟩
  obtain ⟨htext, hshStrtab, hstrtab, hsymtab⟩ := @isAt_bodies textData name
  have hnames : cString shStrtabSection.data 6 = some (str "") ∧
      cString shStrtabSection.data 0 = some (str ".text") ∧
      cString shStrtabSection.data 17 = some (str ".symtab") ∧
      cString shStrtabSection.data 25 = some (str ".strtab") ∧
      cString shStrtabSection.data 7 = some (str ".shstrtab") := by decide
  obtain ⟨hnullName, htextName, hsymtabName, hstrtabName, hshStrtabName⟩ := hnames
  -- The null section is empty, and its header points at the text.
  have hnull : IsAt (fileOf textData name) textStart [] :=
    htext.trans ⟨[], textData, rfl, rfl⟩
  simp only [sectionName_fileOf]
  exact .cons ⟨hnullName, hnull.slice⟩ <| .cons ⟨htextName, htext.slice⟩ <|
    .cons ⟨hsymtabName, slice_eq_some.mpr ⟨hsymtab, length_functionRecords⟩⟩ <|
    .cons ⟨hstrtabName, hstrtab.slice⟩ <| .cons ⟨hshStrtabName, hshStrtab.slice⟩ .nil

/-- A reader finds the function in the file. -/
theorem readTextObject_fileOf (hname : 0 ∉ name)
    (hsize : 467 + textData.length + name.length < 2 ^ 64) :
    readTextObject (str ".text") (str ".symtab") (fileOf textData name) =
      some (functionObject textData name) := by
  have htextIdx : ((namedBodies textData name).findIdx? fun sec =>
      sec.1 = str ".text") = some 1 := rfl
  have hsymtabIdx : ((namedBodies textData name).findIdx? fun sec =>
      sec.1 = str ".symtab") = some 2 := rfl
  have hsymtab : (sectionHeaders textData name)[2]? = some (symtabHeader textData name) := rfl
  have hread := readSymbol_functionRecords hname
  rw [← (symtabStrtab_eq name).1] at hread
  exact (hasSections_fileOf hsize).readTextObject_eq htextIdx rfl hsymtabIdx rfl hsymtab rfl rfl
    rfl hread

/-! ## The check of the fixes -/

/-- The labels of the program do not depend on the text and the name. -/
private theorem labels_program :
    (fixes (program textData name)).map (·.labelToFix) =
        (fixes (program [] [])).map (·.labelToFix) ∧
      (labels (pieces (program textData name))).map (·.label) =
        (labels (pieces (program [] []))).map (·.label) := by
  constructor
  · simp only [program, fixes, fixWith, fixHere, Op.fix?, List.filterMap_cons, List.filterMap_nil,
      List.map_cons, List.map_nil]
  · simp only [program, pieces, Op.pieces, fixWith, fixHere, List.flatMap_cons, labels_append,
      labels_cons, funcSymbol, Symbol.pieces, Entry.piece]

/-- `dump_to_file` fixes as many relocations as it finds. -/
private theorem counts_program {dump : Dump}
    (h : (({} : Serializer).run (program textData name)).dumpToFile = .ok dump) :
    dump.relocationsFixed = dump.relocationsFound := by
  have hcount : Matching.matchCount ((fixes (program [] [])).map (·.labelToFix))
      ((labels (pieces (program [] []))).map (·.label)) =
      ((labels (pieces (program [] []))).map (·.label)).length := by decide +kernel
  obtain ⟨hfound, hfixed⟩ := counts_dumpToFile h
  obtain ⟨hfixes, hrelocs⟩ := labels_run (program textData name)
  rw [hfound, hfixed, hfixes, hrelocs, labels_program.1, labels_program.2, hcount]

/-! ## The program -/

/-- Whatever the bytes of the text and the name of the function are: the program fixes all of its
    relocations, and a reader finds the text in the file that it dumps, and one global function
    with the name, in the section of the text and behind a null symbol. The file is 467 bytes longer
    than the text and the name. -/
theorem program_readBack (textData name : ByteVec) (hname : 0 ∉ name)
    (hsize : 467 + textData.length + name.length < 2 ^ 64) :
    ∃ dump, (({} : Serializer).run (program textData name)).dumpToFile = .ok dump ∧
      dump.relocationsFixed = dump.relocationsFound ∧
      readTextObject (str ".text") (str ".symtab") dump.bytes =
        some (functionObject textData name) := by
  have hbytes := bytes_program hsize
  cases hdump : (({} : Serializer).run (program textData name)).dumpToFile with
  | error e =>
    rw [hdump] at hbytes
    cases hbytes
  | ok dump =>
    rw [hdump] at hbytes
    have hfile : dump.bytes = fileOf textData name := Except.ok.inj hbytes
    refine ⟨dump, rfl, counts_program hdump, ?_⟩
    rw [hfile]
    exact readTextObject_fileOf hname hsize

/-- The text and the name of the source. -/
theorem program_readBack_main :
    ∃ dump, (({} : Serializer).run (program [0x48, 0xc7, 0xc0, 0x7b, 0x00, 0x00, 0x00, 0xc3]
        (str "test_function_1"))).dumpToFile = .ok dump ∧
      dump.relocationsFixed = dump.relocationsFound ∧
      readTextObject (str ".text") (str ".symtab") dump.bytes =
        some (functionObject [0x48, 0xc7, 0xc0, 0x7b, 0x00, 0x00, 0x00, 0xc3]
          (str "test_function_1")) :=
  program_readBack _ _ (by decide) (by decide)

end Main

end Fiskas.MainV3
