import Fiskas.Spec.ElfSections

/-!
# The layout of an object file

`build_elf_file` writes the file header, the bodies of the sections one behind another and the
section headers. The first loop stores in each header where its body starts, and the file
header has been told before where the last body ends; `buildElfFile_eq` gives the file and
`Tiled` says that a reader finds all of this consistent.

## Key results

- `foldl_placeSection`: the loop that places the sections
- `buildElfFile_eq`: the file, part by part
- `buildElfFile_tiled`: the parts tile the file
- `length_fileOf_eq`: the length of the file
-/

namespace Fiskas

open Slice LittleEndian Elf64

/-! ## The two loops -/

/-- Section headers with their offsets, when the sections are placed from `start` on. -/
def placed (t : SectionTable) : Nat → List SectionType → List SectionHeader
  | _, [] => []
  | start, secTy :: secTys =>
    { t.header secTy with shOffset := BitVec.ofNat 64 start } ::
      placed t (start + (t.body secTy).length) secTys

/-- Placing sections depends on their headers and on the bodies only. -/
private theorem placed_congr {t t' : SectionTable} {secTys : List SectionType}
    (hbody : t'.body = t.body) (hheader : ∀ secTy ∈ secTys, t'.header secTy = t.header secTy)
    (start : Nat) : placed t' start secTys = placed t start secTys := by
  induction secTys generalizing start with
  | nil => rfl
  | cons secTy secTys ih =>
    rw [placed, placed, hheader secTy List.mem_cons_self, hbody,
      ih fun secTy' hmem => hheader secTy' (List.mem_cons_of_mem secTy hmem)]

/-- Each section is placed behind the output, and its header keeps that offset: no later round
    writes to it again. -/
theorem foldl_placeSection (secTys : List SectionType) (hnodup : secTys.Nodup) (t : SectionTable)
    (ser : Serializer) :
    ∃ t' ser', secTys.foldl placeSection (t, ser) = (t', ser') ∧
      ser'.out = ser.out ++ (secTys.map t.body).flatten ∧
      (∀ secTy, secTy ∉ secTys → t'.header secTy = t.header secTy) ∧
      secTys.map t'.header = placed t ser.out.length secTys := by
  induction secTys generalizing t ser with
  | nil => exact ⟨t, ser, rfl, (List.append_nil _).symm, fun _ _ => rfl, rfl⟩
  | cons secTy secTys ih =>
    rw [List.nodup_cons] at hnodup
    let t₁ := t.setHeader secTy fun h => { h with shOffset := ByteVec.size ser.out }
    have hbody : t₁.body = t.body := funext fun secTy' => SectionTable.body_setHeader _ _ _ _
    have hother : ∀ secTy', secTy' ≠ secTy → t₁.header secTy' = t.header secTy' :=
      fun secTy' hne => by rw [SectionTable.header_setHeader, if_neg hne]
    have hout : (ser <<< t₁.body secTy).out = ser.out ++ t.body secTy := by
      rw [Serializer.out_bytes, hbody]
    obtain ⟨t', ser', hfold, hser', hkeep, hplaced⟩ := ih hnodup.2 t₁ (ser <<< t₁.body secTy)
    -- The section just placed does not occur again, so the later ones are placed as before.
    have hsame := placed_congr hbody fun secTy' hmem =>
      hother secTy' fun heq => hnodup.1 (heq ▸ hmem)
    refine ⟨t', ser', hfold, ?_, ?_, ?_⟩
    · rw [hser', hout, hbody, List.map_cons, List.flatten_cons, List.append_assoc]
    · intro secTy' hne
      rw [List.mem_cons, not_or] at hne
      rw [hkeep secTy' hne.2, hother secTy' hne.1]
    · rw [List.map_cons, hkeep secTy hnodup.1, hplaced, hout, hsame, List.length_append, placed,
        SectionTable.header_setHeader, if_pos rfl]
      rfl

/-! ## The file -/

/-- The file header that is written. -/
def fileHeader (o : HashOrders) (code : Code) : ElfHeader :=
  { ElfHeader.createWithDefaultParams with
    eShoff := ElfHeader.serializedSize + (built o code).sizeOfAllSectionBodies }

/-- The bodies in the order in which they are written. -/
def bodies (o : HashOrders) (code : Code) : List ByteVec :=
  SectionTable.order.map (built o code).body

/-- The section headers that are written. -/
def sectionHeaders (o : HashOrders) (code : Code) : List Elf64.SectionHeader :=
  (placed (built o code) 64 SectionTable.order).map SectionHeader.toElf

/-- The bytes of the file header. -/
def fileHeaderBytes (o : HashOrders) (code : Code) : ByteVec :=
  (fileHeader o code).eIdent.toList ++ (fileHeader o code).toElf.bytes

theorem length_fileHeaderBytes (o : HashOrders) (code : Code) :
    (fileHeaderBytes o code).length = 64 := by
  rw [fileHeaderBytes, List.length_append, Vector.length_toList, FileHeader.length_bytes]

/-- The file header, the bodies and the section headers. -/
def fileOf (o : HashOrders) (code : Code) : ByteVec :=
  fileHeaderBytes o code ++
    ((bodies o code).flatten ++ ((sectionHeaders o code).map SectionHeader.bytes).flatten)

/-- The file that is written, part by part. -/
theorem buildElfFile_eq (o : HashOrders) (code : Code) :
    buildElfFile o code = some (fileOf o code) := by
  obtain ⟨t', ser', hfold, hser', _, hplaced⟩ := foldl_placeSection SectionTable.order
    SectionTable.nodup_order (built o code) (({} : Serializer) <<< fileHeader o code)
  have hheader : (({} : Serializer) <<< fileHeader o code).out = fileHeaderBytes o code :=
    Serializer.out_elfHeader {} _
  have hlast : (SectionTable.order.foldl (fun ser secTy => ser <<< t'.header secTy) ser').out =
      ser'.out ++ ((SectionTable.order.map t'.header).map fun h => h.toElf.bytes).flatten := by
    rw [← Serializer.out_vector Serializer.out_sectionHeader, ← List.foldl_map]
    rfl
  -- The loops over the indices 0 to 5 unfold to loops over the six section types.
  let loop := SectionTable.order.foldl placeSection
    (built o code, ({} : Serializer) <<< fileHeader o code)
  have hfile : buildElfFile o code = some (SectionTable.order.foldl
      (fun ser secTy => ser <<< loop.1.header secTy) loop.2).out := rfl
  have hloop : loop = (t', ser') := hfold
  rw [hfile, hloop, hlast, hser', hplaced, hheader, length_fileHeaderBytes, List.append_assoc,
    fileOf, sectionHeaders, List.map_map]
  rfl

/-! ## Reading the file -/

/-- The headers that are placed are those of the table, but for the offset. -/
private theorem header_placed (t : SectionTable) (start : Nat) (secTys : List SectionType) :
    List.Forall₂ (fun h secTy => h = { t.header secTy with shOffset := h.shOffset })
      (placed t start secTys) secTys := by
  induction secTys generalizing start with
  | nil => exact .nil
  | cons secTy secTys ih => exact .cons rfl (ih _)

/-- The offsets and sizes in the headers are the layout of the bodies. -/
private theorem layout_placed {t : SectionTable} {start : Nat} {secTys : List SectionType}
    (hsize : ∀ secTy, (t.header secTy).shSize = ByteVec.size (t.body secTy))
    (hbound : start + (secTys.map t.body).flatten.length < 2 ^ 64) :
    (placed t start secTys).map (fun h => (h.shOffset.toNat, h.shSize.toNat)) =
      layout start (secTys.map t.body) := by
  induction secTys generalizing start with
  | nil => rfl
  | cons secTy secTys ih =>
    rw [List.map_cons, List.flatten_cons, List.length_append] at hbound
    -- Offsets and sizes are below `2^64`, so storing them in 64 bits loses nothing.
    have hrest : start + (t.body secTy).length + (secTys.map t.body).flatten.length < 2 ^ 64 := by
      omega
    rw [placed, List.map_cons, ih hrest, List.map_cons, layout]
    dsimp only
    rw [hsize, ByteVec.size, BitVec.toNat_ofNat, BitVec.toNat_ofNat,
      Nat.mod_eq_of_lt (by omega), Nat.mod_eq_of_lt (by omega)]

/-- A reader finds the parts of a file one behind another: the bodies of the sections from byte
    64 on, in the order of the section types, and the section headers behind them, with the
    body and the name that the section table has for each section. -/
structure Tiled (t : SectionTable) (file : ByteVec) (hdr : Elf64.FileHeader)
    (secs : List Elf64.SectionHeader) : Prop where
  header : readFileHeader file = some hdr
  sections : readSections file hdr = some secs
  first : secs.head?.map (fun sec => sec.offset) = some 64
  next : secs.IsChain fun a b => b.offset = a.offset + a.size
  last : secs.getLast?.map (fun sec => sec.offset + sec.size) = some hdr.shoff
  total : hdr.shoff + hdr.shnum * hdr.shentsize = file.length
  headers : ∀ i sec, secs[i]? = some sec →
    slice file (hdr.shoff + 64 * i) 64 = some sec.bytes
  bodies : List.Forall₂ (fun sec secTy => sectionBody file sec = some (t.body secTy))
    secs SectionTable.order
  names : List.Forall₂ (fun sec secTy =>
    sectionName file hdr secs sec = some (SectionTable.nameOf secTy)) secs SectionTable.order

section

variable (o : HashOrders) (code : Code)

/-- Every header has the size of its body. -/
private theorem size_built (secTy : SectionType) :
    ((built o code).header secTy).shSize = ByteVec.size ((built o code).body secTy) := by
  obtain ⟨off, hheader, _⟩ := header_built o code secTy
  rw [hheader]

/-- The length of the file. -/
theorem length_fileOf :
    (fileOf o code).length = 64 + (bodies o code).flatten.length + 6 * 64 := by
  have hheaders : ((sectionHeaders o code).map SectionHeader.bytes).flatten.length = 6 * 64 :=
    length_flatten_of_length (SectionHeader.length_of_mem _)
  rw [fileOf, List.length_append, List.length_append, hheaders, length_fileHeaderBytes,
    Nat.add_assoc]

/-- The file header is read. -/
theorem readFileHeader_fileOf :
    readFileHeader (fileOf o code) = some (fileHeader o code).toElf := by
  have hat : IsAt (fileOf o code) 16 (fileHeader o code).toElf.bytes := by
    rw [fileOf, fileHeaderBytes, List.append_assoc]
    exact .intro (fileHeader o code).eIdent.toList _ _
  exact readFileHeader_of_isAt hat (fileHeader o code).fits

variable {o code}

/-- The section headers stand one behind another at the end of the file. -/
theorem isAt_sectionHeader_end {i : Nat} {sec : Elf64.SectionHeader}
    (hi : (sectionHeaders o code)[i]? = some sec) :
    IsAt (fileOf o code) (64 + (bodies o code).flatten.length + i * 64) sec.bytes := by
  have hpart : ((sectionHeaders o code).map SectionHeader.bytes)[i]? = some sec.bytes := by
    rw [List.getElem?_map, hi]
    rfl
  -- The headers stand behind the file header and all bodies.
  have hat := (isAt_flatten_of_length (SectionHeader.length_of_mem _) hpart).append_left
    (fileHeaderBytes o code ++ (bodies o code).flatten)
  rw [List.append_assoc, List.length_append, length_fileHeaderBytes] at hat
  exact hat

/-- A section header that stands in the file is read. -/
theorem readSectionHeader_fileOf {i pos : Nat} {sec : Elf64.SectionHeader}
    (hi : (sectionHeaders o code)[i]? = some sec) (hat : IsAt (fileOf o code) pos sec.bytes) :
    readSectionHeader (fileOf o code) pos = some sec := by
  obtain ⟨h, _, heq⟩ := List.mem_map.mp (List.mem_of_getElem? hi)
  apply readSectionHeader_of_isAt hat
  rw [← heq]
  exact h.fits

/-- The file header leads to the section headers, which start behind the bodies. -/
theorem shoff_fileHeader (hsize : (fileOf o code).length < 2 ^ 64) :
    (fileHeader o code).toElf.shoff = 64 + (bodies o code).flatten.length := by
  rw [length_fileOf] at hsize
  -- The sum was taken before any section was placed, and in 64 bits.
  show (ElfHeader.serializedSize + (built o code).sizeOfAllSectionBodies).toNat = _
  rw [SectionTable.sizeOfAllSectionBodies_eq]
  show (BitVec.ofNat 64 64 + BitVec.ofNat 64 (bodies o code).flatten.length).toNat = _
  rw [← BitVec.ofNat_add, BitVec.toNat_ofNat]
  omega

/-- The section headers have the layout of the bodies. -/
theorem layout_sectionHeaders (hsize : (fileOf o code).length < 2 ^ 64) :
    (sectionHeaders o code).map (fun sec => (sec.offset, sec.size)) =
      layout 64 (bodies o code) := by
  rw [length_fileOf] at hsize
  have hbound : 64 + (SectionTable.order.map (built o code).body).flatten.length < 2 ^ 64 := by
    show 64 + (bodies o code).flatten.length < 2 ^ 64
    omega
  rw [sectionHeaders, List.map_map]
  exact layout_placed (size_built o code) hbound

/-- The section headers stand one behind another from `e_shoff` on. -/
theorem isAt_sectionHeader (hsize : (fileOf o code).length < 2 ^ 64) {i : Nat}
    {sec : Elf64.SectionHeader} (hi : (sectionHeaders o code)[i]? = some sec) :
    IsAt (fileOf o code) ((fileHeader o code).toElf.shoff + 64 * i) sec.bytes := by
  rw [shoff_fileHeader hsize, Nat.mul_comm 64 i]
  exact isAt_sectionHeader_end hi

/-- All section headers are read. -/
theorem readSections_fileOf (hsize : (fileOf o code).length < 2 ^ 64) :
    readSections (fileOf o code) (fileHeader o code).toElf = some (sectionHeaders o code) := by
  rw [readSections]
  apply List.mapM_eq_some_of_forall₂
  rw [List.forall₂_iff_get]
  refine ⟨rfl, fun i hi hi' => ?_⟩
  have hget := List.getElem?_eq_getElem hi'
  rw [List.get_eq_getElem, List.get_eq_getElem, List.getElem_range]
  exact readSectionHeader_fileOf hget (isAt_sectionHeader hsize hget)

/-- The body of each section is read. -/
theorem sectionBody_fileOf (hsize : (fileOf o code).length < 2 ^ 64) :
    List.Forall₂ (fun sec secTy =>
        sectionBody (fileOf o code) sec = some ((built o code).body secTy))
      (sectionHeaders o code) SectionTable.order := by
  have hat := isAt_layout (fileHeaderBytes o code)
    ((sectionHeaders o code).map SectionHeader.bytes).flatten (bodies o code)
  rw [length_fileHeaderBytes, ← layout_sectionHeaders hsize, bodies, List.forall₂_map_left_iff,
    List.forall₂_map_right_iff] at hat
  exact hat.imp fun sec secTy h => slice_eq_some.mpr h

/-- The header of a section stands at the index of its type. -/
theorem sectionAt_fileOf (hsize : (fileOf o code).length < 2 ^ 64) (secTy : SectionType) :
    ∃ sec, (sectionHeaders o code)[secTy.toUnderlying.toNat]? = some sec ∧
      sectionBody (fileOf o code) sec = some ((built o code).body secTy) := by
  have hall := sectionBody_fileOf hsize
  have hlt : secTy.toUnderlying.toNat < SectionTable.order.length := by
    cases secTy <;> decide
  have hlt' : secTy.toUnderlying.toNat < (sectionHeaders o code).length := by
    rw [hall.length_eq]
    exact hlt
  have hsecTy : SectionTable.order.get ⟨secTy.toUnderlying.toNat, hlt⟩ = secTy := by
    cases secTy <;> rfl
  have hbody := hall.get hlt' hlt
  rw [hsecTy] at hbody
  exact ⟨_, List.getElem?_eq_getElem hlt', hbody⟩

/-- The fields that do not depend on the place of a section are those of the section table. -/
theorem fields_sectionHeaders :
    List.Forall₂ (fun sec secTy =>
        sec = { ((built o code).header secTy).toElf with offset := sec.offset })
      (sectionHeaders o code) SectionTable.order := by
  rw [sectionHeaders, List.forall₂_map_left_iff]
  refine (header_placed (built o code) 64 SectionTable.order).imp fun h secTy heq => ?_
  -- Only the offset was changed when the section was placed.
  obtain ⟨offset, rfl⟩ : ∃ offset, h = { (built o code).header secTy with shOffset := offset } :=
    ⟨_, heq⟩
  generalize (built o code).header secTy = header
  rfl

/-- No section name has a zero byte. -/
private theorem nameOf_ne_zero (secTy : SectionType) : 0 ∉ SectionTable.nameOf secTy := by
  cases secTy <;> decide

/-- The name of each section is read. -/
theorem sectionName_fileOf (hsize : (fileOf o code).length < 2 ^ 64) :
    List.Forall₂ (fun sec secTy =>
        sectionName (fileOf o code) (fileHeader o code).toElf (sectionHeaders o code) sec =
          some (SectionTable.nameOf secTy))
      (sectionHeaders o code) SectionTable.order := by
  -- `e_shstrndx` is the index of the string table that the names stand in.
  obtain ⟨shstrtab, hget, hbody⟩ :=
    sectionAt_fileOf hsize .sectionHeaderStrTab
  refine fields_sectionHeaders.imp fun sec secTy hsec => ?_
  obtain ⟨off, hheader, hat⟩ := header_built o code secTy
  have hname : sec.name = off.toNat := by
    rw [hsec, hheader]
    rfl
  have hndx : (fileHeader o code).toElf.shstrndx =
      SectionType.sectionHeaderStrTab.toUnderlying.toNat := rfl
  rw [sectionName, hndx, hget]
  simp only [Option.bind_eq_bind, Option.bind_some, hbody, hname]
  exact cString_of_isAt hat (nameOf_ne_zero secTy)

end

/-- The parts of the file that is written tile it. -/
theorem tiled_fileOf {o : HashOrders} {code : Code} (hsize : (fileOf o code).length < 2 ^ 64) :
    Tiled (built o code) (fileOf o code) (fileHeader o code).toElf (sectionHeaders o code) where
  header := readFileHeader_fileOf o code
  sections := readSections_fileOf hsize
  first := by
    have hhead := congrArg (fun l => l.head?.map Prod.fst) (layout_sectionHeaders hsize)
    rw [List.head?_map, Option.map_map] at hhead
    exact hhead
  next := by
    have hchain := isChain_layout 64 (bodies o code)
    rw [← layout_sectionHeaders hsize, List.isChain_map] at hchain
    exact hchain
  last := by
    have hlast := congrArg List.getLast? (layout_sectionHeaders hsize)
    rw [List.getLast?_map] at hlast
    cases hsec : (sectionHeaders o code).getLast? with
    | none =>
      rw [List.getLast?_eq_none_iff] at hsec
      exact absurd hsec (List.cons_ne_nil _ _)
    | some sec =>
      rw [hsec] at hlast
      rw [Option.map_some, layout_end hlast.symm, shoff_fileHeader hsize]
  total := by
    rw [shoff_fileHeader hsize, length_fileOf]
    rfl
  headers := by
    intro i sec hi
    exact slice_eq_some.mpr ⟨isAt_sectionHeader hsize hi, SectionHeader.length_bytes sec⟩
  bodies := sectionBody_fileOf hsize
  names := sectionName_fileOf hsize

/-- Whatever the iteration orders, a file is written, and as long as it is shorter than `2^64`
    bytes its parts tile it. -/
theorem buildElfFile_tiled (o : HashOrders) (code : Code) :
    ∃ file, buildElfFile o code = some file ∧
      (file.length < 2 ^ 64 → ∃ hdr secs, Tiled (built o code) file hdr secs) :=
  ⟨fileOf o code, buildElfFile_eq o code, fun hsize => ⟨_, _, tiled_fileOf hsize⟩⟩

/-- The symbol table takes 24 bytes for each symbol. -/
theorem length_symtab (code : Code) :
    ((symbolRecords code).map SymbolRecord.bytes).flatten.length =
      24 * (code.symbols.length + 1) := by
  have hlen : (symbolRecords code).length = code.symbols.length + 1 := by
    rw [symbolRecords, List.length_map, symbolsOf, List.length_cons, length_symbolsFrom]
  rw [length_flatten_of_length (SymbolRecord.length_of_mem _), List.length_map, hlen,
    Nat.mul_comm]

/-- The string table takes one terminator for each symbol name, and one for the empty name. -/
theorem length_strtab (code : Code) :
    (table (symbolNames code)).length =
      (code.symbols.map fun s => s.name.length + 1).sum + 1 := by
  rw [symbolNames, table_cons, List.length_append, length_table, List.map_map, Nat.add_comm]
  rfl

/-- The length of the file in terms of the code: 64 bytes for each header, 39 for the section
    names, 24 for each symbol, and one terminator for each symbol name. -/
theorem length_fileOf_eq (o : HashOrders) (code : Code) :
    (fileOf o code).length =
      64 + code.text.length + 39 + 24 * (code.symbols.length + 1) +
        (code.symbols.map fun s => s.name.length + 1).sum + 1 + code.data.length + 6 * 64 := by
  have hshstrtab := SectionTable.length_shstrtab o
  rw [length_fileOf, bodies, SectionTable.order]
  simp only [List.map_cons, List.map_nil, List.flatten_cons, List.flatten_nil, List.length_append,
    List.length_nil, body_built, hshstrtab, length_symtab, length_strtab]
  omega

/-- The file of the dummy code is short. -/
theorem length_file_dummy {file : ByteVec} {o : HashOrders}
    (h : buildElfFile o .createDummyCode = some file) : file.length < 2 ^ 64 := by
  rw [buildElfFile_eq] at h
  rw [← Option.some.inj h, length_fileOf_eq]
  decide

/-- The file of the dummy code is tiled. -/
theorem buildElfFile_tiled_dummy :
    ∃ file, buildElfFile .listed .createDummyCode = some file ∧
      ∃ hdr secs, Tiled (built .listed .createDummyCode) file hdr secs := by
  obtain ⟨file, hfile, htiled⟩ := buildElfFile_tiled .listed .createDummyCode
  exact ⟨file, hfile, htiled (length_file_dummy hfile)⟩

end Fiskas
