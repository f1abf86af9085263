import Fiskas.Spec.ElfLayout

/-!
# Alignment and reserved entries

Two things that the format asks of an object file, and how far the file that is written has
them. A body has to start at a multiple of the alignment that its header declares: only
`.data` declares one, and nothing pads what stands before it. Section header 0, symbol 0 and
both ends of a string table have to be zero: the loop that places the sections writes an offset
into section header 0 as well.

The section headers are read from the end of the file, where they stand however long the file
is. `e_shoff` leads there as long as it fits 64 bits.

## Key results

- `trailingSections_fileOf`: the section headers at the end of the file
- `aligned_buildElfFile`: when the bodies are aligned
- `reserved_buildElfFile`: what becomes of the reserved entries
-/

namespace Fiskas

open Slice LittleEndian Elf64

/-! ## The section headers at the end of a file -/

/-- The last `n` section headers of a file. -/
def trailingSections (file : ByteVec) (n : Nat) : Option (List Elf64.SectionHeader) :=
  (List.range n).mapM fun i => readSectionHeader file (file.length - 64 * n + 64 * i)

section

variable {o : HashOrders} {code : Code}

/-- The section headers that are written stand at the end of the file. -/
private theorem isAt_trailing {i : Nat} {sec : Elf64.SectionHeader}
    (hi : (sectionHeaders o code)[i]? = some sec) :
    IsAt (fileOf o code) ((fileOf o code).length - 64 * 6 + 64 * i) sec.bytes := by
  have hpos : (fileOf o code).length - 64 * 6 + 64 * i =
      64 + (bodies o code).flatten.length + i * 64 := by
    rw [length_fileOf]
    omega
  rw [hpos]
  exact isAt_sectionHeader_end hi

/-- The six section headers at the end of the file are the ones that are written. -/
theorem trailingSections_fileOf :
    trailingSections (fileOf o code) 6 = some (sectionHeaders o code) := by
  rw [trailingSections]
  apply List.mapM_eq_some_of_forall₂
  rw [List.forall₂_iff_get]
  refine ⟨rfl, fun i _ hi => ?_⟩
  have hget := List.getElem?_eq_getElem hi
  rw [List.get_eq_getElem, List.get_eq_getElem, List.getElem_range]
  exact readSectionHeader_fileOf hget (isAt_trailing hget)

/-! ## Alignment -/

/-- Where the body of a section starts in the file. -/
def startOf (o : HashOrders) (code : Code) (secTy : SectionType) : Nat :=
  64 + ((SectionTable.order.takeWhile (· ≠ secTy)).map (built o code).body).flatten.length

/-- Each header has the place of its body as its offset, in 64 bits. -/
theorem sectionHeaders_eq :
    sectionHeaders o code = SectionTable.order.map fun secTy =>
      { ((built o code).header secTy).toElf with
        offset := (BitVec.ofNat 64 (startOf o code secTy)).toNat } := by
  simp [sectionHeaders, placed, SectionTable.order, startOf, SectionHeader.toElf, Nat.add_assoc]

/-- Every body starts at a multiple of the alignment that its header declares. -/
def Aligned (secs : List Elf64.SectionHeader) : Prop :=
  ∀ sec ∈ secs, 1 < sec.addralign → sec.addralign ∣ sec.offset

/-- Where `.data` starts: behind the text, 39 bytes of section names, a zero record, a zero
    byte, and what each symbol adds to the symbol table and to its string table. -/
private theorem startOf_data :
    startOf o code .data = 128 + code.text.length + 24 * code.symbols.length +
      (code.symbols.map fun s => s.name.length + 1).sum := by
  have hshstrtab := SectionTable.length_shstrtab o
  have hbefore : SectionTable.order.takeWhile (· ≠ .data) =
      [.null, .text, .sectionHeaderStrTab, .symTab, .symTabStrTab] := rfl
  rw [startOf, hbefore]
  simp only [List.map_cons, List.map_nil, List.flatten_cons, List.flatten_nil, List.length_append,
    List.length_nil, body_built, hshstrtab, length_symtab, length_strtab]
  omega

/-- The bodies are aligned exactly when the text and the symbol names with their terminators
    take a multiple of eight bytes. -/
private theorem aligned_sectionHeaders :
    Aligned (sectionHeaders o code) ↔
      8 ∣ code.text.length + (code.symbols.map fun s => s.name.length + 1).sum := by
  have halign : ∀ secTy, ((built o code).header secTy).toElf.addralign =
      (typeHeader secTy).shAddralign.toNat := by
    intro secTy
    obtain ⟨off, hheader, _⟩ := header_built o code secTy
    rw [hheader]
    rfl
  -- A multiple of eight is one in 64 bits, too.
  have hdata : (typeHeader .data).shAddralign.toNat ∣
      (BitVec.ofNat 64 (startOf o code .data)).toNat ↔
      8 ∣ code.text.length + (code.symbols.map fun s => s.name.length + 1).sum := by
    have hoffset : startOf o code .data = _ := startOf_data
    rw [BitVec.toNat_ofNat]
    show 8 ∣ _ ↔ _
    omega
  rw [Aligned, sectionHeaders_eq, List.forall_mem_map]
  dsimp only
  constructor
  · intro h
    have h := h .data (SectionTable.mem_order .data)
    rw [halign] at h
    exact hdata.mp (h (by decide))
  · intro h secTy _
    rw [halign]
    intro hlt
    -- No other section declares an alignment.
    cases secTy with
    | data => exact hdata.mpr h
    | _ => exact absurd hlt (by decide)

end

/-- Whatever the iteration orders, the bodies in the file that is written respect the alignment
    that their headers declare exactly when the text and the symbol names, each name with its
    terminator, take a multiple of eight bytes together. -/
theorem aligned_buildElfFile (o : HashOrders) (code : Code) :
    ∃ file secs, buildElfFile o code = some file ∧ trailingSections file 6 = some secs ∧
      (Aligned secs ↔
        8 ∣ code.text.length + (code.symbols.map fun s => s.name.length + 1).sum) :=
  ⟨fileOf o code, sectionHeaders o code, buildElfFile_eq o code, trailingSections_fileOf,
    aligned_sectionHeaders⟩

/-- One byte of text and no symbols: `.data` starts at byte 129. -/
theorem not_aligned_one_byte :
    ∃ file secs, buildElfFile .listed { text := [0x90] } = some file ∧
      trailingSections file 6 = some secs ∧ ¬ Aligned secs := by
  refine ⟨_, _, buildElfFile_eq _ _, trailingSections_fileOf, ?_⟩
  rw [aligned_sectionHeaders]
  decide

/-! ## Reserved entries -/

/-- The body of a section, found through the header at the index of its type. -/
def bodyAt (file : ByteVec) (secs : List Elf64.SectionHeader) (secTy : SectionType) :
    Option ByteVec := do
  let sec ← secs[secTy.toUnderlying.toNat]?
  sectionBody file sec

/-- Section header 0 is zero. -/
def NullSection (file : ByteVec) (secs : List Elf64.SectionHeader) : Prop :=
  slice file (file.length - 64 * secs.length) 64 = some (List.replicate 64 0)

/-- Symbol record 0 is zero. -/
def NullSymbol (file : ByteVec) (secs : List Elf64.SectionHeader) : Prop :=
  (bodyAt file secs .symTab).bind (slice · 0 24) = some (List.replicate 24 0)

/-- The body of a section begins with a zero byte. -/
def BeginsWithZero (file : ByteVec) (secs : List Elf64.SectionHeader) (secTy : SectionType) :
    Prop :=
  (bodyAt file secs secTy).bind List.head? = some 0

/-- The body of a section ends with a zero byte. -/
def EndsWithZero (file : ByteVec) (secs : List Elf64.SectionHeader) (secTy : SectionType) :
    Prop :=
  (bodyAt file secs secTy).bind List.getLast? = some 0

/-- The entries that the format reserves. -/
structure ReservedEntries (file : ByteVec) (secs : List Elf64.SectionHeader) : Prop where
  nullSection : NullSection file secs
  nullSymbol : NullSymbol file secs
  shStrTabBegin : BeginsWithZero file secs .sectionHeaderStrTab
  shStrTabEnd : EndsWithZero file secs .sectionHeaderStrTab
  strTabBegin : BeginsWithZero file secs .symTabStrTab
  strTabEnd : EndsWithZero file secs .symTabStrTab

section

variable {o : HashOrders} {code : Code}

/-- The offset in section header 0 is that of the first body, which is not zero. -/
private theorem not_nullSection : ¬ NullSection (fileOf o code) (sectionHeaders o code) := by
  intro hzero
  obtain ⟨sec, hsec, hoffset⟩ : ∃ sec, (sectionHeaders o code)[0]? = some sec ∧
      sec.offset = 64 := ⟨_, rfl, rfl⟩
  have hlength : (sectionHeaders o code).length = 6 := rfl
  rw [NullSection, hlength, slice_eq_some] at hzero
  -- The same bytes are read as the header that is written and as one of zeros.
  have hbytes : (SectionHeader.toElf {}).bytes = List.replicate 64 0 :=
    recordBytes_zero (by decide)
  rw [← hbytes] at hzero
  have hread := readSectionHeader_fileOf hsec (isAt_trailing hsec)
  rw [Nat.mul_zero, Nat.add_zero, readSectionHeader_of_isAt hzero.1 (SectionHeader.fits {}),
    Option.some.injEq] at hread
  rw [← hread] at hoffset
  exact absurd hoffset (by decide)

/-- The body of a section is found through its header. -/
private theorem bodyAt_fileOf (hsize : (fileOf o code).length < 2 ^ 64) (secTy : SectionType) :
    bodyAt (fileOf o code) (sectionHeaders o code) secTy = some ((built o code).body secTy) := by
  obtain ⟨sec, hsec, hbody⟩ := sectionAt_fileOf hsize secTy
  rw [bodyAt, hsec]
  exact hbody

/-- The symbol table starts with the zero record. -/
private theorem nullSymbol_fileOf (hsize : (fileOf o code).length < 2 ^ 64) :
    NullSymbol (fileOf o code) (sectionHeaders o code) := by
  have hzero : SymbolRecord.bytes (Symbol.toElf {}) = List.replicate 24 0 :=
    recordBytes_zero (by decide)
  rw [NullSymbol, bodyAt_fileOf hsize, body_built, Option.bind_some, slice_eq_some]
  dsimp only
  rw [symbolRecords, symbolsOf, List.map_cons, List.map_cons, List.flatten_cons, hzero]
  exact ⟨⟨[], _, rfl, rfl⟩, List.length_replicate⟩

/-- `.strtab` begins and ends with a zero byte. -/
private theorem strTab_fileOf (hsize : (fileOf o code).length < 2 ^ 64) :
    BeginsWithZero (fileOf o code) (sectionHeaders o code) .symTabStrTab ∧
      EndsWithZero (fileOf o code) (sectionHeaders o code) .symTabStrTab := by
  have hbody : bodyAt (fileOf o code) (sectionHeaders o code) .symTabStrTab =
      some (table (symbolNames code)) := by
    rw [bodyAt_fileOf hsize, body_built]
  have hne : symbolNames code ≠ [] := List.cons_ne_nil _ _
  rw [BeginsWithZero, EndsWithZero, hbody]
  exact ⟨rfl, getLast?_table hne⟩

/-- `.shstrtab` ends with a zero byte, and begins with one exactly when the null section comes
    first in the iteration order. -/
private theorem shStrTab_fileOf (hsize : (fileOf o code).length < 2 ^ 64) :
    (BeginsWithZero (fileOf o code) (sectionHeaders o code) .sectionHeaderStrTab ↔
        o.sectionNames.keys.head? = some .null) ∧
      EndsWithZero (fileOf o code) (sectionHeaders o code) .sectionHeaderStrTab := by
  have hbody : bodyAt (fileOf o code) (sectionHeaders o code) .sectionHeaderStrTab =
      some (table (o.sectionNames.entries.map Prod.snd)) := by
    rw [bodyAt_fileOf hsize, body_built]
    exact congrArg some (SectionTable.create_spec o).1
  have hperm := o.sectionNames_perm
  rw [BeginsWithZero, EndsWithZero, hbody, Option.bind_some, Option.bind_some, UnorderedMap.keys]
  cases hentries : o.sectionNames.entries with
  | nil =>
    rw [hentries] at hperm
    exact absurd hperm.symm.eq_nil (by decide)
  | cons e es =>
    -- Only the null section has the empty name.
    have hmem : e ∈ SectionTable.sectionNames := by
      rw [← hperm.mem_iff, hentries]
      exact List.mem_cons_self
    have hname : ∀ e ∈ SectionTable.sectionNames, 0 ∉ e.2 ∧ (e.2 = [] ↔ e.1 = .null) := by
      decide
    constructor
    · rw [List.map_cons, head?_table _ (hname e hmem).1, (hname e hmem).2, List.map_cons,
        List.head?_cons, Option.some.injEq]
    · exact getLast?_table (List.cons_ne_nil _ _)

end

/-- Whatever the iteration orders, the file that is written does not keep the reserved entries:
    section header 0 has the offset 64. The others are kept, as long as the file is shorter than
    `2^64` bytes, but for the zero byte at the start of `.shstrtab`, which depends on the
    iteration order. -/
theorem reserved_buildElfFile (o : HashOrders) (code : Code) :
    ∃ file secs, buildElfFile o code = some file ∧ trailingSections file 6 = some secs ∧
      ¬ ReservedEntries file secs ∧ secs.head?.map (·.offset) = some 64 ∧
      (file.length < 2 ^ 64 →
        NullSymbol file secs ∧
        BeginsWithZero file secs .symTabStrTab ∧ EndsWithZero file secs .symTabStrTab ∧
        (BeginsWithZero file secs .sectionHeaderStrTab ↔
          o.sectionNames.keys.head? = some .null) ∧
        EndsWithZero file secs .sectionHeaderStrTab) := by
  refine ⟨fileOf o code, sectionHeaders o code, buildElfFile_eq o code, trailingSections_fileOf,
    fun h => not_nullSection h.nullSection, rfl, fun hsize => ?_⟩
  obtain ⟨hbegin, hend⟩ := strTab_fileOf hsize
  exact ⟨nullSymbol_fileOf hsize, hbegin, hend, shStrTab_fileOf hsize⟩

/-- The file of the dummy code keeps all reserved entries but section header 0, since the
    initialiser lists the null section first. -/
theorem reserved_buildElfFile_dummy :
    ∃ file secs, buildElfFile .listed .createDummyCode = some file ∧
      trailingSections file 6 = some secs ∧ ¬ ReservedEntries file secs ∧
      BeginsWithZero file secs .sectionHeaderStrTab := by
  obtain ⟨file, secs, hfile, hsecs, hnot, _, hkept⟩ :=
    reserved_buildElfFile .listed .createDummyCode
  obtain ⟨_, _, _, hbegin, _⟩ := hkept (length_file_dummy hfile)
  exact ⟨file, secs, hfile, hsecs, hnot, hbegin.mpr rfl⟩

/-- The file of an empty code does not keep the reserved entries. -/
theorem not_reserved_empty :
    ∃ file secs, buildElfFile .listed {} = some file ∧ trailingSections file 6 = some secs ∧
      ¬ ReservedEntries file secs :=
  ⟨_, _, buildElfFile_eq _ _, trailingSections_fileOf, fun h => not_nullSection h.nullSection⟩

end Fiskas
