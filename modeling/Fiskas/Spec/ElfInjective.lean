import Fiskas.Spec.ElfReproducible
import Fiskas.Spec.ElfRoundTrip

/-!
# Object files determine their codes

Two codes never have the same file, whatever the iteration orders: the headers of a file say how
it is cut into sections, the records say where the names of the symbols start, and the next name
starts behind the terminator of the one before it. Names with zero bytes are told apart, too, as
long as the offsets of the names fit the 32 bits of a record; behind that, names without zero bytes
are still told apart by their terminators.

## Key results

- `sections_eq_of_fileOf_eq`: two equal files have equal sections
- `symbols_eq_of_records`: records and string table determine the symbols
- `buildElfFile_injective`: the file determines the code
-/

namespace Fiskas

open Slice LittleEndian Elf64

/-! ## Sections -/

/-- Equal files have the same bodies in their sections, since one reader finds both. -/
theorem sections_eq_of_fileOf_eq {o o' : HashOrders} {code code' : Code}
    (h : fileOf o code = fileOf o' code') (hsize : (fileOf o code).length < 2 ^ 64)
    (secTy : SectionType) : (built o code).body secTy = (built o' code').body secTy := by
  have hsize' : (fileOf o' code').length < 2 ^ 64 := h ▸ hsize
  have hheader : (fileHeader o code).toElf = (fileHeader o' code').toElf := by
    have hread := readFileHeader_fileOf o code
    rw [h, readFileHeader_fileOf o' code'] at hread
    exact (Option.some.inj hread).symm
  have hsections : sectionHeaders o code = sectionHeaders o' code' := by
    have hread := readSections_fileOf hsize
    rw [h, hheader, readSections_fileOf hsize'] at hread
    exact (Option.some.inj hread).symm
  obtain ⟨sec, hsec, hbody⟩ := sectionAt_fileOf hsize secTy
  obtain ⟨sec', hsec', hbody'⟩ := sectionAt_fileOf hsize' secTy
  rw [← hsections, hsec] at hsec'
  rw [← h, ← Option.some.inj hsec', hbody] at hbody'
  exact Option.some.inj hbody'

/-! ## Symbols -/

/-- Equal symbol tables have equal records, since one reader finds both. -/
private theorem records_eq {syms syms' : List Symbol}
    (h : ((syms.map Symbol.toElf).map SymbolRecord.bytes).flatten =
      ((syms'.map Symbol.toElf).map SymbolRecord.bytes).flatten) :
    syms.map Symbol.toElf = syms'.map Symbol.toElf := by
  have hcut := cut_flatten (by decide) (SymbolRecord.length_of_mem (syms.map Symbol.toElf))
  rw [h, cut_flatten (by decide) (SymbolRecord.length_of_mem (syms'.map Symbol.toElf)),
    Option.some.injEq] at hcut
  have hread (syms : List Symbol) :
      ((syms.map Symbol.toElf).map SymbolRecord.bytes).mapM (readSymbolRecord · 0) =
        some (syms.map Symbol.toElf) := by
    apply List.mapM_eq_some_of_forall₂
    rw [List.forall₂_map_left_iff, List.forall₂_same]
    intro sym hsym
    obtain ⟨s, -, rfl⟩ := List.mem_map.mp hsym
    exact readSymbolRecord_of_isAt (IsAt.refl _) s.fits
  have heq := hread syms'
  rw [hcut, hread syms] at heq
  exact Option.some.inj heq

/-- A record has all of a symbol but its name. -/
private theorem eq_of_record {offset offset' : Nat} {s s' : Code.Symbol}
    (h : (symbolAt offset s).toElf = (symbolAt offset' s').toElf) (hname : s.name = s'.name) :
    s = s' := by
  simp only [Symbol.toElf, SymbolRecord.mk.injEq, BitVec.toNat_inj] at h
  obtain ⟨-, -, -, hshndx, hvalue, hsize⟩ := h
  have hsection (t t' : SectionType) (h : t.toUnderlying = t'.toUnderlying) : t = t' := by
    cases t <;> cases t' <;> first | rfl | exact absurd h (by decide)
  obtain ⟨o, sec, name, value⟩ := s
  obtain ⟨o', sec', name', value'⟩ := s'
  obtain rfl : sec = sec' := hsection _ _ hshndx
  obtain rfl : o = o' := hvalue
  obtain rfl : value = value' := hsize
  obtain rfl : name = name' := hname
  rfl

/-- The offsets of two names that fit 32 bits are told apart. -/
private theorem offset_of_record {offset offset' : Nat} {s s' : Code.Symbol}
    (h : (symbolAt offset s).toElf = (symbolAt offset' s').toElf) (ho : offset < 2 ^ 32)
    (ho' : offset' < 2 ^ 32) : offset = offset' := by
  have hname : (symbolAt offset s).stName.toNat = (symbolAt offset' s').stName.toNat :=
    congrArg SymbolRecord.name h
  exact (toNat_offset ho).symm.trans (hname.trans (toNat_offset ho'))

/-- Records and names determine the symbols. -/
private theorem symbols_eq_of_names {ss ss' : List Code.Symbol} {offset offset' : Nat}
    (hrecords : (symbolsFrom offset ss).map Symbol.toElf =
      (symbolsFrom offset' ss').map Symbol.toElf)
    (hnames : ss.map (·.name) = ss'.map (·.name)) : ss = ss' := by
  induction ss generalizing ss' offset offset' with
  | nil => exact (List.map_eq_nil_iff.mp hnames.symm).symm
  | cons s ss ih =>
    obtain ⟨s', ss', rfl, hname, hrest⟩ := List.map_eq_cons_iff.mp hnames.symm
    rw [symbolsFrom, symbolsFrom, List.map_cons, List.map_cons, List.cons.injEq] at hrecords
    rw [eq_of_record hrecords.1 hname.symm, ih hrecords.2 hrest.symm]

/-- Offsets that fit 32 bits say how a string table is cut into names. -/
private theorem names_eq_of_offsets {ss ss' : List Code.Symbol} {offset : Nat}
    (hrecords : (symbolsFrom offset ss).map Symbol.toElf =
      (symbolsFrom offset ss').map Symbol.toElf)
    (htable : table (ss.map (·.name)) = table (ss'.map (·.name)))
    (hsize : offset + (table (ss.map (·.name))).length ≤ 2 ^ 32) :
    ss.map (·.name) = ss'.map (·.name) := by
  induction ss generalizing ss' offset with
  | nil =>
    cases ss' with
    | nil => rfl
    | cons s' ss' => exact absurd htable.symm (table_cons_ne_nil _ _)
  | cons s ss ih =>
    cases ss' with
    | nil => exact absurd htable (table_cons_ne_nil _ _)
    | cons s' ss' =>
      rw [symbolsFrom, symbolsFrom, List.map_cons, List.map_cons, List.cons.injEq] at hrecords
      have hsize' := hsize
      rw [htable] at hsize'
      rw [List.map_cons, List.map_cons, table_cons, table_cons] at htable
      rw [List.map_cons, table_cons, List.length_append, length_terminated] at hsize hsize'
      -- The next name starts behind the terminator, or the table ends there.
      have hlength : s.name.length = s'.name.length := by
        cases ss with
        | nil =>
          cases ss' with
          | nil =>
            have hlen := congrArg List.length htable
            rw [List.length_append, List.length_append, length_terminated,
              length_terminated] at hlen
            exact Nat.add_right_cancel (Nat.add_right_cancel hlen)
          | cons t' ts' => cases hrecords.2
        | cons t ts =>
          cases ss' with
          | nil => cases hrecords.2
          | cons t' ts' =>
            have hnext := hrecords.2
            rw [symbolsFrom, symbolsFrom, List.map_cons, List.map_cons, List.cons.injEq] at hnext
            rw [List.map_cons, table_cons, List.length_append, length_terminated]
              at hsize hsize'
            have hoffset := offset_of_record hnext.1 (by omega) (by omega)
            omega
      obtain ⟨hname, hrest⟩ := List.append_inj htable (by
        rw [length_terminated, length_terminated, hlength])
      rw [terminated, terminated, List.append_cancel_right_eq] at hname
      have hrecords' := hrecords.2
      rw [← hlength] at hrecords'
      rw [List.map_cons, List.map_cons, hname, ih hrecords' hrest (by omega)]

/-- The names of two codes are told apart: they have no zero bytes, or their offsets fit the 32
    bits of a record. -/
def NamesTold (code code' : Code) : Prop :=
  (∀ s ∈ code.symbols ++ code'.symbols, 0 ∉ s.name) ∨
    (code.symbols.map fun s => s.name.length + 1).sum < 2 ^ 32

/-- The records of the symbol table and the string table determine the symbols. -/
theorem symbols_eq_of_records {code code' : Code}
    (hrecords : symbolRecords code = symbolRecords code')
    (htable : table (symbolNames code) = table (symbolNames code')) (htold : NamesTold code code') :
    code.symbols = code'.symbols := by
  rw [symbolRecords, symbolRecords, symbolsOf, symbolsOf, List.map_cons, List.map_cons,
    List.cons.injEq] at hrecords
  rw [symbolNames, symbolNames, table_cons, table_cons, List.append_cancel_left_eq] at htable
  refine symbols_eq_of_names hrecords.2 ?_
  cases htold with
  | inl hzero =>
    rw [List.forall_mem_append] at hzero
    exact table_injective (List.forall_mem_map.mpr hzero.1) (List.forall_mem_map.mpr hzero.2)
      htable
  | inr hsum =>
    apply names_eq_of_offsets hrecords.2 htable
    rw [length_table, List.map_map, Nat.add_comm]
    exact hsum

/-! ## The file -/

/-- Whatever the iteration orders, two codes whose names are told apart never have the same file,
    as long as that is shorter than `2^64` bytes. -/
theorem buildElfFile_injective (o o' : HashOrders) (code code' : Code)
    (h : buildElfFile o code = buildElfFile o' code')
    (hsize : ∀ file ∈ buildElfFile o code, file.length < 2 ^ 64)
    (htold : NamesTold code code') : code = code' := by
  rw [buildElfFile_eq] at hsize
  rw [buildElfFile_eq, buildElfFile_eq, Option.some.injEq] at h
  have hbody := sections_eq_of_fileOf_eq h (hsize _ rfl)
  have htext := hbody .text
  have hdata := hbody .data
  have hsymtab := hbody .symTab
  have hstrtab := hbody .symTabStrTab
  rw [body_built, body_built] at htext hdata hsymtab hstrtab
  have hsymbols := symbols_eq_of_records (records_eq hsymtab) hstrtab htold
  obtain ⟨text, data, symbols⟩ := code
  obtain ⟨text', data', symbols'⟩ := code'
  obtain rfl : text = text' := htext
  obtain rfl : data = data' := hdata
  obtain rfl : symbols = symbols' := hsymbols
  rfl

private theorem nodup_turned : (SectionTable.initialSections.reverse.map Prod.fst).Nodup := by
  decide

/-- The entries of `sections` in the opposite of the order in which they are listed. -/
def HashOrders.turned : HashOrders where
  sections := { entries := SectionTable.initialSections.reverse, nodup := nodup_turned }
  sectionNames := HashOrders.listed.sectionNames
  sections_perm := List.reverse_perm SectionTable.initialSections
  sectionNames_perm := HashOrders.listed.sectionNames_perm

/-- A code whose file under another order of `sections` is that of the dummy code is the dummy
    code. -/
theorem buildElfFile_injective_dummy :
    Code.createDummyCode = { Code.createDummyCode with text := Code.createDummyCode.text } := by
  have hfile : buildElfFile .listed .createDummyCode =
      buildElfFile .turned
        { Code.createDummyCode with text := Code.createDummyCode.text } := by
    -- The names are iterated in the same order, and the file depends on that order only.
    have hnames : HashOrders.listed.sectionNames.entries =
        HashOrders.turned.sectionNames.entries := rfl
    have hcongr := fileOf_congr hnames Code.createDummyCode
    rw [buildElfFile_eq, hcongr, ← buildElfFile_eq]
  exact buildElfFile_injective .listed .turned .createDummyCode _ hfile
    (fun _ hfile => length_file_dummy hfile) (.inr (by decide))

end Fiskas
