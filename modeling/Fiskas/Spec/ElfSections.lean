import Fiskas.Native.ElfBuilder
import Fiskas.Spec.SectionTable
import Fiskas.Spec.SerializerBytes

/-!
# The sections of an object file

What `build_all_sections_and_update_hdrs` puts into a fresh section table: the bodies, and
headers that have the size of their body, the offset of their name and otherwise only what the
type of the section asks for. The symbol table is a zero record and one record for each symbol
of the code, whose name stands in the string table at the record's offset as long as offsets
fit 32 bits.

## Key results

- `extractSymsAndSymStrtab_eq`, `names_symbolsFrom`: the symbols and their names
- `body_built`, `header_built`: the section table before it is written
-/

namespace Fiskas

open Slice LittleEndian Elf64

/-! ## Symbols -/

/-- The symbol of a code symbol whose name starts at an offset. -/
def symbolAt (offset : Nat) (s : Code.Symbol) : Symbol where
  stName := (BitVec.ofNat 64 offset).setWidth 32
  stInfo := if s.codeSection = .text then 0x12 else 0x11
  stShndx := s.codeSection.toUnderlying
  stValue := s.offset
  stSize := s.value

/-- The symbols of code symbols whose names stand in a string table from an offset on. -/
def symbolsFrom : Nat → List Code.Symbol → List Symbol
  | _, [] => []
  | offset, s :: ss => symbolAt offset s :: symbolsFrom (offset + (s.name.length + 1)) ss

/-- The names of the symbols of a code, behind the empty name. -/
def symbolNames (code : Code) : List ByteVec := [] :: code.symbols.map (·.name)

private theorem foldl_addSymbol (ss : List Code.Symbol) (syms : List Symbol) (t : StringTable) :
    ss.foldl addSymbol (syms, t) =
      (syms ++ symbolsFrom t.out.length ss, { out := t.out ++ table (ss.map (·.name)) }) := by
  induction ss generalizing syms t with
  | nil => simp [symbolsFrom, table]
  | cons s ss ih =>
    -- One round appends the symbol whose name starts at the end of the table so far.
    have hsym : addSymbol (syms, t) s =
        (syms ++ [symbolAt t.out.length s], (t.addString s.name).2) := by
      simp only [addSymbol, symbolAt, StringTable.offset_addString]
      split <;> rfl
    rw [List.foldl_cons, hsym, ih, StringTable.out_addString, symbolsFrom, List.map_cons,
      table_cons, List.append_assoc, List.append_assoc, List.length_append, length_terminated]
    rfl

/-- The symbols of a code, behind the zero symbol. -/
def symbolsOf (code : Code) : List Symbol := {} :: symbolsFrom 1 code.symbols

/-- The symbols and the string table of a code. -/
theorem extractSymsAndSymStrtab_eq (code : Code) :
    extractSymsAndSymStrtab code = (symbolsOf code, { out := table (symbolNames code) }) := by
  rw [extractSymsAndSymStrtab]
  dsimp only
  rw [foldl_addSymbol]
  rfl

private theorem stNames_symbolsFrom (offset : Nat) (ss : List Code.Symbol) :
    (symbolsFrom offset ss).map (·.stName) =
      (startsFrom offset (ss.map (·.name))).map fun start =>
        (BitVec.ofNat 64 start).setWidth 32 := by
  induction ss generalizing offset with
  | nil => rfl
  | cons s ss ih =>
    rw [symbolsFrom, List.map_cons, ih, List.map_cons, startsFrom, List.map_cons]
    rfl

/-- The string table is what adding the names of the symbols leaves, and the records have the
    offsets that are returned, cut to 32 bits. -/
theorem addStrings_symbolNames (code : Code) :
    (extractSymsAndSymStrtab code).2 = (({} : StringTable).addStrings (symbolNames code)).2 ∧
      (extractSymsAndSymStrtab code).1.map (·.stName) =
        (({} : StringTable).addStrings (symbolNames code)).1.map (·.setWidth 32) := by
  rw [extractSymsAndSymStrtab_eq, StringTable.addStrings_eq]
  constructor
  · rfl
  · rw [List.map_map]
    show _ :: (symbolsFrom 1 code.symbols).map _ = _
    rw [stNames_symbolsFrom]
    rfl

theorem length_symbolsFrom (offset : Nat) (ss : List Code.Symbol) :
    (symbolsFrom offset ss).length = ss.length := by
  induction ss generalizing offset with
  | nil => rfl
  | cons s ss ih => rw [symbolsFrom, List.length_cons, List.length_cons, ih]

/-- Every symbol has its code symbol's data, and its name stands in the string table. -/
theorem names_symbolsFrom (front : ByteVec) (ss : List Code.Symbol)
    (hsize : front.length + (table (ss.map (·.name))).length ≤ 2 ^ 32) :
    List.Forall₂ (fun sym s => (∃ offset, sym = symbolAt offset s) ∧
        IsAt (front ++ table (ss.map (·.name))) sym.stName.toNat (terminated s.name))
      (symbolsFrom front.length ss) ss := by
  induction ss generalizing front with
  | nil => exact .nil
  | cons s ss ih =>
    rw [List.map_cons, table_cons, List.length_append, length_terminated] at hsize
    have hlen : (front ++ terminated s.name).length = front.length + (s.name.length + 1) := by
      rw [List.length_append, length_terminated]
    rw [symbolsFrom, List.map_cons, table_cons]
    refine .cons ⟨⟨_, rfl⟩, ?_⟩ ?_
    -- The cast to `u32` keeps the offset, since the whole table is no longer than `2^32`.
    · have hname : (symbolAt front.length s).stName.toNat = front.length :=
        toNat_offset (by omega)
      rw [hname]
      exact .intro front (terminated s.name) _
    · have ih := ih (front ++ terminated s.name) (by omega)
      rwa [hlen, List.append_assoc] at ih

/-! ## Bodies and headers -/

/-- The section table that is written for a code. -/
def built (o : HashOrders) (code : Code) : SectionTable :=
  buildAllSectionsAndUpdateHdrs (SectionTable.create o) code

/-- The records of the symbol table. -/
def symbolRecords (code : Code) : List SymbolRecord := (symbolsOf code).map Symbol.toElf

/-- The serialized symbols. -/
private theorem out_symbols (code : Code) :
    (({} : Serializer) <<< symbolsOf code).out =
      ((symbolRecords code).map SymbolRecord.bytes).flatten := by
  rw [Serializer.out_vector Serializer.out_symbol, symbolRecords, List.map_map]
  rfl

/-- What the type of a section puts into its header. -/
def typeHeader : SectionType → SectionHeader
  | .null => {}
  | .text => { shType := 1, shAddralign := 1 }
  | .sectionHeaderStrTab => { shType := 3, shAddralign := 1 }
  | .symTab => { shType := 2, shLink := 4, shInfo := 1, shAddralign := 1, shEntsize := 24 }
  | .symTabStrTab => { shType := 3, shAddralign := 1 }
  | .data => { shType := 1, shAddralign := 8 }

/-- The bodies of the sections. -/
theorem body_built (o : HashOrders) (code : Code) (secTy : SectionType) :
    (built o code).body secTy =
      match secTy with
      | .null => []
      | .text => code.text
      | .sectionHeaderStrTab => (SectionTable.create o).body .sectionHeaderStrTab
      | .symTab => ((symbolRecords code).map SymbolRecord.bytes).flatten
      | .symTabStrTab => table (symbolNames code)
      | .data => code.data := by
  have hnull := (SectionTable.create_spec o).2.1 .null (by decide)
  cases secTy <;>
    simp [built, buildAllSectionsAndUpdateHdrs, extractSymsAndSymStrtab_eq,
      SectionTable.body_setBody, hnull, out_symbols]

/-- The headers of the sections, and where their names are. -/
theorem header_built (o : HashOrders) (code : Code) (secTy : SectionType) :
    ∃ off, (built o code).header secTy =
        { typeHeader secTy with
          shName := off, shSize := ByteVec.size ((built o code).body secTy) } ∧
      IsAt ((built o code).body .sectionHeaderStrTab) off.toNat
        (terminated (SectionTable.nameOf secTy)) := by
  obtain ⟨_, hempty, hnames⟩ := SectionTable.create_spec o
  have hlen := SectionTable.length_shstrtab o
  obtain ⟨off, hheader, hat⟩ := hnames secTy
  refine ⟨off, ?_, ?_⟩
  · have hnull := hempty .null (by decide)
    cases secTy <;>
      simp [built, buildAllSectionsAndUpdateHdrs, SectionTable.header_setHeader,
        SectionTable.body_setBody, hheader, hlen, hnull, typeHeader, SectionTable.createdHeader,
        SectionHeader.shtProgbits, SectionHeader.shtSymtab, SectionHeader.shtStrtab,
        SectionType.toUnderlying, Symbol.serializedSize, ByteVec.size]
  · rw [body_built]
    exact hat

end Fiskas
