import Fiskas.ForStd.Agree
import Fiskas.Spec.ElfEntries

/-!
# How far an object file is reproducible

The iteration orders of the two hash maps of the section table are left open by the standard
library. The order of `sections` does not reach the file, since its only loop adds up sizes.
The order of `section_names` lays out `.shstrtab` and with it the name offsets in the section
headers, and nothing else: two orders give files that differ in these bytes only, and they give
one file only when they are the same order.

## Key results

- `fileOf_congr`: the file depends on the iteration order of `section_names` only
- `names_of_fileOf_eq`: the file shows that order
- `agreeOff_fileOf`: what else is in the file does not depend on it
- `buildElfFile_reproducible`: the files of two orders
-/

namespace Fiskas

open Slice LittleEndian Elf64

namespace SectionTable

/-! ## Tables with the same contents -/

/-- Two tables have the same headers and the same bodies, in whatever order. -/
def Same (t t' : SectionTable) : Prop := t.header = t'.header ∧ t.body = t'.body

theorem Same.setHeader {t t' : SectionTable} (h : Same t t') (secTy : SectionType)
    (f : SectionHeader → SectionHeader) : Same (t.setHeader secTy f) (t'.setHeader secTy f) := by
  refine ⟨funext fun secTy' => ?_, funext fun secTy' => ?_⟩
  · rw [header_setHeader, header_setHeader, h.1]
  · rw [body_setHeader, body_setHeader, h.2]

theorem Same.setBody {t t' : SectionTable} (h : Same t t') (secTy : SectionType) (b : ByteVec) :
    Same (t.setBody secTy b) (t'.setBody secTy b) := by
  refine ⟨funext fun secTy' => ?_, funext fun secTy' => ?_⟩
  · rw [header_setBody, header_setBody, h.1]
  · rw [body_setBody, body_setBody, h.2]

/-- The loop over the names does the same to tables with the same contents. -/
private theorem Same.foldl_names {t t' : SectionTable} (h : Same t t')
    (entries : List (SectionType × ByteVec)) (s : StringTable) :
    ∃ s₁ t₁ t₁', entries.foldl addSectionName (s, t) = (s₁, t₁) ∧
      entries.foldl addSectionName (s, t') = (s₁, t₁') ∧ Same t₁ t₁' := by
  induction entries generalizing s t t' with
  | nil => exact ⟨s, t, t', rfl, rfl, h⟩
  | cons e es ih => exact ih (h.setHeader e.1 _) _

/-- Before any name is stored, all tables have the same contents. -/
private theorem same_initial (o o' : HashOrders) : Same (initial o) (initial o') := by
  refine ⟨funext fun secTy => ?_, funext fun secTy => ?_⟩
  · rw [(get_initial o secTy).1, (get_initial o' secTy).1]
  · rw [(get_initial o secTy).2, (get_initial o' secTy).2]

/-- The constructor gives the same contents whenever the names are iterated in one order. -/
theorem same_create {o o' : HashOrders}
    (h : o.sectionNames.entries = o'.sectionNames.entries) : Same (create o) (create o') := by
  obtain ⟨s, t, t', hfold, hfold', hsame⟩ :=
    (same_initial o o').foldl_names o.sectionNames.entries {}
  have hbody := hsame.setBody .sectionHeaderStrTab s.out
  rw [create, create, buildShStrtabAndFixAllHdrNameOffsets, buildShStrtabAndFixAllHdrNameOffsets,
    ← h, hfold, hfold']
  dsimp only
  rw [hbody.2]
  exact hbody.setHeader _ _

/-- The code is put into tables with the same contents in the same way. -/
private theorem Same.buildAllSectionsAndUpdateHdrs {t t' : SectionTable} (h : Same t t')
    (code : Code) :
    Same (buildAllSectionsAndUpdateHdrs t code) (buildAllSectionsAndUpdateHdrs t' code) := by
  rw [Fiskas.buildAllSectionsAndUpdateHdrs, Fiskas.buildAllSectionsAndUpdateHdrs]
  have hbodies := (((h.setBody .text code.text).setBody .data code.data).setBody .symTabStrTab
    (extractSymsAndSymStrtab code).2.out).setBody .symTab
      (({} : Serializer) <<< (extractSymsAndSymStrtab code).1).out
  dsimp only
  simp only [body_setHeader]
  rw [hbodies.2]
  exact (((hbodies.setHeader .text _).setHeader .data _).setHeader .symTabStrTab _).setHeader
    .symTab _

end SectionTable

/-! ## The file depends on the order of the names only -/

/-- When the section names are iterated in one order, the files are the same. -/
theorem fileOf_congr {o o' : HashOrders} (h : o.sectionNames.entries = o'.sectionNames.entries)
    (code : Code) : fileOf o code = fileOf o' code := by
  obtain ⟨hheader, hbody⟩ : SectionTable.Same (built o code) (built o' code) :=
    (SectionTable.same_create h).buildAllSectionsAndUpdateHdrs code
  have hbodies : bodies o code = bodies o' code := by rw [bodies, bodies, hbody]
  have hsections : sectionHeaders o code = sectionHeaders o' code := by
    simp only [sectionHeaders_eq, startOf, hheader, hbody]
  have hfile : fileHeader o code = fileHeader o' code := by
    simp only [fileHeader, SectionTable.sizeOfAllSectionBodies_eq, hbody]
  rw [fileOf, fileOf, fileHeaderBytes, fileHeaderBytes, hbodies, hsections, hfile]

/-- The file with `.shstrtab` on its own. -/
private theorem fileOf_parts (o : HashOrders) (code : Code) :
    fileOf o code = (fileHeaderBytes o code ++ code.text) ++
      (table (o.sectionNames.entries.map Prod.snd) ++
        ((((symbolRecords code).map SymbolRecord.bytes).flatten ++
            (table (symbolNames code) ++ code.data)) ++
          ((sectionHeaders o code).map SectionHeader.bytes).flatten)) := by
  have hnames := (SectionTable.create_spec o).1
  rw [fileOf, bodies, SectionTable.order]
  simp only [List.map_cons, List.map_nil, List.flatten_cons, List.flatten_nil, body_built, hnames,
    List.nil_append, List.append_nil, List.append_assoc]

/-- What stands in front of `.shstrtab`. -/
private theorem length_front (o : HashOrders) (code : Code) :
    (fileHeaderBytes o code ++ code.text).length = 64 + code.text.length := by
  rw [List.length_append, length_fileHeaderBytes]

/-- The section names take 39 bytes. -/
private theorem length_names (o : HashOrders) :
    (table (o.sectionNames.entries.map Prod.snd)).length = 39 := by
  rw [← (SectionTable.create_spec o).1, SectionTable.length_shstrtab]

/-- `.shstrtab` stands behind the file header and the text. -/
private theorem isAt_shstrtab (o : HashOrders) (code : Code) :
    IsAt (fileOf o code) (64 + code.text.length)
      (table (o.sectionNames.entries.map Prod.snd)) :=
  ⟨_, _, fileOf_parts o code, length_front o code⟩

/-- The section type with a name. -/
private def typeOf (name : ByteVec) : SectionType :=
  ((SectionTable.sectionNames.find? fun e => e.2 = name).map Prod.fst).getD .null

/-- The names in their order determine the iteration order. -/
private theorem entries_eq_of_names {o o' : HashOrders}
    (h : o.sectionNames.entries.map Prod.snd = o'.sectionNames.entries.map Prod.snd) :
    o.sectionNames.entries = o'.sectionNames.entries := by
  have htype : ∀ e ∈ SectionTable.sectionNames, (typeOf e.2, e.2) = e := by decide
  have hentries : ∀ o : HashOrders, o.sectionNames.entries =
      (o.sectionNames.entries.map Prod.snd).map fun name => (typeOf name, name) := by
    intro o
    rw [List.map_map]
    exact (List.map_id _).symm.trans (List.map_congr_left fun e he =>
      (htype e (o.sectionNames_perm.mem_iff.mp he)).symm)
  rw [hentries o, hentries o', h]

/-- The file shows the order in which the section names were iterated. -/
theorem names_of_fileOf_eq {o o' : HashOrders} {code : Code}
    (h : fileOf o code = fileOf o' code) :
    o.sectionNames.entries = o'.sectionNames.entries := by
  have hat := (isAt_shstrtab o code).slice
  have hat' := (isAt_shstrtab o' code).slice
  have hzero : ∀ o : HashOrders, ∀ name ∈ o.sectionNames.entries.map Prod.snd, 0 ∉ name := by
    intro o name hname
    obtain ⟨e, he, rfl⟩ := List.mem_map.mp hname
    have hnames : ∀ e ∈ SectionTable.sectionNames, 0 ∉ e.2 := by decide
    exact hnames e (o.sectionNames_perm.mem_iff.mp he)
  -- The 39 bytes at one place of the file are both string tables.
  rw [length_names] at hat hat'
  rw [h, hat', Option.some.injEq] at hat
  exact entries_eq_of_names (table_injective (hzero o) (hzero o') hat.symm)

/-! ## What does not depend on the order -/

/-- The bytes of section headers that differ in their names only. -/
private theorem agreeOff_bytes {sec sec' : Elf64.SectionHeader}
    (h : sec' = { sec with name := sec'.name }) : AgreeOff (· < 4) sec.bytes sec'.bytes := by
  have hsplit : ∀ sec : Elf64.SectionHeader,
      sec.bytes = LittleEndian.bytes 4 sec.name ++ recordBytes sec.fields.tail := fun _ => rfl
  have htail : sec'.fields.tail = sec.fields.tail := by
    rw [h]
    rfl
  -- The name is the first field, and four bytes wide.
  have hname : (LittleEndian.bytes 4 sec.name).length =
      (LittleEndian.bytes 4 sec'.name).length := by
    rw [LittleEndian.length_bytes, LittleEndian.length_bytes]
  rw [hsplit sec, hsplit sec', htail]
  apply (AgreeOff.of_length hname).append (.refl (fun _ => False) _)
  · intro i hi _
    rwa [LittleEndian.length_bytes] at hi
  · exact fun i hfalse => hfalse.elim

/-- The bodies are equally long for all iteration orders. -/
private theorem length_body_built (o o' : HashOrders) (code : Code) (secTy : SectionType) :
    ((built o code).body secTy).length = ((built o' code).body secTy).length := by
  rw [body_built, body_built]
  cases secTy with
  | sectionHeaderStrTab =>
    dsimp only
    rw [SectionTable.length_shstrtab, SectionTable.length_shstrtab]
  | _ => rfl

/-- The section headers of two orders differ in their names only. -/
private theorem agreeOff_sectionHeaders (o o' : HashOrders) (code : Code) :
    List.Forall₂ (AgreeOff (· < 4)) ((sectionHeaders o code).map SectionHeader.bytes)
      ((sectionHeaders o' code).map SectionHeader.bytes) := by
  have hstart : ∀ secTy, startOf o code secTy = startOf o' code secTy := by
    intro secTy
    rw [startOf, startOf, List.length_flatten_map_congr (length_body_built o o' code)]
  rw [sectionHeaders_eq, sectionHeaders_eq, List.map_map, List.map_map, List.forall₂_map_left_iff,
    List.forall₂_map_right_iff, List.forall₂_same]
  intro secTy _
  obtain ⟨off, hheader, _⟩ := header_built o code secTy
  obtain ⟨off', hheader', _⟩ := header_built o' code secTy
  apply agreeOff_bytes
  simp only [hheader, hheader', hstart, ByteVec.size, length_body_built o o' code secTy,
    SectionHeader.toElf]

/-- The positions whose bytes depend on the iteration order: the body of `.shstrtab`, and the
    name offsets, which are the first four bytes of the section headers. -/
def NameByte (code : Code) (len i : Nat) : Prop :=
  (64 + code.text.length ≤ i ∧ i < 64 + code.text.length + 39) ∨
    (len - 384 ≤ i ∧ (i - (len - 384)) % 64 < 4)

/-- The file headers of two orders are the same. -/
private theorem fileHeader_congr (o o' : HashOrders) (code : Code) :
    fileHeader o code = fileHeader o' code := by
  have hsize : (built o code).sizeOfAllSectionBodies = (built o' code).sizeOfAllSectionBodies := by
    rw [SectionTable.sizeOfAllSectionBodies_eq, SectionTable.sizeOfAllSectionBodies_eq,
      List.length_flatten_map_congr (length_body_built o o' code)]
  rw [fileHeader, fileHeader, hsize]

/-- Parts of a file like the ones of `fileOf_parts`, put together. -/
private theorem agreeOff_parts {front names names' middle secs secs' : ByteVec} {code : Code}
    (hfront : front.length = 64 + code.text.length) (hnames : names.length = 39)
    (hnames' : names'.length = 39) (hlen : secs.length = 384)
    (hsecs : AgreeOff (fun i => i % 64 < 4) secs secs') :
    AgreeOff (NameByte code (front ++ (names ++ (middle ++ secs))).length)
      (front ++ (names ++ (middle ++ secs))) (front ++ (names' ++ (middle ++ secs'))) := by
  have htotal : (front ++ (names ++ (middle ++ secs))).length - 384 =
      64 + code.text.length + 39 + middle.length := by
    simp only [List.length_append, hfront, hnames, hlen]
    omega
  -- The section headers stand behind the parts that are the same.
  have hmiddle := (AgreeOff.refl (fun _ => False) middle).append
    (R := fun i => middle.length ≤ i ∧ (i - middle.length) % 64 < 4) hsecs
    (fun i _ hfalse => hfalse.elim)
    (fun i hi => ⟨by omega, by rwa [Nat.add_sub_cancel_left]⟩)
  have htable := AgreeOff.of_length (hnames.trans hnames'.symm)
  apply (AgreeOff.refl (fun _ => False) front).append
    (htable.append
      (R := fun i => i < 39 ∨ (39 + middle.length ≤ i ∧ (i - (39 + middle.length)) % 64 < 4))
      hmiddle ?_ ?_) ?_ ?_
  · intro i hi _
    exact .inl (by omega)
  · intro i hi
    rw [hnames]
    have hsub : 39 + i - (39 + middle.length) = i - middle.length := by omega
    exact .inr ⟨by omega, by rw [hsub]; exact hi.2⟩
  · exact fun i _ hfalse => hfalse.elim
  · intro i hi
    rw [NameByte, htotal, hfront]
    cases hi with
    | inl hlt => exact .inl (by omega)
    | inr hge =>
      have hsub : 64 + code.text.length + i - (64 + code.text.length + 39 + middle.length) =
          i - (39 + middle.length) := by omega
      exact .inr ⟨by omega, by rw [hsub]; exact hge.2⟩

/-- The files of two orders agree off the bytes that the order of the names lays out. -/
theorem agreeOff_fileOf (o o' : HashOrders) (code : Code) :
    AgreeOff (NameByte code (fileOf o code).length) (fileOf o code) (fileOf o' code) := by
  have hheaders : ((sectionHeaders o code).map SectionHeader.bytes).flatten.length = 6 * 64 :=
    length_flatten_of_length (SectionHeader.length_of_mem _)
  have hsections := AgreeOff.flatten (SectionHeader.length_of_mem _)
    (agreeOff_sectionHeaders o o' code)
  -- The file header does not depend on the order, so both files start with the same part.
  have hfront : fileHeaderBytes o' code = fileHeaderBytes o code := by
    rw [fileHeaderBytes, fileHeaderBytes, fileHeader_congr o o' code]
  rw [fileOf_parts o code, fileOf_parts o' code, hfront]
  exact agreeOff_parts (length_front o code) (length_names o) (length_names o') hheaders hsections

/-! ## The files of two orders -/

private theorem nodup_reversed : (SectionTable.sectionNames.reverse.map Prod.fst).Nodup := by
  decide

/-- The entries of `section_names` in the opposite of the order in which they are listed. -/
def HashOrders.reversed : HashOrders where
  sections := HashOrders.listed.sections
  sectionNames := { entries := SectionTable.sectionNames.reverse, nodup := nodup_reversed }
  sections_perm := HashOrders.listed.sections_perm
  sectionNames_perm := List.reverse_perm SectionTable.sectionNames

/-- For any two choices of iteration orders, the files are the same exactly when
    `section_names` is iterated in the same order, whatever the orders of `sections` are. In any
    case they have the same length and differ at most in the body of `.shstrtab` and in the name
    offsets of the section headers. -/
theorem buildElfFile_reproducible (o o' : HashOrders) (code : Code) :
    ∃ file file', buildElfFile o code = some file ∧ buildElfFile o' code = some file' ∧
      (file = file' ↔ o.sectionNames.entries = o'.sectionNames.entries) ∧
      AgreeOff (NameByte code file.length) file file' :=
  ⟨fileOf o code, fileOf o' code, buildElfFile_eq o code, buildElfFile_eq o' code,
    ⟨names_of_fileOf_eq, fun h => fileOf_congr h code⟩, agreeOff_fileOf o o' code⟩

/-- Two iteration orders that give different files. -/
theorem not_reproducible_reversed :
    buildElfFile .listed {} ≠ buildElfFile .reversed {} := by
  rw [buildElfFile_eq, buildElfFile_eq]
  intro h
  have hentries := names_of_fileOf_eq (Option.some.inj h)
  exact absurd hentries (by decide)

end Fiskas
