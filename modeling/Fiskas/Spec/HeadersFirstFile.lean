import Mathlib.Algebra.BigOperators.Group.List.Basic
import Mathlib.Data.List.Perm.Subperm
import Mathlib.Data.List.ProdSigma
import Fiskas.Spec.HeadersFirst

/-!
# The file of the headers-first writer

When the section types are distinct, no label occurs twice in the template of the file, so
`dump_to` fills every field once. The filled template is a file header, section headers and
bodies, which a plain reader reads back.

## Key results

- `fill_filePieces`: the filled template
- `dumpTo_written`: what `dump_to` writes
- `relocated_serializeTable`: what a reader finds in the file
-/

namespace Fiskas.MainV2

open LittleEndian Slice Template

/-! ## Labels -/

/-- The labels of the file header and those of sections of different types are distinct. -/
theorem nodup_labels {hdrs : List ElfHeaderRelocationLabel} {types : List SectionType}
    {secs : List SectionRelocationLabel.Label} (hhdrs : hdrs.Nodup) (htypes : types.Nodup)
    (hsecs : secs.Nodup) :
    (hdrs.map LabelType.ofElfHeader ++
      types.flatMap fun ty => secs.map fun l => LabelType.ofSection ⟨ty, l⟩).Nodup := by
  -- The labels of the sections are the pairs of a type and a field.
  have hprod : (types.flatMap fun ty => secs.map fun l => LabelType.ofSection ⟨ty, l⟩) =
      (types ×ˢ secs).map fun p => LabelType.ofSection ⟨p.1, p.2⟩ := by
    simp only [SProd.sprod, List.product, List.map_flatMap, List.map_map]
    rfl
  rw [hprod, List.nodup_append']
  refine ⟨hhdrs.map fun a b h => LabelType.ofElfHeader.inj h, ?_, ?_⟩
  · apply (htypes.product hsecs).map
    intro p q h
    have h := LabelType.ofSection.inj h
    exact Prod.ext (congrArg SectionRelocationLabel.sectionType h)
      (congrArg SectionRelocationLabel.label h)
  -- No label of the file header is one of a section.
  · intro l hl hl'
    obtain ⟨a, -, rfl⟩ := List.mem_map.mp hl
    obtain ⟨p, -, h⟩ := List.mem_map.mp hl'
    cases h

/-- The content of every labelled piece is as wide as the field with its label. -/
def WidthsFit (t : List (Piece LabelType U8)) : Prop :=
  ∀ p ∈ t, ∀ l, p.label = some l → p.content.length = labelWidth l

/-- `dump_to` fills the template of the output with the values of the fixes. -/
theorem dumpTo_built {ser : Serializer} {t : List (Piece LabelType U8)}
    {fixes : List RelocationFix} (h : Built ser t fixes)
    (hlen : (render t).length < 2 ^ 64) (hnodup : (labels t).Nodup) (hwidths : WidthsFit t)
    (hmem : ∀ fix ∈ fixes, fix.label ∈ labels t) (hfit : ∀ fix ∈ fixes, fix.Fits) :
    ser.dumpTo = .ok (render (t.map fun p => p.fillAll (fixes.map RelocationFix.fill))) := by
  rw [Serializer.dumpTo, h.relocations, h.relocationFixes, h.out]
  apply run_of_patchFirst_run hlen
  -- Every mark lies in the output, so its position fits 64 bits.
  · intro m hm
    have := le_of_mem_marks hm
    omega
  · apply patchFirst_run hnodup (List.forall_mem_map.mpr hmem)
    rw [List.forall_mem_map]
    intro fix hfix p hp hlabel
    rw [hwidths p hp _ hlabel]
    exact hfit fix hfix

/-! ## The file -/

/-- The template of the file: the file header, the section headers and the bodies. -/
def filePieces (hdr : ElfHeader) (secs : List Section) (bodies : ByteVec) :
    List (Piece LabelType U8) :=
  headerPieces hdr ++ (secs.map sectionPieces).flatten ++ [⟨none, bodies⟩]

/-- The labels of the template are those of the file header and then those of each section, in
    the order of the fields. -/
theorem labels_filePieces (hdr : ElfHeader) (secs : List Section) (bodies : ByteVec) :
    labels (filePieces hdr secs bodies) =
      [.sectionHeaderTableOffset, .numberOfSectionHeaders, .sectionHeaderStringTableIdx].map
        LabelType.ofElfHeader ++
      (secs.map Section.type).flatMap fun ty =>
        [.sectionName, .sectionOffset, .sectionSize].map fun l => LabelType.ofSection ⟨ty, l⟩ := by
  have hsecs : labels (secs.map sectionPieces).flatten = (secs.map Section.type).flatMap fun ty =>
      [.sectionName, .sectionOffset, .sectionSize].map fun l => LabelType.ofSection ⟨ty, l⟩ := by
    induction secs with
    | nil => rfl
    | cons sec secs ih =>
      rw [List.map_cons, List.flatten_cons, labels_append, ih]
      rfl
  rw [filePieces, labels_append, labels_append, hsecs]
  exact List.append_nil _

/-- The fields of the template have the widths of their labels. -/
theorem widthsFit_filePieces (hdr : ElfHeader) (secs : List Section) (bodies : ByteVec) :
    WidthsFit (filePieces hdr secs bodies) := by
  have hhdr : WidthsFit (headerPieces hdr) := by
    simp [WidthsFit, headerPieces, labelWidth]
  have hsec : ∀ sec, WidthsFit (sectionPieces sec) := by
    simp [WidthsFit, sectionPieces, labelWidth]
  intro p hp l hl
  rw [filePieces, List.mem_append, List.mem_append] at hp
  rcases hp with (hp | hp) | hp
  · exact hhdr p hp l hl
  · obtain ⟨part, hpart, hp⟩ := List.mem_flatten.mp hp
    obtain ⟨sec, -, rfl⟩ := List.mem_map.mp hpart
    exact hsec sec p hp l hl
  · obtain rfl := List.mem_singleton.mp hp
    cases hl

/-- A file header takes up 64 bytes. -/
theorem length_headerPieces (hdr : ElfHeader) : (render (headerPieces hdr)).length = 64 := by
  simp [headerPieces]

/-- The headers take up 64 bytes each. -/
theorem length_headers (hdr : ElfHeader) (secs : List Section) :
    (render (headerPieces hdr ++ (secs.map sectionPieces).flatten)).length =
      64 + 64 * secs.length := by
  -- Parts of one length: their number times that length.
  have hsecs : ∀ part ∈ secs.map fun sec => render (sectionPieces sec), part.length = 64 :=
    List.forall_mem_map.mpr fun sec _ => by simp [sectionPieces]
  have hflatten := length_flatten_of_length hsecs
  rw [List.length_map] at hflatten
  rw [render_append, render_flatten, List.map_map, List.length_append, length_headerPieces,
    Nat.mul_comm 64]
  exact congrArg (64 + ·) hflatten

/-- The file is as long as its headers and its bodies. -/
theorem length_filePieces (hdr : ElfHeader) (secs : List Section) (bodies : ByteVec) :
    (render (filePieces hdr secs bodies)).length = 64 + 64 * secs.length + bodies.length := by
  rw [filePieces, render_append, List.length_append, length_headers, render_cons, render_nil,
    List.append_nil]

variable {n : Nat}

/-- A table as a list, by index. -/
theorem toList_eq (table : Vector Section n) :
    table.toList = (List.finRange n).map fun i => (table.get i) := by
  apply List.ext_getElem
  · simp
  · intro i hi hi'
    rw [List.getElem_map, List.getElem_finRange]
    rfl

/-- Sections of different types are no more than there are types. -/
theorem length_le_of_injective {table : Vector Section n}
    (htypes : Function.Injective fun i : Fin n => (table.get i).type) : n ≤ 6 := by
  have hall : ((List.finRange n).map fun i => (table.get i).type) ⊆
      [.sectionHeaderStringTable, .null, .text, .symTab, .symTabStringTable, .invalid] := by
    intro ty _
    cases ty <;> simp
  -- The types of the sections are as many as the sections, and among the six there are.
  have hnodup : ((List.finRange n).map fun i => (table.get i).type).Nodup :=
    (List.nodup_finRange n).map htypes
  have hle := (List.subperm_of_subset hnodup hall).length_le
  rwa [List.length_map, List.length_finRange] at hle

/-- The fixes that are recorded before the section headers are written. -/
def headerFixes (s : Fin n) : List RelocationFix := [
  ⟨.ofElfHeader .numberOfSectionHeaders, 16, BitVec.ofNat 16 n⟩,
  ⟨.ofElfHeader .sectionHeaderTableOffset, 64, BitVec.ofNat 64 64⟩,
  ⟨.ofElfHeader .sectionHeaderStringTableIdx, 16, BitVec.ofNat 16 s.val⟩]

/-- What is streamed before the bodies: all headers, with the three fixes of the file header
    recorded. -/
theorem built_withHeaders (hdr : ElfHeader) (table : Vector Section n) (s : Fin n) :
    Built (withHeaders (({} : Serializer) <<< hdr) table s)
      (headerPieces hdr ++ (table.toList.map sectionPieces).flatten) (headerFixes s) := by
  have hhdr : Built (({} : Serializer) <<< hdr) (headerPieces hdr) [] := Built.empty.elfHeader hdr
  -- The section headers are to start right behind the file header.
  have hsize : ByteVec.size (({} : Serializer) <<< hdr).out = BitVec.ofNat 64 64 := by
    rw [ByteVec.size, hhdr.out, length_headerPieces]
  have hfixes := ((hhdr.fixRelocation (.ofElfHeader .numberOfSectionHeaders)
    (BitVec.ofNat 16 n)).fixRelocation (.ofElfHeader .sectionHeaderTableOffset)
    (ByteVec.size (({} : Serializer) <<< hdr).out)).fixRelocation
    (.ofElfHeader .sectionHeaderStringTableIdx) (BitVec.ofNat 16 s.val)
  have hheaders := hfixes.serializeHeaders table.toList
  rw [hsize] at hheaders
  rw [withHeaders, hsize]
  exact hheaders

/-- The labels of all fixes. -/
theorem labels_fixes {ser₀ : Serializer} {table : Vector Section n} {s : Fin n}
    {acc : Serializer × Vector Section n} (hser₀ : ser₀.relocationFixes = headerFixes s)
    (hw : Written ser₀ table s (bodyOrder table s) acc) :
    acc.1.relocationFixes.map RelocationFix.label =
      [.numberOfSectionHeaders, .sectionHeaderTableOffset, .sectionHeaderStringTableIdx].map
        LabelType.ofElfHeader ++
      ((bodyOrder table s).map fun i => (table.get i).type).flatMap sectionLabels := by
  rw [hw.labels, hser₀, List.flatMap_map]
  rfl

section Labels

variable {table : Vector Section n} {s : Fin n}
  (htypes : Function.Injective fun i : Fin n => (table.get i).type)

include htypes

/-- Sections of different types, in the order of the table. -/
theorem nodup_types : (table.toList.map Section.type).Nodup := by
  rw [toList_eq, List.map_map]
  exact (List.nodup_finRange n).map htypes

variable (hs : (table.get s).type = .sectionHeaderStringTable)

include hs

/-- The types of the sections, in the order in which their bodies are written. -/
theorem types_perm : ((bodyOrder table s).map fun i => (table.get i).type).Perm
    (table.toList.map Section.type) := by
  have hperm := (bodyOrder_perm htypes hs).map fun i => (table.get i).type
  rwa [toList_eq, List.map_map]

/-- Every field is fixed once. -/
theorem nodup_fixes {ser₀ : Serializer} {acc : Serializer × Vector Section n}
    (hser₀ : ser₀.relocationFixes = headerFixes s)
    (hw : Written ser₀ table s (bodyOrder table s) acc) :
    (acc.1.relocationFixes.map RelocationFix.label).Nodup := by
  rw [labels_fixes hser₀ hw]
  apply nodup_labels (by decide) _ (by decide)
  exact (types_perm htypes hs).nodup_iff.mpr (nodup_types htypes)

/-- Every label that is fixed is the label of a field. -/
theorem mem_labels_of_fixes {ser₀ : Serializer} {acc : Serializer × Vector Section n}
    (hser₀ : ser₀.relocationFixes = headerFixes s)
    (hw : Written ser₀ table s (bodyOrder table s) acc) (hdr : ElfHeader) (bodies : ByteVec) :
    ∀ fix ∈ acc.1.relocationFixes, fix.label ∈ labels (filePieces hdr table.toList bodies) := by
  intro fix hfix
  have hlabel := List.mem_map_of_mem (f := RelocationFix.label) hfix
  rw [labels_fixes hser₀ hw, List.mem_append] at hlabel
  rw [labels_filePieces, List.mem_append]
  -- Both lists go through the same labels, the fixes in the order in which they are made.
  cases hlabel with
  | inl hhdr =>
    left
    exact List.map_subset _ (by simp) hhdr
  | inr hsec =>
    right
    obtain ⟨ty, hty, hl⟩ := List.mem_flatMap.mp hsec
    have hty' := (types_perm htypes hs).mem_iff.mp hty
    exact List.mem_flatMap.mpr ⟨ty, hty', List.map_subset _ (by simp) hl⟩

end Labels

/-! ## Reading the file -/

/-- A file header, the section headers and the bodies. -/
def headersFirst (hdr : ElfHeader) (secs : List SectionHeader) (bodies : ByteVec) : ByteVec :=
  hdr.eIdent.toList ++ hdr.toElf.bytes ++
    ((secs.map fun h => h.toElf.bytes).flatten ++ bodies)

section Reading

variable (hdr : ElfHeader) (secs : List SectionHeader) (bodies : ByteVec)

/-- The file starts with the identification. -/
theorem take_headersFirst : (headersFirst hdr secs bodies).take 16 = hdr.eIdent.toList := by
  rw [headersFirst, List.append_assoc]
  exact List.take_left' (Vector.length_toList)

/-- The file header is read behind the identification. -/
theorem readFileHeader_headersFirst :
    Elf64.readFileHeader (headersFirst hdr secs bodies) = some hdr.toElf := by
  have hat : IsAt (headersFirst hdr secs bodies) 16 hdr.toElf.bytes := by
    rw [headersFirst, List.append_assoc]
    exact ⟨hdr.eIdent.toList, _, rfl, Vector.length_toList⟩
  exact Elf64.readFileHeader_of_isAt hat hdr.fits

/-- The identification and the file header take up 64 bytes. -/
theorem length_fileHeader : (hdr.eIdent.toList ++ hdr.toElf.bytes).length = 64 := by
  rw [List.length_append, Elf64.FileHeader.length_bytes, Vector.length_toList]

variable {secs}

/-- A section header takes up 64 bytes. -/
theorem length_of_mem_headers :
    ∀ part ∈ secs.map fun h => h.toElf.bytes, part.length = 64 :=
  List.forall_mem_map.mpr fun h _ => h.toElf.length_bytes

/-- Each section header is read behind the file header and those in front of it. -/
theorem readSectionHeader_headersFirst {i : Nat} {h : SectionHeader} (hi : secs[i]? = some h) :
    Elf64.readSectionHeader (headersFirst hdr secs bodies) (64 + 64 * i) = some h.toElf := by
  have hpart : (secs.map fun h => h.toElf.bytes)[i]? = some h.toElf.bytes := by
    rw [List.getElem?_map, hi]
    rfl
  -- All headers have one length, so header `i` stands behind `i` times that length.
  have hat := ((isAt_flatten_of_length length_of_mem_headers hpart).append_right bodies).append_left
    (hdr.eIdent.toList ++ hdr.toElf.bytes)
  rw [length_fileHeader, Nat.mul_comm i 64] at hat
  exact Elf64.readSectionHeader_of_isAt hat h.fits

variable (secs) {bodies}

/-- What stands in the bodies stands behind the headers. -/
theorem isAt_headersFirst {offset : Nat} {body : ByteVec} (h : IsAt bodies offset body) :
    IsAt (headersFirst hdr secs bodies) (64 + 64 * secs.length + offset) body := by
  have hlen : ((secs.map fun h => h.toElf.bytes).flatten).length = secs.length * 64 := by
    rw [length_flatten_of_length length_of_mem_headers, List.length_map]
  have hat := (h.append_left (secs.map fun h => h.toElf.bytes).flatten).append_left
    (hdr.eIdent.toList ++ hdr.toElf.bytes)
  rwa [length_fileHeader, hlen, Nat.mul_comm _ 64, ← Nat.add_assoc] at hat

end Reading

/-! ## What `dump_to` writes -/

/-- The file header with the fields that the fixes fill in. -/
def fixedElfHeader (hdr : ElfHeader) (s : Fin n) : ElfHeader :=
  { hdr with
    eShoff := BitVec.ofNat 64 64
    eShnum := BitVec.ofNat 16 n
    eShstrndx := BitVec.ofNat 16 s.val }

/-- A section header with the fields that the fixes fill in. -/
def fixedHeader (h : SectionHeader) (name size offset : Nat) : SectionHeader :=
  { h with
    shName := BitVec.ofNat 32 name
    shSize := BitVec.ofNat 64 size
    shOffset := BitVec.ofNat 64 offset }

/-- Values that fit are read back from the fields. -/
theorem toElf_fixedHeader (h : SectionHeader) {name size offset : Nat} (hname : name < 2 ^ 32)
    (hsize : size < 2 ^ 64) (hoffset : offset < 2 ^ 64) :
    (fixedHeader h name size offset).toElf = { h.toElf with name, offset, size } := by
  simp only [fixedHeader, SectionHeader.toElf, BitVec.toNat_ofNat, Nat.mod_eq_of_lt hname,
    Nat.mod_eq_of_lt hsize, Nat.mod_eq_of_lt hoffset]

/-- The fixed file header points to the section headers and to the string table. -/
theorem toElf_fixedElfHeader (hdr : ElfHeader) (hn : n < 2 ^ 16) (s : Fin n) :
    (fixedElfHeader hdr s).toElf =
      { hdr.toElf with shoff := 64, shnum := n, shstrndx := s } := by
  have hs : s.val < 2 ^ 16 := by omega
  simp only [fixedElfHeader, ElfHeader.toElf, BitVec.toNat_ofNat, Nat.mod_eq_of_lt hn,
    Nat.mod_eq_of_lt hs]

/-- A template with distinct labels is filled with the values of the fixes. -/
def fillFixes (fixes : List RelocationFix) (t : List (Piece LabelType U8)) :
    List (Piece LabelType U8) :=
  t.map fun p => p.fillAll (fixes.map RelocationFix.fill)

section Filled

variable {fixes : List RelocationFix} (hnodup : (fixes.map RelocationFix.label).Nodup)

include hnodup

/-- A fix fills the piece with its label. -/
theorem fillAll_fix {label : LabelType} {w : Nat} {value : BitVec w}
    (h : ⟨label, w, value⟩ ∈ fixes) (old : ByteVec) :
    (Piece.mk (some label) old).fillAll (fixes.map RelocationFix.fill) =
      ⟨some label, bytes (w / 8) value.toNat⟩ := by
  have hfill : RelocationFix.fill ⟨label, w, value⟩ = (label, bytes (w / 8) value.toNat) :=
    congrArg (Prod.mk label) (RelocationFix.bytes_eq _)
  apply Piece.fillAll_of_mem
  · rwa [List.map_map]
  · rw [← hfill]
    exact List.mem_map_of_mem h

/-- The fixes fill the three open fields of the file header. -/
theorem fill_headerPieces (hdr : ElfHeader) {s : Fin n} (h : headerFixes s ⊆ fixes) :
    render (fillFixes fixes (headerPieces hdr)) =
      hdr.eIdent.toList ++ (fixedElfHeader hdr s).toElf.bytes := by
  -- Each of the three fixes fills the piece with its label, and the other pieces stay.
  simp only [headerFixes, List.cons_subset] at h
  obtain ⟨hshnum, hshoff, hshstrndx, -⟩ := h
  simp only [fillFixes, headerPieces, List.map_cons, List.map_nil, Piece.fillAll_none,
    fillAll_fix hnodup hshoff, fillAll_fix hnodup hshnum, fillAll_fix hnodup hshstrndx,
    render_cons, render_nil, List.append_nil]
  simp only [Elf64.FileHeader.bytes, Elf64.FileHeader.fields, recordBytes, ElfHeader.toElf,
    fixedElfHeader, List.map_cons, List.map_nil, List.flatten_cons, List.flatten_nil,
    List.append_nil]

/-- The fixes of a section fill the three open fields of its header. -/
theorem fill_sectionPieces (sec : Section) {name size offset : Nat}
    (h : sectionFixes sec.type name size offset ⊆ fixes) :
    render (fillFixes fixes (sectionPieces sec)) =
      (fixedHeader sec.header name size offset).toElf.bytes := by
  -- The same for the name, the size and the offset of a section.
  simp only [sectionFixes, List.cons_subset] at h
  obtain ⟨hname, hsize, hoffset, -⟩ := h
  simp only [fillFixes, sectionPieces, List.map_cons, List.map_nil, Piece.fillAll_none,
    fillAll_fix hnodup hname, fillAll_fix hnodup hoffset, fillAll_fix hnodup hsize,
    render_cons, render_nil, List.append_nil]
  simp only [Elf64.SectionHeader.bytes, Elf64.SectionHeader.fields, recordBytes,
    SectionHeader.toElf, fixedHeader, List.map_cons, List.map_nil, List.flatten_cons,
    List.flatten_nil, List.append_nil]

/-- The filled template is the file header, the section headers and the bodies. -/
theorem fill_filePieces (hdr : ElfHeader) {s : Fin n} (hhdr : headerFixes s ⊆ fixes)
    (table : Vector Section n) {name size offset : Fin n → Nat}
    (hsecs : ∀ i : Fin n, sectionFixes (table.get i).type (name i) (size i) (offset i) ⊆ fixes)
    (bodies : ByteVec) :
    render (fillFixes fixes (filePieces hdr table.toList bodies)) =
      headersFirst (fixedElfHeader hdr s)
        ((List.finRange n).map fun i =>
          fixedHeader (table.get i).header (name i) (size i) (offset i)) bodies := by
  -- Section by section, by index.
  have hheaders : render (fillFixes fixes (table.toList.map sectionPieces).flatten) =
      ((List.finRange n).map fun i =>
        (fixedHeader (table.get i).header (name i) (size i) (offset i)).toElf.bytes).flatten := by
    rw [fillFixes, List.map_flatten, render_flatten, toList_eq, List.map_map, List.map_map,
      List.map_map]
    congr 1
    exact List.map_congr_left fun i _ => fill_sectionPieces hnodup (table.get i) (hsecs i)
  have happend : ∀ t u, fillFixes fixes (t ++ u) = fillFixes fixes t ++ fillFixes fixes u :=
    fun t u => List.map_append
  have hbodies : fillFixes fixes [⟨none, bodies⟩] = [⟨none, bodies⟩] := by
    rw [fillFixes, List.map_singleton, Piece.fillAll_none]
  rw [filePieces, happend, happend, render_append, render_append,
    fill_headerPieces hnodup hdr hhdr, hheaders, hbodies, headersFirst, List.map_map,
    List.append_assoc]
  simp
  rfl

end Filled

/-- The fixes fill all fields that were written before their values were known. -/
theorem dumpTo_written {hdr : ElfHeader} {table : Vector Section n} {s : Fin n}
    {acc : Serializer × Vector Section n}
    (htypes : Function.Injective fun i : Fin n => (table.get i).type)
    (hs : (table.get s).type = .sectionHeaderStringTable)
    (hw : Written (withHeaders (({} : Serializer) <<< hdr) table s) table s (bodyOrder table s) acc)
    (hlen : 64 + 64 * n +
      ((bodyOrder table s).map fun i => (acc.2.get i).body).flatten.length < 2 ^ 64) :
    ∃ nameOffset offset : Fin n → Nat,
      acc.1.dumpTo = .ok (headersFirst (fixedElfHeader hdr s)
        ((List.finRange n).map fun i => fixedHeader (table.get i).header (nameOffset i)
          (acc.2.get i).body.length (64 + 64 * n + offset i))
        ((bodyOrder table s).map fun i => (acc.2.get i).body).flatten) ∧
      ∀ i, IsAt (acc.2.get s).body (nameOffset i) (table.get i).name ∧
        IsAt ((bodyOrder table s).map fun i => (acc.2.get i).body).flatten (offset i)
          (acc.2.get i).body := by
  have hser₀ := built_withHeaders hdr table s
  -- Every section was written, so each has a name and a body at known places.
  have hall : ∀ i, i ∈ bodyOrder table s := fun i =>
    (bodyOrder_perm htypes hs).mem_iff.mpr (List.mem_finRange i)
  choose nameOffset offset hfixes hname hbody using fun i => hw.placed i (hall i)
  refine ⟨nameOffset, offset, ?_, fun i => ⟨hname i, hbody i⟩⟩
  generalize hbodies : ((bodyOrder table s).map fun i => (acc.2.get i).body).flatten = bodies at *
  -- The bodies are one more piece behind the headers, with no relocation among them.
  have hbuilt : Built acc.1 (filePieces hdr table.toList bodies) acc.1.relocationFixes := by
    apply hser₀.stream bodies _ hw.relocations rfl
    rw [← hbodies]
    exact hw.out
  -- What is left of `dumpTo_built` is that the fixes and the fields belong together.
  have hfit : ∀ fix ∈ acc.1.relocationFixes, fix.Fits := by
    apply hw.widths
    rw [hser₀.relocationFixes]
    simp [headerFixes, RelocationFix.Fits, RelocationFix.bytes_eq, labelWidth]
  have hlen' : (render (filePieces hdr table.toList bodies)).length < 2 ^ 64 := by
    rwa [length_filePieces, Vector.length_toList]
  have hlabels : (labels (filePieces hdr table.toList bodies)).Nodup := by
    rw [labels_filePieces]
    exact nodup_labels (by decide) (nodup_types htypes) (by decide)
  -- What was filled in gives the headers of the file.
  have hout : (withHeaders (({} : Serializer) <<< hdr) table s).out.length = 64 + 64 * n := by
    rw [hser₀.out, length_headers, Vector.length_toList]
  rw [hout] at hfixes
  rw [dumpTo_built hbuilt hlen' hlabels (widthsFit_filePieces _ _ _)
    (mem_labels_of_fixes htypes hs hser₀.relocationFixes hw hdr bodies) hfit]
  exact congrArg Except.ok (fill_filePieces (nodup_fixes htypes hs hser₀.relocationFixes hw) hdr
    (hser₀.relocationFixes ▸ hw.fixes) table hfixes bodies)

/-! ## Relocated headers -/

/-- What a reader finds in the file of a file header and a section table with the string table
    `s`, when the table has become `table'`. -/
structure Relocated (hdr : ElfHeader) (table table' : Vector Section n) (s : Fin n)
    (file : ByteVec) : Prop where
  /-- The names are appended to the string table. -/
  strtab : (table'.get s).body =
    (table.get s).body ++ ((bodyOrder table s).map fun i => (table.get i).name).flatten
  bodies : ∀ i ≠ s, (table'.get i).body = (table.get i).body
  ident : file.take 16 = hdr.eIdent.toList
  header : Elf64.readFileHeader file =
    some { hdr.toElf with shoff := 64, shnum := n, shstrndx := s }
  /-- Every section header cuts out its body and leads to its name. -/
  sections : ∀ i : Fin n, ∃ name offset text,
    Elf64.readSectionHeader file (64 + 64 * i) =
      some { (table.get i).header.toElf with name, offset, size := (table'.get i).body.length } ∧
    slice file offset (table'.get i).body.length = some (table'.get i).body ∧
    (table.get i).name = Elf64.terminated text ∧ Elf64.cString (table'.get s).body name = some text

section Lengths

variable {table : Vector Section n} {s : Fin n}
  (htypes : Function.Injective fun i : Fin n => (table.get i).type)
  (hs : (table.get s).type = .sectionHeaderStringTable)

include htypes hs

/-- A sum over the sections may be taken in the order in which their bodies are written. -/
theorem sum_bodyOrder (f : Section → Nat) :
    ((bodyOrder table s).map fun i => f (table.get i)).sum = (table.toList.map f).sum := by
  rw [toList_eq, List.map_map]
  exact ((bodyOrder_perm htypes hs).map _).sum_nat

/-- The names are as long as those of the table. -/
theorem length_names : ((bodyOrder table s).map fun i => (table.get i).name).flatten.length =
    (table.toList.map fun sec => sec.name.length).sum := by
  rw [List.length_flatten, List.map_map]
  exact sum_bodyOrder htypes hs fun sec => sec.name.length

end Lengths

section Written

variable {ser₀ : Serializer} {table : Vector Section n} {s : Fin n}
  {acc : Serializer × Vector Section n} (hw : Written ser₀ table s (bodyOrder table s) acc)

include hw

/-- The string table has got the names of all sections. -/
theorem strtab_written : (acc.2.get s).body =
    (table.get s).body ++ ((bodyOrder table s).map fun i => (table.get i).name).flatten := by
  rw [hw.table, withNames_self]

/-- The bodies of the other sections stay as they are. -/
theorem bodies_written {i : Fin n} (hi : i ≠ s) : (acc.2.get i).body = (table.get i).body := by
  rw [hw.table, withNames_ne _ _ _ hi]

/-- The bodies grow by the names. -/
theorem length_bodies (htypes : Function.Injective fun i : Fin n => (table.get i).type)
    (hs : (table.get s).type = .sectionHeaderStringTable) :
    ((bodyOrder table s).map fun i => (acc.2.get i).body).flatten.length =
    (table.toList.map fun sec => sec.body.length + sec.name.length).sum := by
  have hnames : ((bodyOrder table s).map fun i => (table.get i).name).flatten.length =
      ((bodyOrder table s).map fun i => (table.get i).name.length).sum := by
    rw [List.length_flatten, List.map_map]
    rfl
  -- The string table grows by the names, and the others keep their lengths.
  have hlast : (acc.2.get s).body.length = (table.get s).body.length +
      ((bodyOrder table s).map fun i => (table.get i).name.length).sum := by
    rw [strtab_written hw, List.length_append, hnames]
  have hothers : ∀ i ∈ others table,
      (acc.2.get i).body.length = (table.get i).body.length := by
    intro i hi
    have hne : i ≠ s := fun heq => type_of_mem_others hi (heq ▸ hs)
    rw [bodies_written hw hne]
  have hbodies : ((bodyOrder table s).map fun i => (acc.2.get i).body).flatten.length =
      ((bodyOrder table s).map fun i => (acc.2.get i).body.length).sum := by
    rw [List.length_flatten, List.map_map]
    rfl
  -- Only the last body, the string table, has become longer.
  have hsplit : ∀ f : Fin n → Nat, ((bodyOrder table s).map f).sum =
      ((others table).map f).sum + f s := by
    intro f
    rw [bodyOrder, List.map_append, List.sum_append, List.map_singleton, List.sum_singleton]
  rw [hbodies, hsplit, List.map_congr_left hothers, hlast, ← Nat.add_assoc,
    ← hsplit fun i => (table.get i).body.length, ← List.sum_map_add]
  exact sum_bodyOrder htypes hs fun sec => sec.body.length + sec.name.length

end Written

/-- Whatever the file header and the section table are: when the section types are distinct,
    section `s` is the string table and the names are terminated strings, the fixes relocate all
    headers, as long as the string table stays below `2 ^ 32` bytes and the output below
    `2 ^ 64`. -/
theorem relocated_serializeTable (hdr : ElfHeader) (table : Vector Section n) (s : Fin n)
    (htypes : Function.Injective fun i : Fin n => (table.get i).type)
    (hs : (table.get s).type = .sectionHeaderStringTable)
    (hnames : ∀ i : Fin n, ∃ text, 0 ∉ text ∧ (table.get i).name = Elf64.terminated text)
    (hstrtab : (table.get s).body.length +
      (table.toList.map fun sec => sec.name.length).sum < 2 ^ 32)
    (hout : 64 + 64 * n +
      (table.toList.map fun sec => sec.body.length + sec.name.length).sum < 2 ^ 64) :
    ∃ ser table' file, (({} : Serializer) <<< hdr).serializeTable table = .ok (ser, table') ∧
      ser.dumpTo = .ok file ∧ Relocated hdr table table' s file := by
  obtain ⟨⟨ser, table'⟩, hser, hw⟩ :=
    serializeTable_written (({} : Serializer) <<< hdr) htypes hs
  have hlen := length_bodies hw htypes hs
  obtain ⟨nameOffset, offset, hdump, hplaced⟩ := dumpTo_written htypes hs hw (by omega)
  refine ⟨ser, table', _, hser, hdump, ?_⟩
  -- The number of sections fits the 16 bits of `e_shnum`.
  have hn := length_le_of_injective htypes
  generalize ((bodyOrder table s).map fun i => (table'.get i).body).flatten = bodies at *
  obtain ⟨secs, hsecs⟩ : ∃ secs, ((List.finRange n).map fun i => fixedHeader (table.get i).header
    (nameOffset i) (table'.get i).body.length (64 + 64 * n + offset i)) = secs := ⟨_, rfl⟩
  rw [hsecs]
  constructor
  case strtab => exact strtab_written hw
  case bodies => exact fun i hi => bodies_written hw hi
  case ident => exact take_headersFirst _ _ _
  case header =>
    rw [readFileHeader_headersFirst, toElf_fixedElfHeader hdr (by omega)]
  case sections =>
    intro i
    obtain ⟨hname, hbody⟩ : IsAt (table'.get s).body (nameOffset i) (table.get i).name ∧
      IsAt bodies (offset i) (table'.get i).body := hplaced i
    obtain ⟨text, htext, hterm⟩ := hnames i
    have hget : secs[i.val]? = some (fixedHeader (table.get i).header (nameOffset i)
        (table'.get i).body.length (64 + 64 * n + offset i)) := by
      rw [← hsecs]
      simp
    have hlength : secs.length = n := by rw [← hsecs, List.length_map, List.length_finRange]
    -- All values fit the fields that they are stored in.
    have hnamele := hname.le
    rw [strtab_written hw, List.length_append, length_names htypes hs] at hnamele
    have hbodyle := hbody.le
    rw [hlen] at hbodyle
    have hslice := (isAt_headersFirst (fixedElfHeader hdr s) secs hbody).slice
    rw [hlength] at hslice
    refine ⟨nameOffset i, 64 + 64 * n + offset i, text, ?_, hslice, hterm,
      Elf64.cString_of_isAt (hterm ▸ hname) htext⟩
    rw [readSectionHeader_headersFirst _ _ hget,
      toElf_fixedHeader _ (by omega) (by omega) (by omega)]

/-- A table of three sections, as the program builds it. -/
def threeSections : Vector Section 3 := #v[
  { name := str "\x00", type := .null },
  { name := str ".shstrtab\x00", header := { shType := 3, shAddralign := 1 },
    type := .sectionHeaderStringTable },
  { name := str ".text\x00", header := { shType := 1, shAddralign := 1 },
    body := [0x48, 0xc7, 0xc0, 0x7b, 0x00, 0x00, 0x00, 0xc3], type := .text }]

/-- The headers of the three sections are relocated. -/
theorem relocated_threeSections :
    ∃ ser table' file,
      (({} : Serializer) <<< newElfHeader).serializeTable threeSections = .ok (ser, table') ∧
        ser.dumpTo = .ok file ∧ Relocated newElfHeader threeSections table' 1 file :=
  relocated_serializeTable newElfHeader threeSections 1 (by unfold Function.Injective; decide) rfl
    (fun i => ⟨(threeSections.get i).name.dropLast, by revert i; decide, by revert i; decide⟩)
    (by decide) (by decide)

end Fiskas.MainV2
