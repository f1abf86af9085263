import Fiskas.ForStd.Run
import Fiskas.ForStd.Template
import Fiskas.Native.MainV1
import Fiskas.Spec.SerializerBytes

/-!
# The relocations of the first writer

The output of the first writer is a template. A field that is streamed behind `add_relocation` is
a piece with the name of its relocation, and since the map keeps what was inserted first, its
entries are the marks of the pieces that have a name first (`Built`). The fixes are kept once for
every name, so `dump_to_file` fills these pieces, in whatever order it iterates the fixes.

## Key results

- `Built.elfHeader`, `Built.table`, `Built.stringTable`, `Built.text`: what streaming builds
- `Built.dump`: what `dump_to_file` writes
-/

namespace Fiskas.MainV1

open LittleEndian Template

/-! ## Output as a template -/

/-- The entry of the map of relocations for a mark. -/
def relocationAt (m : Nat × RelocationName) : RelocationName × Relocation := (m.2, ⟨m.1, m.2⟩)

/-- The output of the serializer is the content of a template, and its relocations are the marks
    of the pieces that have a name first. -/
structure Built (ser : Serializer) (t : List (Piece RelocationName U8)) : Prop where
  bytes : ser.bytes = render t
  relocations : ser.relocations.entries = (marks 0 (firsts [] t)).map relocationAt

/-- An unsigned integer is serialized to its little-endian bytes. -/
theorem serialize_eq {w : Nat} (x : BitVec w) :
    serialize x = LittleEndian.bytes (w / 8) x.toNat := by
  rw [serialize, Fiskas.Serializer.pushBytes_eq, List.nil_append]

namespace Built

variable {ser : Serializer} {t : List (Piece RelocationName U8)}

/-- A fresh serializer has streamed nothing. -/
theorem empty : Built {} [] := ⟨rfl, rfl⟩

/-- The names that have a relocation. -/
theorem keys (h : Built ser t) : ser.relocations.keys = labels (firsts [] t) := by
  rw [UnorderedMap.keys, h.relocations, List.map_map, ← map_snd_marks 0]
  rfl

/-- A name has a relocation when some piece has it. -/
theorem mem_keys (h : Built ser t) {l : RelocationName} :
    l ∈ ser.relocations.keys ↔ l ∈ labels t := by
  rw [h.keys, mem_labels_firsts]
  simp

/-- Streaming appends a piece without a name. -/
theorem stream (h : Built ser t) (content : ByteVec) :
    Built (ser <<< content) (t ++ [⟨none, content⟩]) where
  bytes := by
    show ser.bytes ++ content = _
    rw [h.bytes, render_append, render_cons, render_nil, List.append_nil]
  relocations := by
    show ser.relocations.entries = _
    rw [h.relocations, firsts_append, marks_append]
    exact congrArg (List.map relocationAt) (List.append_nil _).symm

/-- Behind `add_relocation` the field is a piece with the name. -/
theorem labelled (h : Built ser t) (l : RelocationName) (content : ByteVec) :
    Built (ser.addRelocation ⟨ser.offset, l⟩ <<< content) (t ++ [⟨some l, content⟩]) where
  bytes := by
    show ser.bytes ++ content = _
    rw [h.bytes, render_append, render_cons, render_nil, List.append_nil]
  relocations := by
    show (ser.relocations.insert l ⟨ser.offset, l⟩).entries = _
    rw [firsts_append, marks_append, List.map_append, ← h.relocations, render_firsts, Nat.zero_add,
      List.nil_append, firsts]
    by_cases hl : l ∈ ser.relocations.keys
    · -- `insert` leaves the relocation that has the name already.
      have hfilter : (some l).filter (fun l => decide (l ∉ labels t)) = none := by
        simp [h.mem_keys.mp hl]
      rw [UnorderedMap.insert_of_mem hl, hfilter]
      exact (List.append_nil _).symm
    · have hfilter : (some l).filter (fun l => decide (l ∉ labels t)) = some l := by
        simp [mt h.mem_keys.mpr hl]
      rw [UnorderedMap.entries_insert_of_not_mem hl, hfilter, Serializer.offset, h.bytes]
      rfl

/-- Recording a fix does not touch the output. -/
theorem fixRelocation (h : Built ser t) {w : Nat} (l : RelocationName) (value : BitVec w) :
    Built (ser.fixRelocation l value) t := ⟨h.bytes, h.relocations⟩

end Built

/-! ## Headers -/

/-- The pieces of a file header. -/
def headerPieces (h : ElfHeader) : List (Piece RelocationName U8) := [
  ⟨none, h.eIdent.toList⟩,
  ⟨none, serialize h.eType⟩,
  ⟨none, serialize h.eMachine⟩,
  ⟨none, serialize h.eVersion⟩,
  ⟨none, serialize h.eEntry⟩,
  ⟨none, serialize h.ePhoff⟩,
  ⟨some .sectionHeaderTableOffset, serialize h.eShoff⟩,
  ⟨none, serialize h.eFlags⟩,
  ⟨none, serialize h.eEhsize⟩,
  ⟨none, serialize h.ePhentsize⟩,
  ⟨none, serialize h.ePhnum⟩,
  ⟨none, serialize h.eShentsize⟩,
  ⟨some .numberOfSectionHeaders, serialize h.eShnum⟩,
  ⟨some .sectionHeaderStringTableIndex, serialize h.eShstrndx⟩]

/-- The pieces of a section header, with the names of three of its fields. -/
def sectionPieces (name offset size : Option RelocationName) (h : SectionHeader) :
    List (Piece RelocationName U8) := [
  ⟨name, serialize h.shName⟩,
  ⟨none, serialize h.shType⟩,
  ⟨none, serialize h.shFlags⟩,
  ⟨none, serialize h.shAddr⟩,
  ⟨offset, serialize h.shOffset⟩,
  ⟨size, serialize h.shSize⟩,
  ⟨none, serialize h.shLink⟩,
  ⟨none, serialize h.shInfo⟩,
  ⟨none, serialize h.shAddralign⟩,
  ⟨none, serialize h.shEntsize⟩]

/-- The pieces of an element of the table. -/
def TaggedHeader.pieces : TaggedHeader → List (Piece RelocationName U8)
  | .sectionHeadersStringTable h => sectionPieces (some .sectionHeadersStringTableName)
      (some .sectionHeadersStringTableOffset) (some .sectionHeadersStringTableSize) h
  | .text h => sectionPieces none (some .textSectionOffset) (some .textSectionSize) h
  | .nullSectionHeader h => sectionPieces none none none h

namespace Built

variable {ser : Serializer} {t : List (Piece RelocationName U8)}

/-- A file header is streamed as its pieces, with a relocation in front of the three fields that
    are fixed later. -/
theorem elfHeader (h : Built ser t) (hdr : ElfHeader) :
    Built (ser <<< hdr) (t ++ headerPieces hdr) := by
  -- Field by field: `labelled` where the source adds a relocation in front of the field, `stream`
  -- where it does not.
  have hphoff := (((((h.stream hdr.eIdent.toList).stream (serialize hdr.eType)).stream
    (serialize hdr.eMachine)).stream (serialize hdr.eVersion)).stream
    (serialize hdr.eEntry)).stream (serialize hdr.ePhoff)
  have hshoff := hphoff.labelled .sectionHeaderTableOffset (serialize hdr.eShoff)
  have hshentsize := ((((hshoff.stream (serialize hdr.eFlags)).stream
    (serialize hdr.eEhsize)).stream (serialize hdr.ePhentsize)).stream
    (serialize hdr.ePhnum)).stream (serialize hdr.eShentsize)
  have hshnum := hshentsize.labelled .numberOfSectionHeaders (serialize hdr.eShnum)
  have hshstrndx := hshnum.labelled .sectionHeaderStringTableIndex (serialize hdr.eShstrndx)
  simp only [List.append_assoc, List.cons_append, List.nil_append] at hshstrndx
  exact hshstrndx

/-- The header of the string table is streamed with three relocations. -/
theorem stringTableHeader (h : Built ser t) (hdr : SectionHeader) :
    Built (ser.streamStringTableHeader hdr)
      (t ++ (TaggedHeader.sectionHeadersStringTable hdr).pieces) := by
  have hname := h.labelled .sectionHeadersStringTableName (serialize hdr.shName)
  have haddr := ((hname.stream (serialize hdr.shType)).stream (serialize hdr.shFlags)).stream
    (serialize hdr.shAddr)
  have hoffset := haddr.labelled .sectionHeadersStringTableOffset (serialize hdr.shOffset)
  have hsize := hoffset.labelled .sectionHeadersStringTableSize (serialize hdr.shSize)
  have hentsize := (((hsize.stream (serialize hdr.shLink)).stream (serialize hdr.shInfo)).stream
    (serialize hdr.shAddralign)).stream (serialize hdr.shEntsize)
  simp only [List.append_assoc, List.cons_append, List.nil_append] at hentsize
  exact hentsize

/-- The header of the text is streamed with two relocations: its name stays as it is. -/
theorem textHeader (h : Built ser t) (hdr : SectionHeader) :
    Built (ser.streamTextHeader hdr) (t ++ (TaggedHeader.text hdr).pieces) := by
  have haddr := (((h.stream (serialize hdr.shName)).stream (serialize hdr.shType)).stream
    (serialize hdr.shFlags)).stream (serialize hdr.shAddr)
  have hoffset := haddr.labelled .textSectionOffset (serialize hdr.shOffset)
  have hsize := hoffset.labelled .textSectionSize (serialize hdr.shSize)
  have hentsize := (((hsize.stream (serialize hdr.shLink)).stream (serialize hdr.shInfo)).stream
    (serialize hdr.shAddralign)).stream (serialize hdr.shEntsize)
  simp only [List.append_assoc, List.cons_append, List.nil_append] at hentsize
  exact hentsize

/-- The null header is streamed without relocations. -/
theorem nullHeader (h : Built ser t) (hdr : SectionHeader) :
    Built (ser.streamNullHeader hdr) (t ++ (TaggedHeader.nullSectionHeader hdr).pieces) := by
  have hsize := (((((h.stream (serialize hdr.shName)).stream (serialize hdr.shType)).stream
    (serialize hdr.shFlags)).stream (serialize hdr.shAddr)).stream
    (serialize hdr.shOffset)).stream (serialize hdr.shSize)
  have hentsize := (((hsize.stream (serialize hdr.shLink)).stream (serialize hdr.shInfo)).stream
    (serialize hdr.shAddralign)).stream (serialize hdr.shEntsize)
  simp only [List.append_assoc, List.cons_append, List.nil_append] at hentsize
  exact hentsize

/-- One round of the loop over the table streams one header. Only the string table records a fix
    in its round, for the index of its header. -/
theorem tableRound (h : Built ser t) (entry : TaggedHeader × Nat) :
    Built (ser.streamTableRound entry) (t ++ entry.1.pieces) := by
  obtain ⟨hdr, idx⟩ := entry
  cases hdr with
  | sectionHeadersStringTable hdr =>
    exact (h.fixRelocation .sectionHeaderStringTableIndex (BitVec.ofNat 16 idx)).stringTableHeader
      hdr
  | text hdr => exact h.textHeader hdr
  | nullSectionHeader hdr => exact h.nullHeader hdr

/-- The headers of the table are appended one behind the other. -/
theorem tableRounds (h : Built ser t) (entries : List (TaggedHeader × Nat)) :
    Built (entries.foldl Serializer.streamTableRound ser)
      (t ++ (entries.map fun entry => entry.1.pieces).flatten) := by
  induction entries generalizing ser t with
  | nil =>
    rw [List.map_nil, List.flatten_nil, List.append_nil]
    exact h
  | cons entry entries ih =>
    rw [List.foldl_cons, List.map_cons, List.flatten_cons, ← List.append_assoc]
    exact ih (h.tableRound entry)

/-- Streaming a table records the fixes of the file header and appends the headers. -/
theorem table (h : Built ser t) (table : SectionHeaderTable) :
    Built (ser <<< table) (t ++ (table.map TaggedHeader.pieces).flatten) := by
  -- The fixes come first, so the offset is that of the first header.
  have hrounds := ((h.fixRelocation .sectionHeaderTableOffset
    (BitVec.ofNat 64 ser.offset)).fixRelocation .numberOfSectionHeaders
    (BitVec.ofNat 16 table.length)).tableRounds table.zipIdx
  have hfst : (table.zipIdx.map fun entry => entry.1.pieces) = table.map TaggedHeader.pieces := by
    rw [← List.zipIdx_map_fst 0 table, List.map_map, List.zipIdx_map_fst]
    rfl
  rw [hfst] at hrounds
  exact hrounds

/-- Streaming the string table adds its own name, records its three fixes and appends its bytes. -/
theorem stringTable (h : Built ser t) (sec : StringTableSection) :
    Built (ser.streamStringTable sec).1
      (t ++ [⟨none, (sec.addString kStringTableSectionName).2.bytes⟩]) := by
  -- The name is added first, so its bytes count for the size.
  have hname := h.fixRelocation .sectionHeadersStringTableName
    (BitVec.ofNat 32 (sec.addString kStringTableSectionName).1)
  have hsize := hname.fixRelocation .sectionHeadersStringTableSize
    (BitVec.ofNat 64 (sec.addString kStringTableSectionName).2.bytes.length)
  have hoffset := hsize.fixRelocation .sectionHeadersStringTableOffset
    (BitVec.ofNat 64 ser.offset)
  exact hoffset.stream _

/-- Streaming the text records its two fixes and appends its bytes. -/
theorem text (h : Built ser t) (sec : TextSection) :
    Built (ser <<< sec) (t ++ [⟨none, sec.bytes⟩]) := by
  have hsize := h.fixRelocation .textSectionSize (BitVec.ofNat 64 sec.bytes.length)
  have hoffset := hsize.fixRelocation .textSectionOffset (BitVec.ofNat 64 ser.offset)
  exact hoffset.stream sec.bytes

end Built

/-! ## Running the fixes -/

/-- The name of the fix has a relocation, and every field with the name is as long as the fix. -/
def Fits (t : List (Piece RelocationName U8)) (fix : RelocationName × ByteVec) : Prop :=
  fix.1 ∈ labels t ∧ SameLength t fix.1 fix.2

/-- The loop of a fix writes over the output. -/
theorem writeFix_of_overwrite {bytes bytes' data : ByteVec} {pos : Nat}
    (h : Patch.overwrite bytes pos data = some bytes') :
    Serializer.writeFix bytes pos data = .ok bytes' := by
  induction data generalizing bytes pos with
  | nil => rw [Serializer.writeFix, Option.some.inj h]
  | cons byte data ih =>
    rw [Patch.overwrite] at h
    split at h
    · next hlt =>
      rw [Serializer.writeFix, ByteVec.store, if_pos hlt]
      exact ih h
    · cases h

namespace Built

variable {ser : Serializer} {t : List (Piece RelocationName U8)}

/-- A fix whose name has a relocation writes at the first mark with the name. -/
theorem fixOne (h : Built ser t) {fix : RelocationName × ByteVec} {bytes bytes' : ByteVec}
    (hmem : fix.1 ∈ labels t)
    (hpatch : patchFirst (marks 0 (firsts [] t)) bytes fix = some bytes') :
    Serializer.fixOne { ser with bytes } fix = .ok { ser with bytes := bytes' } := by
  obtain ⟨m, hfind, hwrite⟩ := Option.bind_eq_some_iff.mp hpatch
  -- The entry of the map is the first mark with the name.
  have hentry : (fix.1, (⟨m.1, m.2⟩ : Relocation)) ∈ ser.relocations.entries := by
    rw [h.relocations]
    have hlabel : m.2 = fix.1 := by simpa using List.find?_some hfind
    exact List.mem_map.mpr ⟨m, List.mem_of_find?_eq_some hfind, by rw [relocationAt, hlabel]⟩
  -- Looking the name up inserts nothing, since it is there.
  have hinsert := UnorderedMap.insert_of_mem (h.mem_keys.mpr hmem) ({} : Relocation)
  rw [Serializer.fixOne, hinsert, UnorderedMap.find_of_mem hentry]
  dsimp only [Option.getD_some]
  rw [writeFix_of_overwrite hwrite]
  rfl

/-- Fixes whose names have relocations write at the first marks, one after the other. -/
theorem fixAll (h : Built ser t) {fixes : List (RelocationName × ByteVec)} {bytes bytes' : ByteVec}
    (hmem : ∀ fix ∈ fixes, fix.1 ∈ labels t)
    (hpatch : fixes.foldlM (patchFirst (marks 0 (firsts [] t))) bytes = some bytes') :
    fixes.foldlM Serializer.fixOne { ser with bytes } = .ok { ser with bytes := bytes' } := by
  induction fixes generalizing bytes with
  | nil =>
    rw [List.foldlM_nil, Option.some.inj hpatch]
    rfl
  | cons fix fixes ih =>
    rw [List.foldlM_cons] at hpatch
    obtain ⟨bytes₁, hfirst, hrest⟩ := Option.bind_eq_some_iff.mp hpatch
    rw [List.foldlM_cons, h.fixOne (hmem fix List.mem_cons_self) hfirst]
    exact ih (fun f hf => hmem f (List.mem_cons_of_mem fix hf)) hrest

/-- When every fix has its relocation, `dump_to_file` fills the fields, in whatever order it
    iterates the fixes. -/
theorem dump (h : Built ser t)
    (hsize : ser.relocationFixes.entries.length = ser.relocations.entries.length)
    (hfits : ∀ fix ∈ ser.relocationFixes.entries, Fits t fix) (order : Serializer.FixOrder ser) :
    ser.dumpToFile order =
      .ok (render ((firsts [] t).map fun p => p.fillAll ser.relocationFixes.entries)) := by
  have hfits' : ∀ fix ∈ order.entries, Fits t fix :=
    fun fix hfix => hfits fix (order.perm.mem_iff.mp hfix)
  -- Each name is the label of one piece, so the fixes fill the template in this order.
  have hrun := patchFirst_run (nodup_labels_firsts [] t)
    (fun fix (hfix : fix ∈ order.entries) =>
      mem_labels_firsts.mpr ⟨(hfits' fix hfix).1, List.not_mem_nil⟩)
    fun fix hfix => (hfits' fix hfix).2.firsts []
  rw [render_firsts, ← h.bytes] at hrun
  have hfixed := h.fixAll (fun fix hfix => (hfits' fix hfix).1) hrun
  -- Every name has one fix, so the order plays no role.
  have hperm : (fun p : Piece RelocationName U8 => p.fillAll order.entries) =
      fun p => p.fillAll ser.relocationFixes.entries :=
    funext fun p => Piece.fillAll_perm order.perm
      ((order.perm.map Prod.fst).nodup_iff.mpr ser.relocationFixes.nodup) p
  rw [Serializer.dumpToFile, Serializer.fixRelocations, if_neg (not_not.mpr hsize), hfixed,
    Except.ok_bind', hperm]
  rfl

/-- When the numbers of fixes and relocations differ, the output is written as it is. -/
theorem dump_skipped
    (hsize : ser.relocationFixes.entries.length ≠ ser.relocations.entries.length)
    (order : Serializer.FixOrder ser) : ser.dumpToFile order = .ok ser.bytes := by
  rw [Serializer.dumpToFile, Serializer.fixRelocations, if_pos hsize]
  rfl

end Built

end Fiskas.MainV1
