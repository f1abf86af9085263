import Fiskas.ForStd.Template
import Fiskas.Native.MainV2
import Fiskas.Spec.SerializerBytes

/-!
# Deferred relocations

The output of the headers-first writer is a template: a header field that is written under a
relocation is a piece with a label, and the relocations are the marks of the template (`Built`).
A fix writes at the first mark with its label, so `dump_to` fills the template.

The section bodies are written with the string table last, because the name of every section
that is written is appended to it. `Written` is the invariant of that loop.

## Key results

- `run_of_patchFirst_run`: what `dump_to` does with the fixes
- `Built.elfHeader`, `Built.serializeHeaders`: what streaming the headers builds
- `serializeTable_written`: what streaming a section table leaves
-/

namespace Fiskas.MainV2

open LittleEndian Slice Template

/-! ## Running the fixes -/

/-- The loop of a fix writes over the output, as long as positions do not wrap around. -/
theorem patch_of_overwrite {out out' bytes : ByteVec} {pos : U64} (hlen : out.length < 2 ^ 64)
    (h : Patch.overwrite out pos.toNat bytes = some out') : patch out pos bytes = .ok out' := by
  induction bytes generalizing out pos with
  | nil => rw [patch, Option.some.inj h]
  | cons byte bytes ih =>
    rw [Patch.overwrite] at h
    split at h
    · next hlt =>
      -- The position stays below the length of the output, so it does not wrap around.
      have hnext : (pos + 1).toNat = pos.toNat + 1 := by
        rw [BitVec.toNat_add]
        exact Nat.mod_eq_of_lt (show pos.toNat + 1 < 2 ^ 64 by omega)
      rw [patch, ByteVec.store, if_pos hlt]
      apply ih
      · rwa [List.length_set]
      · rwa [hnext]
    · cases h

/-- The relocation that a mark of a template stands for. -/
def relocationAt (m : Nat × LabelType) : Relocation := ⟨BitVec.ofNat 64 m.1, m.2⟩

/-- What a fix fills in. -/
def RelocationFix.fill (fix : RelocationFix) : LabelType × ByteVec := (fix.label, fix.bytes)

/-- A fix writes at the first mark with its label. -/
theorem run_of_patchFirst {fix : RelocationFix} {ms : List (Nat × LabelType)}
    {out out' : ByteVec} (hlen : out.length < 2 ^ 64) (hms : ∀ m ∈ ms, m.1 < 2 ^ 64)
    (h : patchFirst ms out fix.fill = some out') :
    fix.run (ms.map relocationAt) out = .ok out' := by
  obtain ⟨m, hfind, hwrite⟩ := Option.bind_eq_some_iff.mp h
  -- The relocation that is found is that of the mark that the template finds.
  have hreloc : (ms.map relocationAt).find? (fun reloc => reloc.label = fix.label) =
      some (relocationAt m) := by
    rw [List.find?_map]
    exact congrArg (Option.map relocationAt) hfind
  -- Its position fits the 64 bits that it is stored in.
  have hpos : (relocationAt m).offset.toNat = m.1 := by
    rw [relocationAt, BitVec.toNat_ofNat]
    exact Nat.mod_eq_of_lt (hms m (List.mem_of_find?_eq_some hfind))
  rw [RelocationFix.run, hreloc]
  apply patch_of_overwrite hlen
  rwa [hpos]

/-- `dump_to` writes at the first marks with the labels of the fixes, one after the other. -/
theorem run_of_patchFirst_run {fixes : List RelocationFix} {ms : List (Nat × LabelType)}
    {out file : ByteVec} (hlen : out.length < 2 ^ 64) (hms : ∀ m ∈ ms, m.1 < 2 ^ 64)
    (h : (fixes.map RelocationFix.fill).foldlM (patchFirst ms) out = some file) :
    fixes.foldlM (fun out fix => fix.run (ms.map relocationAt) out) out = .ok file := by
  induction fixes generalizing out with
  | nil => exact congrArg Except.ok (Option.some.inj h)
  | cons fix fixes ih =>
    rw [List.map_cons, List.foldlM_cons] at h
    obtain ⟨out', hfirst, hrest⟩ := Option.bind_eq_some_iff.mp h
    -- A fix keeps the length, so the bounds hold for the fixes behind it.
    have hlen' : out'.length = out.length := by
      obtain ⟨m, -, hwrite⟩ := Option.bind_eq_some_iff.mp hfirst
      exact Patch.length_overwrite hwrite
    rw [List.foldlM_cons, run_of_patchFirst hlen hms hfirst]
    exact ih (by rwa [hlen']) hrest

/-! ## Output as a template -/

/-- The output of the serializer is the content of a template, its relocations are the marks, and
    it has recorded the fixes. -/
structure Built (ser : Serializer) (t : List (Piece LabelType U8)) (fixes : List RelocationFix) :
    Prop where
  out : ser.out = render t
  relocations : ser.relocations = (marks 0 t).map relocationAt
  relocationFixes : ser.relocationFixes = fixes

namespace Built

variable {ser : Serializer} {t : List (Piece LabelType U8)} {fixes : List RelocationFix}

/-- A fresh serializer has streamed nothing. -/
theorem empty : Built {} [] [] := ⟨rfl, rfl, rfl⟩

/-- Streaming appends a piece without a label. -/
theorem stream (h : Built ser t fixes) {ser' : Serializer} {fixes' : List RelocationFix}
    (content : ByteVec) (hout : ser'.out = ser.out ++ content)
    (hrel : ser'.relocations = ser.relocations) (hfix : ser'.relocationFixes = fixes') :
    Built ser' (t ++ [⟨none, content⟩]) fixes' where
  out := by rw [hout, h.out, render_append, render_cons, render_nil, List.append_nil]
  relocations := by
    rw [hrel, h.relocations, marks_append]
    exact congrArg (List.map relocationAt) (List.append_nil _).symm
  relocationFixes := hfix

/-- An unsigned integer is a piece of its little-endian bytes. -/
theorem unsigned (h : Built ser t fixes) {w : Nat} (value : BitVec w) :
    Built (ser <<< value) (t ++ [⟨none, bytes (w / 8) value.toNat⟩]) fixes :=
  h.stream _ (Fiskas.Serializer.out_unsigned ⟨ser.out⟩ value) rfl h.relocationFixes

/-- Behind a relocation the integer is a piece with the label. -/
theorem labelled (h : Built ser t fixes) (l : LabelType) {w : Nat} (value : BitVec w) :
    Built (ser.pushRelocation l <<< value) (t ++ [⟨some l, bytes (w / 8) value.toNat⟩]) fixes where
  out := by
    have hout : (ser.pushRelocation l <<< value).out = ser.out ++ bytes (w / 8) value.toNat :=
      Fiskas.Serializer.out_unsigned ⟨ser.out⟩ value
    rw [hout, h.out, render_append, render_cons, render_nil, List.append_nil]
  relocations := by
    have hrel : (ser.pushRelocation l <<< value).relocations =
        ser.relocations ++ [relocationAt (ser.out.length, l)] := rfl
    rw [hrel, h.relocations, h.out, marks_append, List.map_append, Nat.zero_add]
    rfl
  relocationFixes := h.relocationFixes

/-- Recording a fix does not touch the output. -/
theorem fixRelocation (h : Built ser t fixes) (l : LabelType) {w : Nat} (value : BitVec w) :
    Built (ser.fixRelocation l value) t (fixes ++ [⟨l, w, value⟩]) where
  out := h.out
  relocations := h.relocations
  relocationFixes := by
    rw [← h.relocationFixes]
    rfl

end Built

/-- The pieces of a file header. -/
def headerPieces (h : ElfHeader) : List (Piece LabelType U8) := [
  ⟨none, h.eIdent.toList⟩,
  ⟨none, bytes 2 h.eType.toNat⟩,
  ⟨none, bytes 2 h.eMachine.toNat⟩,
  ⟨none, bytes 4 h.eVersion.toNat⟩,
  ⟨none, bytes 8 h.eEntry.toNat⟩,
  ⟨none, bytes 8 h.ePhoff.toNat⟩,
  ⟨some (.ofElfHeader .sectionHeaderTableOffset), bytes 8 h.eShoff.toNat⟩,
  ⟨none, bytes 4 h.eFlags.toNat⟩,
  ⟨none, bytes 2 h.eEhsize.toNat⟩,
  ⟨none, bytes 2 h.ePhentsize.toNat⟩,
  ⟨none, bytes 2 h.ePhnum.toNat⟩,
  ⟨none, bytes 2 h.eShentsize.toNat⟩,
  ⟨some (.ofElfHeader .numberOfSectionHeaders), bytes 2 h.eShnum.toNat⟩,
  ⟨some (.ofElfHeader .sectionHeaderStringTableIdx), bytes 2 h.eShstrndx.toNat⟩]

/-- The pieces of a section header. -/
def sectionPieces (sec : Section) : List (Piece LabelType U8) := [
  ⟨some (.ofSection ⟨sec.type, .sectionName⟩), bytes 4 sec.header.shName.toNat⟩,
  ⟨none, bytes 4 sec.header.shType.toNat⟩,
  ⟨none, bytes 8 sec.header.shFlags.toNat⟩,
  ⟨none, bytes 8 sec.header.shAddr.toNat⟩,
  ⟨some (.ofSection ⟨sec.type, .sectionOffset⟩), bytes 8 sec.header.shOffset.toNat⟩,
  ⟨some (.ofSection ⟨sec.type, .sectionSize⟩), bytes 8 sec.header.shSize.toNat⟩,
  ⟨none, bytes 4 sec.header.shLink.toNat⟩,
  ⟨none, bytes 4 sec.header.shInfo.toNat⟩,
  ⟨none, bytes 8 sec.header.shAddralign.toNat⟩,
  ⟨none, bytes 8 sec.header.shEntsize.toNat⟩]

namespace Built

variable {ser : Serializer} {t : List (Piece LabelType U8)} {fixes : List RelocationFix}

/-- A file header is streamed as its pieces, with a relocation in front of the three fields that
    are fixed later. -/
theorem elfHeader (h : Built ser t fixes) (hdr : ElfHeader) :
    Built (ser <<< hdr) (t ++ headerPieces hdr) fixes := by
  -- Field by field: `labelled` where the source records a relocation in front of the field,
  -- `unsigned` where it does not.
  have hident : Built (ser <<< hdr.eIdent) (t ++ [⟨none, hdr.eIdent.toList⟩]) fixes :=
    h.stream _ rfl rfl h.relocationFixes
  have hphoff := ((((hident.unsigned hdr.eType).unsigned hdr.eMachine).unsigned
    hdr.eVersion).unsigned hdr.eEntry).unsigned hdr.ePhoff
  have hshoff := hphoff.labelled (.ofElfHeader .sectionHeaderTableOffset) hdr.eShoff
  have hshentsize := ((((hshoff.unsigned hdr.eFlags).unsigned hdr.eEhsize).unsigned
    hdr.ePhentsize).unsigned hdr.ePhnum).unsigned hdr.eShentsize
  have hshnum := hshentsize.labelled (.ofElfHeader .numberOfSectionHeaders) hdr.eShnum
  have hshstrndx := hshnum.labelled (.ofElfHeader .sectionHeaderStringTableIdx) hdr.eShstrndx
  simp only [List.append_assoc, List.cons_append, List.nil_append] at hshstrndx
  exact hshstrndx

/-- A section header is streamed as its pieces, with a relocation in front of its name, its
    offset and its size. -/
theorem serializeHeader (h : Built ser t fixes) (sec : Section) :
    Built (ser.serializeHeader sec) (t ++ sectionPieces sec) fixes := by
  have hname := h.labelled (.ofSection ⟨sec.type, .sectionName⟩) sec.header.shName
  have haddr := ((hname.unsigned sec.header.shType).unsigned sec.header.shFlags).unsigned
    sec.header.shAddr
  have hoffset := haddr.labelled (.ofSection ⟨sec.type, .sectionOffset⟩) sec.header.shOffset
  have hsize := hoffset.labelled (.ofSection ⟨sec.type, .sectionSize⟩) sec.header.shSize
  have hentsize := (((hsize.unsigned sec.header.shLink).unsigned sec.header.shInfo).unsigned
    sec.header.shAddralign).unsigned sec.header.shEntsize
  simp only [List.append_assoc, List.cons_append, List.nil_append] at hentsize
  exact hentsize

/-- The section headers are appended one behind the other. -/
theorem serializeHeaders (h : Built ser t fixes) (secs : List Section) :
    Built (secs.foldl Serializer.serializeHeader ser) (t ++ (secs.map sectionPieces).flatten)
      fixes := by
  induction secs generalizing ser t with
  | nil =>
    rw [List.map_nil, List.flatten_nil, List.append_nil]
    exact h
  | cons sec secs ih =>
    rw [List.foldl_cons, List.map_cons, List.flatten_cons, ← List.append_assoc]
    exact ih (h.serializeHeader sec)

end Built

/-! ## Section bodies -/

/-- The width of the field with a label. -/
def labelWidth : LabelType → Nat
  | .ofElfHeader .sectionHeaderTableOffset => 8
  | .ofElfHeader _ => 2
  | .ofSection ⟨_, .sectionName⟩ => 4
  | .ofSection _ => 8

/-- The value of a fix has the width of the field with its label. -/
def RelocationFix.Fits (fix : RelocationFix) : Prop := fix.bytes.length = labelWidth fix.label

/-- The bytes of a fix are the little-endian bytes of its value. -/
theorem RelocationFix.bytes_eq (fix : RelocationFix) :
    fix.bytes = LittleEndian.bytes (fix.width / 8) fix.value.toNat :=
  Fiskas.Serializer.out_unsigned {} fix.value

/-- The labels of a section, in the order in which they are fixed. -/
def sectionLabels (ty : SectionType) : List LabelType :=
  [.sectionName, .sectionSize, .sectionOffset].map fun l => .ofSection ⟨ty, l⟩

/-- The fixes of a section. -/
def sectionFixes (ty : SectionType) (nameOffset size offset : Nat) : List RelocationFix := [
  ⟨.ofSection ⟨ty, .sectionName⟩, 32, BitVec.ofNat 32 nameOffset⟩,
  ⟨.ofSection ⟨ty, .sectionSize⟩, 64, BitVec.ofNat 64 size⟩,
  ⟨.ofSection ⟨ty, .sectionOffset⟩, 64, BitVec.ofNat 64 offset⟩]

/-- The fixes of a section are as wide as its fields. -/
theorem fits_sectionFixes (ty : SectionType) (nameOffset size offset : Nat) :
    ∀ fix ∈ sectionFixes ty nameOffset size offset, fix.Fits := by
  simp [sectionFixes, RelocationFix.Fits, RelocationFix.bytes_eq, labelWidth]

variable {n : Nat}

/-- The table with more bytes at the end of the body of section `s`. -/
def withNames (table : Vector Section n) (s : Fin n) (names : ByteVec) : Vector Section n :=
  table.set s { table.get s with body := (table.get s).body ++ names } s.isLt

section withNames

variable (table : Vector Section n) (s : Fin n) (names : ByteVec)

/-- Section `s` gets the names. -/
theorem withNames_self : (withNames table s names).get s =
    { table.get s with body := (table.get s).body ++ names } :=
  Vector.getElem_set_self s.isLt

/-- All other sections stay as they are. -/
theorem withNames_ne {i : Fin n} (h : i ≠ s) :
    (withNames table s names).get i = table.get i :=
  Vector.getElem_set_ne s.isLt i.isLt fun heq => h (Fin.ext heq.symm)

/-- Appending to a body changes no name. -/
@[simp] theorem name_withNames (i : Fin n) :
    ((withNames table s names).get i).name = (table.get i).name := by
  by_cases h : i = s
  · rw [h, withNames_self]
  · rw [withNames_ne table s names h]

/-- Appending to a body changes no type. -/
@[simp] theorem type_withNames (i : Fin n) :
    ((withNames table s names).get i).type = (table.get i).type := by
  by_cases h : i = s
  · rw [h, withNames_self]
  · rw [withNames_ne table s names h]

/-- No names change nothing. -/
@[simp] theorem withNames_nil : withNames table s [] = table := by
  rw [withNames, List.append_nil]
  exact Vector.set_getElem_self s.isLt

/-- Names that are appended twice stand one behind the other. -/
theorem withNames_withNames (more : ByteVec) :
    withNames (withNames table s names) s more = withNames table s (names ++ more) := by
  rw [withNames, withNames_self, withNames, Vector.set_set, withNames, ← List.append_assoc]

end withNames

/-- What one call of `serialize_section` does. -/
theorem serializeSection_eq {s : Fin n} {table table' : Vector Section n} {i : Fin n}
    (htable' : withNames table s (table.get i).name = table') (ser : Serializer) :
    Serializer.serializeSection s (ser, table) i =
      ({ out := ser.out ++ (table'.get i).body
         relocations := ser.relocations
         relocationFixes := ser.relocationFixes ++
          sectionFixes (table.get i).type (table.get s).body.length (table'.get i).body.length
            ser.out.length },
        table') := by
  subst htable'
  have htype := type_withNames table s (table.get i).name i
  -- Cutting the size off to 64 bits first makes no difference.
  have hname : (ByteVec.size (table.get s).body).setWidth 32 =
      BitVec.ofNat 32 (table.get s).body.length :=
    BitVec.setWidth_ofNat_of_le (by decide) _
  -- The section is read from the table that has its name in the string table already. That
  -- changed no type, and its own body only when it is the string table.
  have hdef : Serializer.serializeSection s (ser, table) i =
      ({ out := ser.out ++ ((withNames table s (table.get i).name).get i).body
         relocations := ser.relocations
         relocationFixes := ser.relocationFixes ++
          [⟨.ofSection ⟨((withNames table s (table.get i).name).get i).type, .sectionName⟩, 32,
            (ByteVec.size (table.get s).body).setWidth 32⟩] ++
          [⟨.ofSection ⟨((withNames table s (table.get i).name).get i).type, .sectionSize⟩, 64,
            ByteVec.size ((withNames table s (table.get i).name).get i).body⟩] ++
          [⟨.ofSection ⟨((withNames table s (table.get i).name).get i).type, .sectionOffset⟩, 64,
            ByteVec.size ser.out⟩] },
        withNames table s (table.get i).name) := rfl
  rw [hdef, htype, hname, List.append_assoc, List.append_assoc]
  rfl

/-- The sections `done` are written behind the output of `ser₀`, with their fixes, and their names
    stand in section `s`. -/
structure Written (ser₀ : Serializer) (table₀ : Vector Section n) (s : Fin n) (done : List (Fin n))
    (acc : Serializer × Vector Section n) : Prop where
  table : acc.2 = withNames table₀ s (done.map fun i => (table₀.get i).name).flatten
  out : acc.1.out = ser₀.out ++ (done.map fun i => (acc.2.get i).body).flatten
  relocations : acc.1.relocations = ser₀.relocations
  labels : acc.1.relocationFixes.map RelocationFix.label =
    ser₀.relocationFixes.map RelocationFix.label ++
      done.flatMap fun i => sectionLabels (table₀.get i).type
  fixes : ser₀.relocationFixes ⊆ acc.1.relocationFixes
  widths : (∀ fix ∈ ser₀.relocationFixes, fix.Fits) → ∀ fix ∈ acc.1.relocationFixes, fix.Fits
  placed : ∀ i ∈ done, ∃ nameOffset offset,
    sectionFixes (table₀.get i).type nameOffset (acc.2.get i).body.length
      (ser₀.out.length + offset) ⊆ acc.1.relocationFixes ∧
    IsAt (acc.2.get s).body nameOffset (table₀.get i).name ∧
    IsAt (done.map fun i => (acc.2.get i).body).flatten offset (acc.2.get i).body

/-- Before the loop no section is written. -/
theorem Written.start (ser₀ : Serializer) (table₀ : Vector Section n) (s : Fin n) :
    Written ser₀ table₀ s [] (ser₀, table₀) where
  table := (withNames_nil table₀ s).symm
  out := (List.append_nil _).symm
  relocations := rfl
  labels := (List.append_nil _).symm
  fixes := List.Subset.refl _
  widths := id
  placed := fun _ hi => absurd hi List.not_mem_nil

/-- As long as section `s` itself is not written, another section can be. -/
theorem Written.step {ser₀ : Serializer} {table₀ : Vector Section n} {s : Fin n}
    {done : List (Fin n)} {acc : Serializer × Vector Section n}
    (h : Written ser₀ table₀ s done acc) (hs : s ∉ done) (i : Fin n) :
    Written ser₀ table₀ s (done ++ [i]) (Serializer.serializeSection s acc i) := by
  obtain ⟨ser, table⟩ := acc
  have htable : table = withNames table₀ s (done.map fun i => (table₀.get i).name).flatten :=
    h.table
  have hname : (table.get i).name = (table₀.get i).name := by rw [htable, name_withNames]
  have htype : (table.get i).type = (table₀.get i).type := by rw [htable, type_withNames]
  obtain ⟨table', htable'⟩ : ∃ table', withNames table s (table.get i).name = table' := ⟨_, rfl⟩
  rw [serializeSection_eq htable', htype]
  rw [hname] at htable'
  -- The bodies that are written already stay as they are.
  have hbody : ∀ j ∈ done, (table'.get j).body = (table.get j).body := by
    intro j hj
    rw [← htable', withNames_ne table s _ fun heq => hs (heq ▸ hj)]
  have hbodies : (done.map fun i => (table'.get i).body) = done.map fun i => (table.get i).body :=
    List.map_congr_left hbody
  have hstrtab : (table'.get s).body = (table.get s).body ++ (table₀.get i).name := by
    rw [← htable', withNames_self]
  have hflatten : ((done ++ [i]).map fun i => (table'.get i).body).flatten =
      (done.map fun i => (table.get i).body).flatten ++ (table'.get i).body := by
    rw [List.map_append, List.flatten_append, hbodies, List.map_singleton,
      List.flatten_singleton]
  constructor
  case table =>
    rw [← htable', htable, withNames_withNames, List.map_append, List.flatten_append,
      List.map_singleton, List.flatten_singleton]
  case out =>
    show ser.out ++ (table'.get i).body = _
    rw [hflatten, h.out, List.append_assoc]
  case relocations => exact h.relocations
  case labels =>
    show (ser.relocationFixes ++ _).map _ = _
    rw [List.map_append, h.labels, List.flatMap_append, List.append_assoc]
    simp [sectionFixes, sectionLabels]
  case fixes => exact fun fix hfix => List.mem_append_left _ (h.fixes hfix)
  case widths =>
    intro hser₀ fix hfix
    cases List.mem_append.mp hfix with
    | inl hold => exact h.widths hser₀ fix hold
    | inr hnew => exact fits_sectionFixes _ _ _ _ fix hnew
  case placed =>
    intro j hj
    show ∃ nameOffset offset, _ ⊆ ser.relocationFixes ++ _ ∧ IsAt (table'.get s).body _ _ ∧
      IsAt _ _ (table'.get j).body
    rw [hflatten, hstrtab]
    cases List.mem_append.mp hj with
    | inl hdone =>
      -- A section that was written before: nothing in front of its name or its body has moved.
      obtain ⟨nameOffset, offset, hfixes, hat, hat'⟩ := h.placed j hdone
      rw [hbody j hdone]
      exact ⟨nameOffset, offset, List.subset_append_of_subset_left _ hfixes,
        hat.append_right _, hat'.append_right _⟩
    | inr hlast =>
      obtain rfl := List.mem_singleton.mp hlast
      -- The section of this round: its name and its body stand at the ends.
      refine ⟨(table.get s).body.length, (done.map fun i => (table.get i).body).flatten.length,
        ?_, ?_, ?_⟩
      · have hout : ser.out.length = ser₀.out.length +
            (done.map fun i => (table.get i).body).flatten.length := by
          rw [show ser.out = _ from h.out, List.length_append]
        rw [← hout]
        exact List.subset_append_right _ _
      · exact ⟨(table.get s).body, [], by rw [List.append_nil], rfl⟩
      · exact ⟨_, [], by rw [List.append_nil], rfl⟩

/-! ## The section table -/

/-- The sections that are not of the type of the string table. -/
def others (table : Vector Section n) : List (Fin n) :=
  (List.finRange n).filter fun i => (table.get i).type ≠ .sectionHeaderStringTable

/-- None of the others is a string table. -/
theorem type_of_mem_others {table : Vector Section n} {i : Fin n} (h : i ∈ others table) :
    (table.get i).type ≠ .sectionHeaderStringTable :=
  of_decide_eq_true (List.mem_filter.mp h).2

/-- The order in which the bodies are written: section `s`, the string table, comes last. -/
def bodyOrder (table : Vector Section n) (s : Fin n) : List (Fin n) := others table ++ [s]

section Order

variable {table : Vector Section n} {s : Fin n}
  (htypes : Function.Injective fun i : Fin n => (table.get i).type)
  (hs : (table.get s).type = .sectionHeaderStringTable)

include htypes hs

/-- Section `s` is the only string table. -/
theorem type_eq_iff {i : Fin n} : (table.get i).type = .sectionHeaderStringTable ↔ i = s :=
  ⟨fun h => htypes (h.trans hs.symm), fun h => h ▸ hs⟩

/-- Every section is written once. -/
theorem bodyOrder_perm : (bodyOrder table s).Perm (List.finRange n) := by
  -- The others are all sections but `s`, which is put back at the end.
  have hothers : others table = (List.finRange n).erase s := by
    rw [others, (List.nodup_finRange n).erase_eq_filter]
    apply List.filter_congr
    intro i _
    rw [Bool.eq_iff_iff, decide_eq_true_iff, bne_iff_ne]
    exact not_congr (type_eq_iff htypes hs)
  rw [bodyOrder, hothers]
  exact (List.perm_append_singleton s _).trans
    (List.perm_cons_erase (List.mem_finRange s)).symm

/-- The search finds the string table. -/
theorem find_strtab :
    (List.finRange n).find? (fun i => (table.get i).type = .sectionHeaderStringTable) = some s := by
  cases h : (List.finRange n).find? (fun i => (table.get i).type = .sectionHeaderStringTable) with
  | none =>
    have hnone := List.find?_eq_none.mp h s (List.mem_finRange s)
    exact absurd (decide_eq_true hs) hnone
  | some i =>
    have htype := List.find?_some
      (p := fun i : Fin n => decide ((table.get i).type = .sectionHeaderStringTable)) h
    rw [(type_eq_iff htypes hs).mp (of_decide_eq_true htype)]

end Order

/-- The loop over the section bodies writes all sections but the string table. -/
theorem Written.rounds {ser₀ : Serializer} {table₀ : Vector Section n} {s : Fin n}
    (hs : (table₀.get s).type = .sectionHeaderStringTable) {done : List (Fin n)}
    {acc : Serializer × Vector Section n} (h : Written ser₀ table₀ s done acc) (hdone : s ∉ done)
    (is : List (Fin n)) :
    Written ser₀ table₀ s
      (done ++ is.filter fun i => (table₀.get i).type ≠ .sectionHeaderStringTable)
      (is.foldl (Serializer.serializeSectionRound s) acc) := by
  induction is generalizing done acc with
  | nil =>
    rw [List.filter_nil, List.append_nil]
    exact h
  | cons i is ih =>
    have htype : (acc.2.get i).type = (table₀.get i).type := by rw [h.table, type_withNames]
    rw [List.foldl_cons, Serializer.serializeSectionRound, htype]
    -- The string table is left out, and every other section is one step.
    by_cases hi : (table₀.get i).type = .sectionHeaderStringTable
    · rw [if_pos hi, List.filter_cons_of_neg (by simpa using hi)]
      exact ih h hdone
    · have hne : s ≠ i := fun heq => hi (heq ▸ hs)
      rw [if_neg hi, List.filter_cons_of_pos (by simpa using hi), ← List.singleton_append,
        ← List.append_assoc]
      exact ih (h.step hdone i) (by simp [hdone, hne])

/-- The serializer when the fixes of the file header are recorded and the section headers are
    written. -/
def withHeaders (ser : Serializer) (table : Vector Section n) (s : Fin n) : Serializer :=
  table.toList.foldl Serializer.serializeHeader
    (((ser.fixRelocation (.ofElfHeader .numberOfSectionHeaders) (BitVec.ofNat 16 n)).fixRelocation
      (.ofElfHeader .sectionHeaderTableOffset) (ByteVec.size ser.out)).fixRelocation
      (.ofElfHeader .sectionHeaderStringTableIdx) (BitVec.ofNat 16 s.val))

/-- Streaming a section table writes the headers and then the bodies. -/
theorem serializeTable_written (ser : Serializer) {table : Vector Section n} {s : Fin n}
    (htypes : Function.Injective fun i : Fin n => (table.get i).type)
    (hs : (table.get s).type = .sectionHeaderStringTable) :
    ∃ acc, ser.serializeTable table = .ok acc ∧
      Written (withHeaders ser table s) table s (bodyOrder table s) acc := by
  refine ⟨Serializer.serializeSection s ((List.finRange n).foldl
    (Serializer.serializeSectionRound s) (withHeaders ser table s, table)) s, ?_, ?_⟩
  · rw [Serializer.serializeTable, find_strtab htypes hs]
    rfl
  · have hrounds := (Written.start (withHeaders ser table s) table s).rounds hs
      List.not_mem_nil (List.finRange n)
    rw [List.nil_append] at hrounds
    -- The loop left the string table out, so it can be written last.
    have hnot : s ∉ others table := fun h => type_of_mem_others h hs
    exact hrounds.step hnot s

end Fiskas.MainV2
