import Fiskas.ForStd.Template
import Fiskas.Native.MainV3
import Fiskas.Spec.SerializerBytes

/-!
# Runs of serializer operations

Every operation on a serializer but a fix streams a row of pieces: its relocations are the
labels. A run of operations is then described by the pieces that it streams and the fixes that
it records, wherever the serializer stands when it starts (`run_eq`), and the patch loop writes at
the relocations, one fix after the other (`bytes_dumpToFile`).

## Key results

- `apply_eq_extended`, `run_eq`: what one operation and a run of operations leave
- `bytes_dumpToFile`: what the patch loop writes
-/

namespace Fiskas.MainV3

open LittleEndian Template

/-! ## Pieces -/

/-- Serializing appends, whatever the buffer, and `T{}` is serialized as zeros. -/
class LawfulSerialize (T : Type) [Serialize T] : Prop where
  append : ∀ (buffer : ByteVec) (v : T),
    Serialize.serialize buffer v = buffer ++ Serialize.serialize [] v
  zero : ∃ k, Serialize.serialize [] (Serialize.zero : T) = List.replicate k 0

/-- An unsigned integer is serialized to its little-endian bytes. -/
instance (w : Nat) : LawfulSerialize (BitVec w) where
  append buffer v := by
    show Fiskas.Serializer.pushBytes buffer v (w / 8) =
      buffer ++ Fiskas.Serializer.pushBytes [] v (w / 8)
    rw [Fiskas.Serializer.pushBytes_eq, Fiskas.Serializer.pushBytes_eq, List.nil_append]
  zero := by
    refine ⟨w / 8, ?_⟩
    show Fiskas.Serializer.pushBytes [] (0 : BitVec w) (w / 8) = _
    rw [Fiskas.Serializer.pushBytes_eq, List.nil_append]
    exact bytes_zero (w / 8)

/-- An array is copied. -/
instance (size : Nat) : LawfulSerialize (Vector U8 size) where
  append _ _ := rfl
  zero := ⟨size, Vector.toList_replicate⟩

/-- What an entry streams: a value as it is, a relocation as zero. -/
def Entry.piece {T : Type} [Serialize T] : Entry T → Piece Relocation U8
  | .value v => ⟨none, Serialize.serialize [] v⟩
  | .relocation reloc => ⟨some reloc, Serialize.serialize [] (Serialize.zero : T)⟩

/-- The pieces of a file header, field by field. -/
def ElfHeader.pieces (h : ElfHeader) : List (Piece Relocation U8) :=
  [h.eIdent.piece, h.eType.piece, h.eMachine.piece, h.eVersion.piece, h.eEntry.piece,
    h.ePhoff.piece, h.eShoff.piece, h.eFlags.piece, h.eEhsize.piece, h.ePhentsize.piece,
    h.ePhnum.piece, h.eShentsize.piece, h.eShnum.piece, h.eShstrndx.piece]

/-- The pieces of a section header, field by field. -/
def SectionHeader.pieces (h : SectionHeader) : List (Piece Relocation U8) :=
  [h.shName.piece, h.shType.piece, h.shFlags.piece, h.shAddr.piece, h.shOffset.piece,
    h.shSize.piece, h.shLink.piece, h.shInfo.piece, h.shAddralign.piece, h.shEntsize.piece]

/-- The pieces of a symbol, field by field. -/
def Symbol.pieces (s : Symbol) : List (Piece Relocation U8) :=
  [s.stName.piece, s.stInfo.piece, s.stOther.piece, s.stShndx.piece, s.stValue.piece,
    s.stSize.piece]

/-- What an operation streams. -/
def Op.pieces : Op → List (Piece Relocation U8)
  | .entry8 e => [e.piece]
  | .entry16 e => [e.piece]
  | .entry32 e => [e.piece]
  | .entry64 e => [e.piece]
  | .entryArray _ e => [e.piece]
  | .elfHeader h => h.pieces
  | .sectionHeader h => h.pieces
  | .symbol s => s.pieces
  | .ofSection s => [⟨none, s.data⟩]
  | .fixRelocation _ => []

/-- The fix that an operation records. -/
def Op.fix? : Op → Option RelocationFixInfo
  | .fixRelocation info => some info
  | _ => none

/-- A fix comes with its value. -/
def Op.Explicit (op : Op) : Prop := ∀ info ∈ op.fix?, info.value.isSome

/-- What a run of operations streams. -/
def pieces (ops : List Op) : List (Piece Relocation U8) := ops.flatMap Op.pieces

/-- The fixes that a run of operations records. -/
def fixes (ops : List Op) : List RelocationFixInfo := ops.filterMap Op.fix?

/-- A fix as it is recorded behind some bytes. -/
def fixedAt (base : Nat) (info : RelocationFixInfo) : RelocationFixInfo :=
  { info with value := some (info.value.getD (BitVec.ofNat 64 base)) }

/-- Two runs stream the pieces of the first and then those of the second. -/
theorem pieces_append (P Q : List Op) : pieces (P ++ Q) = pieces P ++ pieces Q :=
  List.flatMap_append

/-- Two runs record the fixes of the first and then those of the second. -/
theorem fixes_append (P Q : List Op) : fixes (P ++ Q) = fixes P ++ fixes Q :=
  List.filterMap_append

/-- The fixes of a run start with that of its first operation, if that is a fix. -/
theorem fixes_cons (op : Op) (ops : List Op) : fixes (op :: ops) = op.fix?.toList ++ fixes ops := by
  rw [fixes, List.filterMap_cons]
  cases op.fix? <;> rfl

/-- A run of operations whose fixes come with values records values only. -/
theorem isSome_of_mem_fixes {ops : List Op} (h : ∀ op ∈ ops, op.Explicit) :
    ∀ info ∈ fixes ops, info.value.isSome := by
  intro info hinfo
  obtain ⟨op, hop, hfix⟩ := List.mem_filterMap.mp hinfo
  exact h op hop info hfix

/-! ## Runs of operations -/

/-- A relocation as it is recorded at a position, which it takes unless it comes with one. -/
def recorded (m : Nat × Relocation) : Relocation :=
  { m.2 with offset := some (m.2.offset.getD m.1) }

/-- The relocations of pieces that are streamed from a position on. -/
def relocationsAt (base : Nat) (t : List (Piece Relocation U8)) : List Relocation :=
  (marks base t).map recorded

/-- Every recorded relocation has a position. -/
theorem isSome_of_mem_relocationsAt (base : Nat) (t : List (Piece Relocation U8)) :
    ∀ reloc ∈ relocationsAt base t, reloc.offset.isSome := by
  intro reloc hreloc
  obtain ⟨m, -, rfl⟩ := List.mem_map.mp hreloc
  rfl

/-- The serializer behind a row of pieces and some fixes. -/
def extended (ser : Serializer) (t : List (Piece Relocation U8)) (infos : List RelocationFixInfo) :
    Serializer where
  buffer := ser.buffer ++ render t
  relocations := ser.relocations ++ relocationsAt ser.buffer.length t
  relocationFixes := ser.relocationFixes ++ infos

/-- Without pieces and fixes the serializer stays as it is. -/
theorem extended_nil (ser : Serializer) : extended ser [] [] = ser := by
  simp only [extended, render_nil, relocationsAt, marks, List.map_nil, List.append_nil]

/-- Extending twice is extending by both rows of pieces: the second row starts where the first
    one ends, so its relocations get the positions that they have in the whole row. -/
theorem extended_extended (ser : Serializer) (t u : List (Piece Relocation U8))
    (infos infos' : List RelocationFixInfo) :
    extended (extended ser t infos) u infos' = extended ser (t ++ u) (infos ++ infos') := by
  simp only [extended, relocationsAt, render_append, marks_append, List.length_append,
    List.map_append, List.append_assoc]

/-- Streaming an entry appends its piece: a relocation is recorded at the size that the buffer
    had, and a zero of its type is streamed in its place. -/
theorem stream_entry (ser : Serializer) {T : Type} [Serialize T] [LawfulSerialize T]
    (e : Entry T) : ser <<< e = extended ser [e.piece] [] := by
  cases e with
  | value v =>
    show { ser with buffer := Serialize.serialize ser.buffer v } = _
    rw [LawfulSerialize.append]
    simp [extended, Entry.piece, relocationsAt, marks]
  | relocation reloc =>
    show { ser with
      relocations := ser.relocations ++ [recorded (ser.buffer.length, reloc)]
      buffer := Serialize.serialize ser.buffer (Serialize.zero : T) } = _
    rw [LawfulSerialize.append]
    simp [extended, Entry.piece, relocationsAt, marks]

/-- Streaming a file header appends its pieces. -/
theorem stream_elfHeader (ser : Serializer) (h : ElfHeader) :
    ser <<< h = extended ser h.pieces [] := by
  show ser <<< h.eIdent <<< h.eType <<< h.eMachine <<< h.eVersion <<< h.eEntry <<< h.ePhoff
    <<< h.eShoff <<< h.eFlags <<< h.eEhsize <<< h.ePhentsize <<< h.ePhnum <<< h.eShentsize
    <<< h.eShnum <<< h.eShstrndx = _
  simp only [stream_entry, extended_extended, List.cons_append, List.nil_append,
    ElfHeader.pieces]

/-- Streaming a section header appends its pieces. -/
theorem stream_sectionHeader (ser : Serializer) (h : SectionHeader) :
    ser <<< h = extended ser h.pieces [] := by
  show ser <<< h.shName <<< h.shType <<< h.shFlags <<< h.shAddr <<< h.shOffset <<< h.shSize
    <<< h.shLink <<< h.shInfo <<< h.shAddralign <<< h.shEntsize = _
  simp only [stream_entry, extended_extended, List.cons_append, List.nil_append,
    SectionHeader.pieces]

/-- Streaming a symbol appends its pieces. -/
theorem stream_symbol (ser : Serializer) (s : Symbol) :
    ser <<< s = extended ser s.pieces [] := by
  show ser <<< s.stName <<< s.stInfo <<< s.stOther <<< s.stShndx <<< s.stValue <<< s.stSize = _
  simp only [stream_entry, extended_extended, List.cons_append, List.nil_append, Symbol.pieces]

/-- Streaming a section appends its data, without a label. -/
theorem stream_section (ser : Serializer) (s : Section) :
    ser <<< s = extended ser [⟨none, s.data⟩] [] := by
  show { ser with buffer := ser.buffer ++ s.data } = _
  simp [extended, relocationsAt, marks]

/-- A fix is recorded with its value, which is the size of the buffer unless it comes with one. -/
theorem fixRelocation_eq (ser : Serializer) (info : RelocationFixInfo) :
    ser.fixRelocation info = extended ser [] [fixedAt ser.buffer.length info] := by
  rw [Serializer.fixRelocation]
  simp [extended, relocationsAt, marks, fixedAt, ByteVec.size]

/-- What one operation leaves. -/
theorem apply_eq_extended (ser : Serializer) (op : Op) :
    ser.apply op =
      extended ser op.pieces (op.fix?.map (fixedAt ser.buffer.length)).toList := by
  cases op with
  | entry8 e => exact stream_entry ser e
  | entry16 e => exact stream_entry ser e
  | entry32 e => exact stream_entry ser e
  | entry64 e => exact stream_entry ser e
  | entryArray size e => exact stream_entry ser e
  | elfHeader hdr => exact stream_elfHeader ser hdr
  | sectionHeader hdr => exact stream_sectionHeader ser hdr
  | symbol s => exact stream_symbol ser s
  | ofSection s => exact stream_section ser s
  | fixRelocation info => exact fixRelocation_eq ser info

/-- An operation whose fix comes with its value records it as it is. -/
theorem apply_eq (ser : Serializer) {op : Op} (h : op.Explicit) :
    ser.apply op = extended ser op.pieces op.fix?.toList := by
  rw [apply_eq_extended]
  cases hfix : op.fix? with
  | none => rfl
  | some info =>
    obtain ⟨v, hv⟩ := Option.isSome_iff_exists.mp (h info hfix)
    -- The size of the buffer is only put in where a value is missing.
    have hinfo : fixedAt ser.buffer.length info = info := by
      rw [fixedAt, hv, Option.getD_some, ← hv]
    rw [Option.map_some, hinfo]

/-- What a run of operations leaves whose fixes come with their values. -/
theorem run_eq (ser : Serializer) {ops : List Op} (h : ∀ op ∈ ops, op.Explicit) :
    ser.run ops = extended ser (pieces ops) (fixes ops) := by
  induction ops generalizing ser with
  | nil => exact (extended_nil ser).symm
  | cons op ops ih =>
    -- The other operations start behind what this one has streamed.
    have hop := apply_eq ser (h op List.mem_cons_self)
    have hrest := ih (ser.apply op) fun op' hop' => h op' (List.mem_cons_of_mem op hop')
    rw [hop, extended_extended] at hrest
    rw [Serializer.run, List.foldl_cons, fixes_cons, pieces, List.flatMap_cons, hop]
    exact hrest

/-! ## The patch loop -/

/-- The patch of a relocation by a fix with its label. -/
def patchOf (info : RelocationFixInfo) (reloc : Relocation) : Option (Patch U8) :=
  if reloc.label = info.labelToFix then
    some ⟨reloc.offset.getD 0, bytes info.valueSizeInBytes.toNat (info.value.getD 0).toNat⟩
  else none

/-- The patches of all relocations by all fixes, in the order of the patch loop. -/
def patches (infos : List RelocationFixInfo) (relocs : List Relocation) : List (Patch U8) :=
  infos.flatMap fun info => relocs.filterMap (patchOf info)

/-- A write that leaves the buffer is undefined. -/
def orOutOfRange {α : Type} (r : Option α) : Except Stop α := r.elim (.error .outOfRange) .ok

/-- Undefined writes are the only failures, so nothing is lost. -/
theorem orOutOfRange_inj {α : Type} {r r' : Option α} :
    orOutOfRange r = orOutOfRange r' ↔ r = r' := by
  cases r <;> cases r' <;> simp [orOutOfRange]

/-- One step after the other, either of which may be undefined. -/
theorem orOutOfRange_bind {α β : Type} (r : Option α) (f : α → Option β) :
    orOutOfRange (r >>= f) = orOutOfRange r >>= fun a => orOutOfRange (f a) := by
  cases r <;> rfl

/-- The loop over the bytes of a value writes its little-endian bytes over the buffer. -/
theorem writeValue_eq (buffer : ByteVec) (pos : Nat) (realValue : U64) (n : Nat) :
    writeValue buffer pos realValue n =
      orOutOfRange (Patch.overwrite buffer pos (bytes n realValue.toNat)) := by
  induction n generalizing buffer pos realValue with
  | zero => rfl
  | succ n ih =>
    -- The next round sees the value without its lowest byte.
    have hshift : (realValue >>> 8).toNat = realValue.toNat / 256 := by
      rw [BitVec.toNat_ushiftRight, Nat.shiftRight_eq_div_pow]
    rw [writeValue, bytes, Patch.overwrite, ByteVec.store, Fiskas.Serializer.lowest_byte]
    split
    · rw [← hshift, ← ih]
      rfl
    · rfl

/-- A loop that also counts does on its buffer what the loop without the count does. -/
theorem map_fst_foldlM {α β κ : Type} {f : β × κ → α → Except Stop (β × κ)}
    {g : β → α → Option β} {as : List α}
    (h : ∀ a ∈ as, ∀ acc, (f acc a).map Prod.fst = orOutOfRange (g acc.1 a)) (acc : β × κ) :
    (as.foldlM f acc).map Prod.fst = orOutOfRange (as.foldlM g acc.1) := by
  induction as generalizing acc with
  | nil => rfl
  | cons a as ih =>
    rw [List.foldlM_cons, List.foldlM_cons, orOutOfRange_bind, ← h a List.mem_cons_self acc]
    cases f acc a with
    | error stop => rfl
    | ok acc' => exact ih (fun a' ha' => h a' (List.mem_cons_of_mem a ha')) acc'

/-- One round of the inner loop makes the patch of the relocation, if there is one. -/
theorem fixOne_eq {info : RelocationFixInfo} {reloc : Relocation} (hinfo : info.value.isSome)
    (hreloc : reloc.offset.isSome) (acc : ByteVec × U64) :
    (fixOne info acc reloc).map Prod.fst =
      orOutOfRange ((patchOf info reloc).elim (some acc.1) fun p =>
        Patch.overwrite acc.1 p.pos p.part) := by
  obtain ⟨v, hv⟩ := Option.isSome_iff_exists.mp hinfo
  obtain ⟨offset, hoffset⟩ := Option.isSome_iff_exists.mp hreloc
  obtain ⟨buffer, fixed⟩ := acc
  rw [fixOne, patchOf, hv, hoffset]
  by_cases hlabel : reloc.label = info.labelToFix
  -- With the label of the fix the round writes the value, and otherwise it does nothing.
  · rw [if_neg (not_not_intro hlabel), if_pos hlabel]
    simp only [writeValue_eq, Option.getD_some, Option.elim_some]
    cases Patch.overwrite buffer offset (bytes info.valueSizeInBytes.toNat v.toNat) <;> rfl
  · rw [if_pos hlabel, if_neg hlabel]
    rfl

/-- The patch loop makes all patches, one after the other. -/
theorem bytes_dumpToFile {ser : Serializer}
    (hinfos : ∀ info ∈ ser.relocationFixes, info.value.isSome)
    (hrelocs : ∀ reloc ∈ ser.relocations, reloc.offset.isSome) :
    ser.dumpToFile.map Dump.bytes = orOutOfRange
      (Patch.overwriteAll ser.buffer (patches ser.relocationFixes ser.relocations)) := by
  -- The inner loop makes the patches of one fix, in the order of the relocations.
  have hinner : ∀ info ∈ ser.relocationFixes, ∀ acc,
      (ser.relocations.foldlM (fixOne info) acc).map Prod.fst =
        orOutOfRange (Patch.overwriteAll acc.1 (ser.relocations.filterMap (patchOf info))) := by
    intro info hinfo acc
    rw [Patch.overwriteAll_filterMap]
    exact map_fst_foldlM (fun reloc hreloc => fixOne_eq (hinfos info hinfo) (hrelocs reloc hreloc))
      acc
  -- The outer loop does so for every fix. The count beside the buffer plays no role for it.
  rw [patches, Patch.overwriteAll_flatMap, ← map_fst_foldlM hinner (ser.buffer, 0),
    Serializer.dumpToFile]
  cases ser.relocationFixes.foldlM
    (fun acc info => ser.relocations.foldlM (fixOne info) acc) (ser.buffer, 0) <;> rfl

end Fiskas.MainV3
