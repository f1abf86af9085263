import Fiskas.Spec.SerializerMerge

/-!
# Deferred values

A relocation stands for a value that is not known yet, and `dump_to_file` fills it in. This is as
good as knowing the values beforehand: as long as no relocation comes with a position of its own
and every fix is as wide as the fields with its label, the file that is dumped is what the same
operations stream when every relocation is replaced by the value of the last fix with its label,
or by zero when there is none.

## Key results

- `run_eq_fixesAt`: what any run of operations leaves
- `bytes_dumpToFile_run`, `bytes_dumpToFile_last`: what is dumped behind a run, piece by piece
- `dumpToFile_eq_direct`: deferring the values makes no difference
-/

namespace Fiskas.MainV3

open LittleEndian Template

/-! ## Runs with fixes that come without values -/

/-- The fixes of a run as they are recorded when it starts behind `base` bytes. -/
def fixesAt : Nat → List Op → List RelocationFixInfo
  | _, [] => []
  | base, op :: ops =>
    (op.fix?.map (fixedAt base)).toList ++ fixesAt (base + (render op.pieces).length) ops

/-- What a run of operations leaves. -/
theorem run_eq_fixesAt (ser : Serializer) (ops : List Op) :
    ser.run ops = extended ser (pieces ops) (fixesAt ser.buffer.length ops) := by
  induction ops generalizing ser with
  | nil => exact (extended_nil ser).symm
  | cons op ops ih =>
    have hrest := ih (ser.apply op)
    have hlength : (ser.apply op).buffer.length =
        ser.buffer.length + (render op.pieces).length := by
      rw [apply_eq_extended]
      exact List.length_append
    rw [hlength, apply_eq_extended, extended_extended] at hrest
    rw [Serializer.run, List.foldl_cons, apply_eq_extended, fixesAt, pieces, List.flatMap_cons]
    exact hrest

/-- What is recorded of a fix is the fix with a value. -/
theorem exists_of_mem_fixesAt {base : Nat} {ops : List Op} {info : RelocationFixInfo}
    (h : info ∈ fixesAt base ops) : ∃ info' ∈ fixes ops, ∃ base', info = fixedAt base' info' := by
  induction ops generalizing base with
  | nil => exact absurd h List.not_mem_nil
  | cons op ops ih =>
    rw [fixesAt, List.mem_append] at h
    rw [fixes_cons]
    cases h with
    | inl hhead =>
      obtain ⟨info', hinfo', rfl⟩ := Option.map_eq_some_iff.mp (Option.mem_toList.mp hhead)
      exact ⟨info', List.mem_append_left _ (Option.mem_toList.mpr hinfo'), base, rfl⟩
    | inr hrest =>
      obtain ⟨info', hinfo', base', rfl⟩ := ih hrest
      exact ⟨info', List.mem_append_right _ hinfo', base', rfl⟩

/-- Recording fixes keeps their widths. -/
theorem WidthsFit.fixesAt {ops : List Op} {t : List (Piece Relocation U8)}
    (h : WidthsFit (fixes ops) t) (base : Nat) : WidthsFit (fixesAt base ops) t := by
  intro info hinfo
  obtain ⟨info', hinfo', base', rfl⟩ := exists_of_mem_fixesAt hinfo
  exact h info' hinfo'

/-! ## Filling in the fixes -/

/-- The content that a fix fills in, under the relocation that it belongs to. -/
def fillOf (info : RelocationFixInfo) : Relocation × ByteVec :=
  (.withLabel info.labelToFix, bytes info.valueSizeInBytes.toNat (info.value.getD 0).toNat)

/-- Without positions of their own, the relocations with the label of a fix are those that it
    fills in. -/
private theorem patches_eq {t : List (Piece Relocation U8)} (hpos : NoPositions t)
    (infos : List RelocationFixInfo) :
    patches infos (relocationsAt 0 t) = (infos.map fillOf).flatMap (patchesOf (marks 0 t)) := by
  rw [patches, List.flatMap_map]
  apply List.flatMap_congr
  intro info _
  rw [relocationsAt, List.filterMap_map, patchesOf]
  apply List.filterMap_congr
  intro m hm
  obtain ⟨p, hp, hlabel, -⟩ := exists_of_mem_marks hm
  have hnone := hpos p hp m.2 hlabel
  have hiff : m.2.label = info.labelToFix ↔ m.2 = .withLabel info.labelToFix := by
    obtain ⟨pos, offset, label⟩ := m
    obtain rfl : offset = none := hnone
    simp [Relocation.withLabel]
  by_cases hsame : m.2.label = info.labelToFix
  · rw [Function.comp_apply, patchOf, recorded, if_pos hsame, fillOf, if_pos (hiff.mp hsame),
      hnone]
    rfl
  · rw [Function.comp_apply, patchOf, recorded, if_neg hsame, fillOf,
      if_neg (mt hiff.mpr hsame)]

/-- A fix as wide as its fields fills them without moving anything. -/
private theorem sameLength_fillOf {infos : List RelocationFixInfo}
    {t : List (Piece Relocation U8)} (hwidths : WidthsFit infos t) :
    ∀ f ∈ infos.map fillOf, SameLength t f.1 f.2 := by
  intro f hf p hp hlabel
  obtain ⟨info, hinfo, rfl⟩ := List.mem_map.mp hf
  rw [hwidths info hinfo p hp _ hlabel rfl]
  exact length_bytes _ _

/-- What is dumped behind a run of operations: its pieces with the fixes filled in. -/
theorem bytes_dumpToFile_run {ops : List Op} (hpos : NoPositions (pieces ops))
    (hwidths : WidthsFit (fixes ops) (pieces ops)) :
    (({} : Serializer).run ops).dumpToFile.map Dump.bytes =
      .ok (render ((pieces ops).map fun p => p.fillAll ((fixesAt 0 ops).map fillOf))) := by
  have hrun : ({} : Serializer).run ops =
      ⟨render (pieces ops), relocationsAt 0 (pieces ops), fixesAt 0 ops⟩ := run_eq_fixesAt {} ops
  -- Recording gives every fix a value and every relocation a position.
  have hinfos : ∀ info ∈ (({} : Serializer).run ops).relocationFixes, info.value.isSome := by
    rw [hrun]
    intro info hinfo
    obtain ⟨info', -, base', rfl⟩ := exists_of_mem_fixesAt hinfo
    rfl
  have hrelocs : ∀ reloc ∈ (({} : Serializer).run ops).relocations, reloc.offset.isSome := by
    rw [hrun]
    exact isSome_of_mem_relocationsAt _ _
  rw [bytes_dumpToFile hinfos hrelocs, hrun]
  show orOutOfRange (Patch.overwriteAll (render (pieces ops))
    (patches (fixesAt 0 ops) (relocationsAt 0 (pieces ops)))) = _
  rw [patches_eq hpos, overwriteAll_run (sameLength_fillOf (hwidths.fixesAt 0))]
  rfl

/-! ## Streaming the values -/

/-- The value of the last recorded fix with a label, zero when there is none. -/
def Serializer.lastValue (ser : Serializer) (label : LabelType) : U64 :=
  (ser.relocationFixes.reverse.find? (·.labelToFix = label)).elim 0 fun info =>
    info.value.getD 0

/-- A value of a type of fields. -/
class OfValue (T : Type) where
  ofValue : U64 → T

instance (w : Nat) : OfValue (BitVec w) where
  ofValue value := value.setWidth w

instance (size : Nat) : OfValue (Vector U8 size) where
  ofValue value := ⟨(bytes size value.toNat).toArray, length_bytes size value.toNat⟩

/-- Replace a relocation by the value of its label. -/
def Entry.direct {T : Type} [OfValue T] (values : LabelType → U64) : Entry T → Entry T
  | .value v => .value v
  | .relocation reloc => .value (OfValue.ofValue (values reloc.label))

section

variable (values : LabelType → U64)

def ElfHeader.direct (h : ElfHeader) : ElfHeader where
  eIdent := h.eIdent.direct values
  eType := h.eType.direct values
  eMachine := h.eMachine.direct values
  eVersion := h.eVersion.direct values
  eEntry := h.eEntry.direct values
  ePhoff := h.ePhoff.direct values
  eShoff := h.eShoff.direct values
  eFlags := h.eFlags.direct values
  eEhsize := h.eEhsize.direct values
  ePhentsize := h.ePhentsize.direct values
  ePhnum := h.ePhnum.direct values
  eShentsize := h.eShentsize.direct values
  eShnum := h.eShnum.direct values
  eShstrndx := h.eShstrndx.direct values

def SectionHeader.direct (h : SectionHeader) : SectionHeader where
  shName := h.shName.direct values
  shType := h.shType.direct values
  shFlags := h.shFlags.direct values
  shAddr := h.shAddr.direct values
  shOffset := h.shOffset.direct values
  shSize := h.shSize.direct values
  shLink := h.shLink.direct values
  shInfo := h.shInfo.direct values
  shAddralign := h.shAddralign.direct values
  shEntsize := h.shEntsize.direct values

def Symbol.direct (s : Symbol) : Symbol where
  stName := s.stName.direct values
  stInfo := s.stInfo.direct values
  stOther := s.stOther.direct values
  stShndx := s.stShndx.direct values
  stValue := s.stValue.direct values
  stSize := s.stSize.direct values

/-- The operation with every relocation replaced by the value of its label. -/
def Op.direct : Op → Op
  | .entry8 e => .entry8 (e.direct values)
  | .entry16 e => .entry16 (e.direct values)
  | .entry32 e => .entry32 (e.direct values)
  | .entry64 e => .entry64 (e.direct values)
  | .entryArray size e => .entryArray size (e.direct values)
  | .elfHeader h => .elfHeader (h.direct values)
  | .sectionHeader h => .sectionHeader (h.direct values)
  | .symbol s => .symbol (s.direct values)
  | .ofSection s => .ofSection s
  | .fixRelocation info => .fixRelocation info

end

/-- A value is serialized to its lowest bytes, as many as `T{}` has. -/
class LawfulOfValue (T : Type) [Serialize T] [OfValue T] : Prop where
  bytes_ofValue : ∀ value : U64, Serialize.serialize [] (OfValue.ofValue value : T) =
    bytes (Serialize.serialize [] (Serialize.zero : T)).length value.toNat

instance (w : Nat) : LawfulOfValue (BitVec w) where
  bytes_ofValue value := by
    show Fiskas.Serializer.pushBytes [] (value.setWidth w) (w / 8) =
      bytes (Fiskas.Serializer.pushBytes [] (0 : BitVec w) (w / 8)).length value.toNat
    rw [Fiskas.Serializer.pushBytes_eq, Fiskas.Serializer.pushBytes_eq, List.nil_append,
      List.nil_append, length_bytes, BitVec.toNat_setWidth, bytes_mod _ (Nat.mul_div_le w 8)]

instance (size : Nat) : LawfulOfValue (Vector U8 size) where
  bytes_ofValue value := by
    show bytes size value.toNat = bytes (Vector.replicate size (0 : U8)).toList.length value.toNat
    rw [Vector.length_toList]

/-- A piece with the value of its label filled in. -/
def directPiece (values : LabelType → U64) (p : Piece Relocation U8) : Piece Relocation U8 :=
  ⟨none, p.label.elim p.content fun reloc =>
    bytes p.content.length (values reloc.label).toNat⟩

theorem piece_direct {T : Type} [Serialize T] [OfValue T] [LawfulOfValue T]
    (values : LabelType → U64) (e : Entry T) :
    (e.direct values).piece = directPiece values e.piece := by
  cases e with
  | value v => rfl
  | relocation reloc =>
    show Piece.mk none _ = Piece.mk none _
    rw [LawfulOfValue.bytes_ofValue]
    rfl

/-- Replacing relocations by values is filling in the pieces. -/
theorem pieces_direct (values : LabelType → U64) (ops : List Op) :
    pieces (ops.map (·.direct values)) = (pieces ops).map (directPiece values) := by
  have hop (op : Op) : (op.direct values).pieces = op.pieces.map (directPiece values) := by
    cases op <;>
      simp [Op.direct, Op.pieces, ElfHeader.direct, ElfHeader.pieces, SectionHeader.direct,
        SectionHeader.pieces, Symbol.direct, Symbol.pieces, piece_direct]
    case ofSection s => rfl
  rw [pieces, pieces, List.flatMap_map, List.map_flatMap]
  exact List.flatMap_congr fun op _ => hop op

/-- The last fix with the label of a relocation fills in its value. -/
private theorem content_fillAll {infos : List RelocationFixInfo} {t : List (Piece Relocation U8)}
    (hpos : NoPositions t) (hwidths : WidthsFit infos t) {p : Piece Relocation U8} (hp : p ∈ t)
    (hzero : ZeroHole p) {ser : Serializer} (hser : ser.relocationFixes = infos) :
    (p.fillAll (infos.map fillOf)).content = (directPiece ser.lastValue p).content := by
  obtain ⟨label, content⟩ := p
  cases label with
  | none => rw [Piece.fillAll_none]; rfl
  | some reloc =>
    -- Without a position, a relocation is its label.
    have hreloc : reloc = .withLabel reloc.label := by
      obtain ⟨offset, label⟩ := reloc
      obtain rfl : offset = none := hpos _ hp _ rfl
      rfl
    have hfind : ((infos.map fillOf).reverse.find? fun f => f.1 = reloc) =
        (infos.reverse.find? (·.labelToFix = reloc.label)).map fillOf := by
      rw [← List.map_reverse, List.find?_map]
      congr 2
      funext info
      refine decide_eq_decide.mpr ?_
      rw [fillOf, hreloc]
      simp [Relocation.withLabel]
    show _ = bytes content.length (ser.lastValue reloc.label).toNat
    rw [Piece.fillAll_some, hfind, Serializer.lastValue, hser]
    cases hlast : infos.reverse.find? (·.labelToFix = reloc.label) with
    | none =>
      -- No fix: the zeros that were streamed stay.
      obtain ⟨k, hk⟩ := hzero reloc rfl
      have hcontent : content = List.replicate k 0 := hk
      rw [hcontent]
      exact (bytes_zero _).symm.trans (by rw [List.length_replicate]; rfl)
    | some info =>
      -- The fix is as wide as the field, so its lowest bytes are all that it writes.
      have hmem := List.mem_reverse.mp (List.mem_of_find?_eq_some hlast)
      have hlabel : info.labelToFix = reloc.label := by simpa using List.find?_some hlast
      have hwidth : content.length = info.valueSizeInBytes.toNat :=
        hwidths info hmem _ hp reloc rfl hlabel.symm
      rw [hwidth]
      rfl

/-- What is dumped behind a run of operations: its pieces with the values of the last fixes filled
    in. -/
theorem bytes_dumpToFile_last {ops : List Op} (hpos : NoPositions (pieces ops))
    (hwidths : WidthsFit (fixes ops) (pieces ops)) :
    (({} : Serializer).run ops).dumpToFile.map Dump.bytes =
      .ok (render ((pieces ops).map (directPiece (({} : Serializer).run ops).lastValue))) := by
  have hfixes : (({} : Serializer).run ops).relocationFixes = fixesAt 0 ops := by
    rw [run_eq_fixesAt]
    rfl
  rw [bytes_dumpToFile_run hpos hwidths, render, render, List.map_map, List.map_map]
  congr 2
  apply List.map_congr_left
  intro p hp
  exact content_fillAll hpos (hwidths.fixesAt 0) hp (zeroHole_of_mem_pieces p hp) hfixes

/-- Deferring values makes no difference: the dumped file is what the operations stream when every
    relocation is replaced by the value of the last fix with its label. -/
theorem dumpToFile_eq_direct (ops : List Op) (hpos : NoPositions (pieces ops))
    (hwidths : WidthsFit (fixes ops) (pieces ops)) :
    (({} : Serializer).run ops).dumpToFile.map Dump.bytes =
      .ok (({} : Serializer).run
        (ops.map (·.direct (({} : Serializer).run ops).lastValue))).buffer := by
  have hbuffer (ops : List Op) : (({} : Serializer).run ops).buffer = render (pieces ops) := by
    rw [run_eq_fixesAt]
    rfl
  rw [bytes_dumpToFile_last hpos hwidths, hbuffer, pieces_direct]

/-- A field in front of a section, which is fixed with the position behind that. -/
def placedField : List Op := [
  .entry64 (.relocation (.withLabel (.ofElfHeader .sectionHeaderTableOffset))),
  .ofSection { data := [0x90, 0xc3] },
  .fixRelocation { labelToFix := .ofElfHeader .sectionHeaderTableOffset, valueSizeInBytes := 8 }]

theorem dumpToFile_eq_direct_placedField :
    (({} : Serializer).run placedField).dumpToFile.map Dump.bytes =
      .ok (({} : Serializer).run
        (placedField.map (·.direct (({} : Serializer).run placedField).lastValue))).buffer :=
  dumpToFile_eq_direct placedField
    (by simp [NoPositions, placedField, pieces, Op.pieces, Entry.piece, Relocation.withLabel])
    (by
      simp [WidthsFit, placedField, pieces, fixes, Op.pieces, Op.fix?, Entry.piece]
      exact fun _ => rfl)

end Fiskas.MainV3
