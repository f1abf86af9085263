import Fiskas.Spec.SerializerRun

/-!
# Merging serializers

Merging a serializer into another one does not move its relocations, so their patches are
misplaced by what the other one has streamed. With the pieces and the fixes of both runs, the
merged serializer and a single one make the same patches at different places.

## Key results

- `bytes_merged`, `bytes_single`: the bytes of the merged serializer and of a single one
- `merge_sameBytes_iff`: when they are the same
-/

namespace Fiskas.MainV3

open LittleEndian Template

/-! ## Merging -/

/-- Running `P` and `Q` on serializers of their own and merging the second into the first gives
    the bytes of running both on one serializer. Where a patch lies outside of the buffer the
    source is undefined and there are no bytes: two runs that both come to that agree. -/
def SameBytes (P Q : List Op) : Prop :=
  (({} : Serializer).run P <<< ({} : Serializer).run Q).dumpToFile.map Dump.bytes =
    (({} : Serializer).run (P ++ Q)).dumpToFile.map Dump.bytes

/-- The patches of `P` and `Q` when the pieces of `Q` are taken to start at `base`. -/
def patchesAt (P Q : List Op) (base : Nat) : List (Patch U8) :=
  patches (fixes P ++ fixes Q) (relocationsAt 0 (pieces P) ++ relocationsAt base (pieces Q))

/-- No patch is displaced: `P` streams no bytes, or no fix has the label of a relocation of `Q`
    that comes without a position. -/
def NoneDisplaced (P Q : List Op) : Prop :=
  render (pieces P) = [] ∨ ∀ info ∈ fixes P ++ fixes Q, ∀ p ∈ pieces Q, ∀ reloc,
    p.label = some reloc → reloc.offset = none → reloc.label ≠ info.labelToFix

/-- The bytes of streamed pieces and recorded fixes. -/
private theorem bytes_of_pieces (P Q : List Op) (hP : ∀ op ∈ P, op.Explicit)
    (hQ : ∀ op ∈ Q, op.Explicit) (base : Nat) :
    (Serializer.mk (render (pieces P ++ pieces Q))
      (relocationsAt 0 (pieces P) ++ relocationsAt base (pieces Q))
      (fixes P ++ fixes Q)).dumpToFile.map Dump.bytes =
      orOutOfRange (Patch.overwriteAll (render (pieces P ++ pieces Q)) (patchesAt P Q base)) := by
  apply bytes_dumpToFile
  · rw [List.forall_mem_append]
    exact ⟨isSome_of_mem_fixes hP, isSome_of_mem_fixes hQ⟩
  · rw [List.forall_mem_append]
    exact ⟨isSome_of_mem_relocationsAt _ _, isSome_of_mem_relocationsAt _ _⟩

/-- The bytes of the merged serializer, whose patches take `Q` to start at 0. -/
theorem bytes_merged {P Q : List Op} (hP : ∀ op ∈ P, op.Explicit) (hQ : ∀ op ∈ Q, op.Explicit) :
    (({} : Serializer).run P <<< ({} : Serializer).run Q).dumpToFile.map Dump.bytes =
      orOutOfRange (Patch.overwriteAll (render (pieces P ++ pieces Q)) (patchesAt P Q 0)) := by
  rw [run_eq _ hP, run_eq _ hQ, ← bytes_of_pieces P Q hP hQ 0, render_append]
  rfl

/-- The bytes of a single serializer, whose patches take `Q` to start behind `P`. -/
theorem bytes_single {P Q : List Op} (hP : ∀ op ∈ P, op.Explicit) (hQ : ∀ op ∈ Q, op.Explicit) :
    (({} : Serializer).run (P ++ Q)).dumpToFile.map Dump.bytes =
      orOutOfRange (Patch.overwriteAll (render (pieces P ++ pieces Q))
        (patchesAt P Q (render (pieces P)).length)) := by
  have hPQ : ∀ op ∈ P ++ Q, op.Explicit := List.forall_mem_append.mpr ⟨hP, hQ⟩
  have hrelocs : relocationsAt 0 (pieces P ++ pieces Q) =
      relocationsAt 0 (pieces P) ++ relocationsAt (render (pieces P)).length (pieces Q) := by
    rw [relocationsAt, marks_append, List.map_append, Nat.zero_add]
    rfl
  rw [run_eq _ hPQ, ← bytes_of_pieces P Q hP hQ, ← hrelocs, ← pieces_append, ← fixes_append]
  rfl

/-- Without displaced patches it makes no difference where `Q` is taken to start. -/
theorem patchesAt_of_noneDisplaced {P Q : List Op} (h : NoneDisplaced P Q) :
    patchesAt P Q 0 = patchesAt P Q (render (pieces P)).length := by
  cases h with
  | inl hnil => rw [hnil, List.length_nil]
  | inr hlabels =>
    rw [patchesAt, patchesAt, patches, patches]
    apply List.flatMap_congr
    intro info hinfo
    rw [List.filterMap_append, List.filterMap_append, List.append_cancel_left_eq]
    have hmarks := marks_add (render (pieces P)).length 0 (pieces Q)
    rw [relocationsAt, relocationsAt, ← Nat.add_zero (render (pieces P)).length, hmarks,
      List.filterMap_map, List.filterMap_map, List.filterMap_map]
    apply List.filterMap_congr
    intro m hm
    obtain ⟨p, hp, hlabel, -⟩ := exists_of_mem_marks hm
    cases hoffset : m.2.offset with
    | none =>
      have hne := hlabels info hinfo p hp m.2 hlabel hoffset
      simp [patchOf, recorded, hne]
    | some offset => simp [patchOf, recorded, hoffset]

/-! ## Displaced patches -/

/-- A piece with a label is zero. -/
def ZeroHole (p : Piece Relocation U8) : Prop :=
  ∀ reloc, p.label = some reloc → ∃ k, p.content = List.replicate k 0

/-- A relocation is streamed as zeros. -/
theorem zeroHole_piece {T : Type} [Serialize T] [LawfulSerialize T] (e : Entry T) :
    ZeroHole e.piece := by
  intro reloc h
  cases e with
  | value v => cases h
  | relocation reloc' => exact LawfulSerialize.zero (T := T)

/-- Every field that an operation leaves open is zero. -/
theorem zeroHole_of_mem_pieces {ops : List Op} : ∀ p ∈ pieces ops, ZeroHole p := by
  intro p hp
  obtain ⟨op, -, hp⟩ := List.mem_flatMap.mp hp
  have hall : ∀ p ∈ op.pieces, ZeroHole p := by
    cases op <;>
      simp [Op.pieces, ElfHeader.pieces, SectionHeader.pieces, Symbol.pieces, zeroHole_piece]
    case ofSection s =>
      intro reloc h
      cases h
  exact hall p hp

/-- No relocation comes with a position. -/
def NoPositions (t : List (Piece Relocation U8)) : Prop :=
  ∀ p ∈ t, ∀ reloc, p.label = some reloc → reloc.offset = none

/-- Every fix is as wide as the fields that it labels. -/
def WidthsFit (infos : List RelocationFixInfo) (t : List (Piece Relocation U8)) : Prop :=
  ∀ info ∈ infos, ∀ p ∈ t, ∀ reloc, p.label = some reloc → reloc.label = info.labelToFix →
    p.content.length = info.valueSizeInBytes.toNat

section Holes

variable {infos : List RelocationFixInfo} {t : List (Piece Relocation U8)}
  (hpos : NoPositions t)

include hpos

/-- A patch is as long as the hole that it patches, at its position. -/
theorem hole_of_mem_patches (hwidths : WidthsFit infos t) {base : Nat} {p : Patch U8}
    (hp : p ∈ patches infos (relocationsAt base t)) :
    ∃ q ∈ t, q.label.isSome ∧ p.part.length = q.content.length ∧
      ∃ off, p.pos = base + off ∧ Slice.IsAt (render t) off q.content := by
  obtain ⟨info, hinfo, hp⟩ := List.mem_flatMap.mp hp
  obtain ⟨reloc, hreloc, hp⟩ := List.mem_filterMap.mp hp
  obtain ⟨m, hm, rfl⟩ := List.mem_map.mp hreloc
  obtain ⟨q, hq, hlabel, off, hoff, hat⟩ := exists_of_mem_marks hm
  rw [patchOf] at hp
  split at hp
  · next hsame =>
    obtain rfl := Option.some.inj hp
    refine ⟨q, hq, Option.isSome_of_eq_some hlabel, ?_, off, ?_, hat⟩
    · rw [hwidths info hinfo q hq m.2 hlabel hsame]
      exact length_bytes _ _
    · rw [recorded, hpos q hq m.2 hlabel]
      exact hoff
  · cases hp

/-- A patch lies within the pieces. -/
theorem le_of_mem_patches (hwidths : WidthsFit infos t) {base : Nat} {p : Patch U8}
    (hp : p ∈ patches infos (relocationsAt base t)) :
    p.pos + p.part.length ≤ base + (render t).length := by
  obtain ⟨q, -, -, hlen, off, hoff, hat⟩ := hole_of_mem_patches hpos hwidths hp
  have := hat.le
  omega

/-- What a patch reaches was streamed as zero. -/
theorem zero_of_mem_patches (hwidths : WidthsFit infos t) (hzero : ∀ q ∈ t, ZeroHole q)
    {base : Nat} {p : Patch U8} (hp : p ∈ patches infos (relocationsAt base t)) {i : Nat} {b : U8}
    (hat : p.at? i = some b) : ∃ x, i = base + x ∧ (render t)[x]? = some 0 := by
  obtain ⟨q, hq, hlabel, hlen, off, hoff, hqat⟩ := hole_of_mem_patches hpos hwidths hp
  rw [Patch.at?] at hat
  split at hat
  · next hle =>
    have hlt : i - p.pos < q.content.length := hlen ▸ (List.getElem?_eq_some_iff.mp hat).1
    obtain ⟨reloc, hreloc⟩ := Option.isSome_iff_exists.mp hlabel
    obtain ⟨k, hk⟩ := hzero q hq reloc hreloc
    refine ⟨off + (i - p.pos), by omega, ?_⟩
    rw [hqat.getElem? hlt, hk, List.getElem?_replicate_of_lt]
    rwa [hk, List.length_replicate] at hlt
  · cases hat

/-- Patches of pieces move with the pieces. -/
theorem patches_shift (base : Nat) :
    patches infos (relocationsAt base t) =
      (patches infos (relocationsAt 0 t)).map (Patch.shift base) := by
  rw [patches, patches, List.map_flatMap]
  apply List.flatMap_congr
  intro info _
  rw [relocationsAt, relocationsAt, ← Nat.add_zero base, marks_add, List.map_map,
    List.filterMap_map, List.filterMap_map, List.map_filterMap]
  apply List.filterMap_congr
  intro m hm
  obtain ⟨q, hq, hlabel, -⟩ := exists_of_mem_marks hm
  have hnone := hpos q hq m.2 hlabel
  by_cases hsame : m.2.label = info.labelToFix
  · simp [patchOf, recorded, hnone, hsame, Patch.shift]
  · simp [patchOf, recorded, hsame]

end Holes

/-- Relocations whose patches do not reach a position may be left out. -/
theorem lastAt_patches_append {infos : List RelocationFixInfo} {relocs relocs' : List Relocation}
    {i : Nat} (h : ∀ p ∈ patches infos relocs, p.at? i = none) :
    Patch.lastAt (patches infos (relocs ++ relocs')) i =
      Patch.lastAt (patches infos relocs') i := by
  induction infos with
  | nil => rfl
  | cons info infos ih =>
    rw [patches, List.flatMap_cons, List.forall_mem_append] at h
    have hhead : Patch.lastAt (relocs.filterMap (patchOf info)) i = none :=
      Patch.lastAt_eq_none h.1
    rw [patches, List.flatMap_cons, Patch.lastAt_append, List.filterMap_append,
      Patch.lastAt_append, hhead, Option.or_none]
    rw [patches, List.flatMap_cons, Patch.lastAt_append]
    have ih := ih h.2
    rw [patches, patches] at ih
    rw [ih]

/-- The patches of two rows of relocations are those of either row. -/
theorem mem_patches_append {infos : List RelocationFixInfo} {relocs relocs' : List Relocation}
    {p : Patch U8} (h : p ∈ patches infos (relocs ++ relocs')) :
    p ∈ patches infos relocs ∨ p ∈ patches infos relocs' := by
  obtain ⟨info, hinfo, hp⟩ := List.mem_flatMap.mp h
  rw [List.filterMap_append, List.mem_append] at hp
  exact hp.imp (fun hp => List.mem_flatMap.mpr ⟨info, hinfo, hp⟩)
    fun hp => List.mem_flatMap.mpr ⟨info, hinfo, hp⟩

section Displaced

variable {P Q : List Op} (hpos : NoPositions (pieces P ++ pieces Q))
  (hwidths : WidthsFit (fixes P ++ fixes Q) (pieces P ++ pieces Q))

include hpos hwidths

omit hwidths in
theorem noPositions_left : NoPositions (pieces P) :=
  fun q hq => hpos q (List.mem_append_left _ hq)

omit hwidths in
theorem noPositions_right : NoPositions (pieces Q) :=
  fun q hq => hpos q (List.mem_append_right _ hq)

omit hpos in
theorem widthsFit_left : WidthsFit (fixes P ++ fixes Q) (pieces P) :=
  fun info hinfo q hq => hwidths info hinfo q (List.mem_append_left _ hq)

omit hpos in
theorem widthsFit_right : WidthsFit (fixes P ++ fixes Q) (pieces Q) :=
  fun info hinfo q hq => hwidths info hinfo q (List.mem_append_right _ hq)

/-- Behind the bytes of `P` only the relocations of `Q` have patches. -/
theorem lastAt_behind (base x : Nat) :
    Patch.lastAt (patchesAt P Q base) ((render (pieces P)).length + x) =
      Patch.lastAt (patches (fixes P ++ fixes Q) (relocationsAt base (pieces Q)))
        ((render (pieces P)).length + x) := by
  apply lastAt_patches_append
  intro p hp
  cases hat : p.at? ((render (pieces P)).length + x) with
  | none => rfl
  | some b =>
    obtain ⟨y, hy, hzero⟩ := zero_of_mem_patches (noPositions_left hpos) (widthsFit_left hwidths)
      zeroHole_of_mem_pieces hp hat
    have hlt := (List.getElem?_eq_some_iff.mp hzero).1
    omega

/-- Displaced patches still lie within the buffer. -/
theorem fits_displaced : ∀ p ∈ patchesAt P Q 0, p.Fits (render (pieces P ++ pieces Q)).length := by
  intro p hp
  right
  rw [render_append, List.length_append]
  cases mem_patches_append hp with
  | inl hp =>
    have := le_of_mem_patches (noPositions_left hpos) (widthsFit_left hwidths) hp
    omega
  | inr hp =>
    have := le_of_mem_patches (noPositions_right hpos) (widthsFit_right hwidths) hp
    omega

/-- What is patched in `Q` was streamed as zero. -/
theorem hole_of_lastAt {x : Nat} {b : U8}
    (hb : Patch.lastAt (patches (fixes P ++ fixes Q) (relocationsAt 0 (pieces Q))) x = some b) :
    (render (pieces Q))[x]? = some 0 := by
  obtain ⟨p, hp, hat⟩ := Patch.exists_of_lastAt hb
  obtain ⟨y, rfl, hzero⟩ := zero_of_mem_patches (noPositions_right hpos)
    (widthsFit_right hwidths) zeroHole_of_mem_pieces hp hat
  rwa [Nat.zero_add]

section LeaveSame

variable (h : Patch.LeaveSame (render (pieces P ++ pieces Q)) (patchesAt P Q 0)
  (patchesAt P Q (render (pieces P)).length))
include h

/-- When the displaced patches leave what those in place leave, a byte of `Q` that is patched in
    place is patched by a displaced patch, too, or keeps the zero that was streamed. -/
theorem displaced_of_leaveSame {x : Nat} {b : U8}
    (hb : Patch.lastAt (patches (fixes P ++ fixes Q) (relocationsAt 0 (pieces Q))) x = some b) :
    (Patch.lastAt (patches (fixes P ++ fixes Q) (relocationsAt 0 (pieces Q)))
      ((render (pieces P)).length + x)).or (some 0) = some b := by
  have hhole := hole_of_lastAt hpos hwidths hb
  have hlt := (List.getElem?_eq_some_iff.mp hhole).1
  have hbyte := h.2 (fits_displaced hpos hwidths) ((render (pieces P)).length + x)
    (by rw [render_append, List.length_append]; omega)
  rw [lastAt_behind hpos hwidths, lastAt_behind hpos hwidths,
    patches_shift (noPositions_right hpos) (render (pieces P)).length, Patch.lastAt_shift, hb,
    render_append, List.getElem?_append_right (Nat.le_add_right _ _), Nat.add_sub_cancel_left,
    hhole] at hbyte
  exact hbyte

/-- When moreover `P` streams some bytes, then every byte that is patched in `Q` is patched with
    zero. -/
theorem zero_of_leaveSame (hne : render (pieces P) ≠ []) {x : Nat} {b : U8}
    (hb : Patch.lastAt (patches (fixes P ++ fixes Q) (relocationsAt 0 (pieces Q))) x = some b) :
    b = 0 := by
  have hbase : 0 < (render (pieces P)).length := List.length_pos_iff.mpr hne
  -- A displaced patch belongs to a byte of `Q` that lies further behind, and so on: the induction
  -- is on the distance from the end of `Q`.
  have hchain : ∀ d {x b}, (render (pieces Q)).length ≤ x + d →
      Patch.lastAt (patches (fixes P ++ fixes Q) (relocationsAt 0 (pieces Q))) x = some b →
      b = 0 := by
    intro d
    induction d with
    | zero =>
      intro x b hle hb
      have hlt := (List.getElem?_eq_some_iff.mp (hole_of_lastAt hpos hwidths hb)).1
      omega
    | succ d ih =>
      intro x b hle hb
      have hnext := displaced_of_leaveSame hpos hwidths h hb
      cases hlast : Patch.lastAt (patches (fixes P ++ fixes Q) (relocationsAt 0 (pieces Q)))
          ((render (pieces P)).length + x) with
      | none =>
        rw [hlast] at hnext
        exact (Option.some.inj hnext).symm
      | some b' =>
        rw [hlast] at hnext
        rw [← Option.some.inj hnext]
        exact ih (by omega) hlast
  exact hchain (render (pieces Q)).length (Nat.le_add_left _ _) hb

end LeaveSame

end Displaced

/-! ## When merging gives the same bytes -/

/-- Merging gives the bytes of a single serializer whenever no patch is displaced, and exactly
    when the displaced patches leave the same bytes as those in place. Behind some bytes, as long
    as no relocation comes with a position and every fix is as wide as its fields, that takes
    that all fields of `Q` are patched with zeros. -/
theorem merge_sameBytes_iff (P Q : List Op) (hP : ∀ op ∈ P, op.Explicit)
    (hQ : ∀ op ∈ Q, op.Explicit) :
    (NoneDisplaced P Q → SameBytes P Q) ∧
    (SameBytes P Q ↔ Patch.LeaveSame (render (pieces P ++ pieces Q)) (patchesAt P Q 0)
      (patchesAt P Q (render (pieces P)).length)) ∧
    (NoPositions (pieces P ++ pieces Q) → WidthsFit (fixes P ++ fixes Q) (pieces P ++ pieces Q) →
      render (pieces P) ≠ [] → SameBytes P Q → ∀ x b,
        Patch.lastAt (patches (fixes P ++ fixes Q) (relocationsAt 0 (pieces Q))) x = some b →
        b = 0) := by
  have hiff : SameBytes P Q ↔ Patch.LeaveSame (render (pieces P ++ pieces Q)) (patchesAt P Q 0)
      (patchesAt P Q (render (pieces P)).length) := by
    rw [SameBytes, bytes_merged hP hQ, bytes_single hP hQ, orOutOfRange_inj,
      Patch.overwriteAll_eq_iff]
  refine ⟨fun h => hiff.mpr ?_, hiff, fun hpos hwidths hne h x b hb => ?_⟩
  · rw [patchesAt_of_noneDisplaced h]
    exact Patch.LeaveSame.refl _ _
  · exact zero_of_leaveSame hpos hwidths (hiff.mp h) hne hb

/-- A section of one byte. -/
def oneByte : List Op := [.ofSection { data := [0x90] }]

/-- A field of two bytes that is fixed later. -/
def fixedField : List Op := [
  .entry16 (.relocation (.withLabel (.ofElfHeader .numSectionHeaders))),
  .fixRelocation {
    value := some 5, labelToFix := .ofElfHeader .numSectionHeaders, valueSizeInBytes := 2 }]

theorem merge_sameBytes_fixedField :
    (NoneDisplaced oneByte fixedField → SameBytes oneByte fixedField) ∧
    (SameBytes oneByte fixedField ↔
      Patch.LeaveSame (render (pieces oneByte ++ pieces fixedField))
        (patchesAt oneByte fixedField 0)
        (patchesAt oneByte fixedField (render (pieces oneByte)).length)) ∧
    (NoPositions (pieces oneByte ++ pieces fixedField) →
      WidthsFit (fixes oneByte ++ fixes fixedField) (pieces oneByte ++ pieces fixedField) →
      render (pieces oneByte) ≠ [] → SameBytes oneByte fixedField → ∀ x b,
        Patch.lastAt (patches (fixes oneByte ++ fixes fixedField)
          (relocationsAt 0 (pieces fixedField))) x = some b →
        b = 0) :=
  merge_sameBytes_iff oneByte fixedField (by simp [oneByte, Op.Explicit, Op.fix?])
    (by simp [fixedField, Op.Explicit, Op.fix?])

/-- Merged behind one byte, the field is written over that byte. -/
theorem not_sameBytes_fixedField : ¬ SameBytes oneByte fixedField := by
  have hmerged : (({} : Serializer).run oneByte <<<
      ({} : Serializer).run fixedField).dumpToFile.map Dump.bytes = .ok [5, 0, 0] := by rfl
  have hsingle : (({} : Serializer).run (oneByte ++ fixedField)).dumpToFile.map Dump.bytes =
      .ok [0x90, 5, 0] := by rfl
  rw [SameBytes, hmerged, hsingle]
  decide

end Fiskas.MainV3
