import Fiskas.Elf64.Items
import Fiskas.Spec.SerializerBytes

/-!
# The serializer as a codec

Whatever values are streamed into a serializer, each one is appended behind what is there
already, with the number of bytes that its type says, and a reader that knows nothing but the
kinds of the values gets all of their fields back.

## Key results

- `out_value`: what one value appends
- `stream_readBack`: what a list of values appends
-/

namespace Fiskas

open Slice LittleEndian Elf64

/-- A value that is streamed into the serializer. -/
inductive Value where
  | elfHeader (h : ElfHeader)
  | sectionHeader (h : SectionHeader)
  | symbol (s : Symbol)
  | u8 (x : U8)
  | u16 (x : U16)
  | u32 (x : U32)
  | u64 (x : U64)
  | bytes (data : ByteVec)
deriving DecidableEq, Repr

namespace Value

/-- The overload of `operator<<` for the type of the value. -/
instance : HShiftLeft Serializer Value Serializer where
  hShiftLeft ser
    | .elfHeader h => ser <<< h
    | .sectionHeader h => ser <<< h
    | .symbol s => ser <<< s
    | .u8 x => ser <<< x
    | .u16 x => ser <<< x
    | .u32 x => ser <<< x
    | .u64 x => ser <<< x
    | .bytes data => ser <<< data

/-- `serialized_size()` of the three structs, `sizeof` of an integer and `size()` of a vector. -/
def serializedSize : Value → Nat
  | .elfHeader _ => ElfHeader.serializedSize.toNat
  | .sectionHeader _ => SectionHeader.serializedSize.toNat
  | .symbol _ => Symbol.serializedSize.toNat
  | .u8 _ => 1
  | .u16 _ => 2
  | .u32 _ => 4
  | .u64 _ => 8
  | .bytes data => data.length

/-- What a reader has to be told about a value. -/
def kind : Value → Kind
  | .elfHeader _ => .fileHeader
  | .sectionHeader _ => .sectionHeader
  | .symbol _ => .symbol
  | .u8 _ => .number 1
  | .u16 _ => .number 2
  | .u32 _ => .number 4
  | .u64 _ => .number 8
  | .bytes data => .raw data.length

/-- A value as the format has it. -/
def toElf : Value → Item
  | .elfHeader h => .fileHeader h.eIdent.toList h.toElf
  | .sectionHeader h => .sectionHeader h.toElf
  | .symbol s => .symbol s.toElf
  | .u8 x => .number 1 x.toNat
  | .u16 x => .number 2 x.toNat
  | .u32 x => .number 4 x.toNat
  | .u64 x => .number 8 x.toNat
  | .bytes data => .raw data

theorem kind_toElf (v : Value) : v.toElf.kind = v.kind := by cases v <;> rfl

/-- The fields of a value fit the widths that the format has for them. -/
theorem fits (v : Value) : v.toElf.Fits := by
  cases v with
  | elfHeader h => exact ⟨Vector.length_toList, h.fits⟩
  | sectionHeader h => exact h.fits
  | symbol s => exact s.fits
  | u8 x => exact x.isLt
  | u16 x => exact x.isLt
  | u32 x => exact x.isLt
  | u64 x => exact x.isLt
  | bytes data => trivial

/-- The format has as many bytes for a value as the source counts for it. -/
theorem length_bytes (v : Value) : v.toElf.bytes.length = v.serializedSize := by
  rw [Item.length_bytes v.fits]
  cases v <;> rfl

/-- No field is left out: a value is determined by what the format has for it. -/
theorem toElf_injective {v v' : Value} (h : v.toElf = v'.toElf) : v = v' := by
  have hkind : v.kind = v'.kind := by rw [← kind_toElf, h, kind_toElf]
  -- Values of one kind have one constructor; its fields are compared as numbers.
  cases v <;> cases v' <;> first | cases hkind | skip
  case elfHeader.elfHeader a b =>
    obtain ⟨⟩ := a
    obtain ⟨⟩ := b
    simp only [toElf, ElfHeader.toElf, Item.fileHeader.injEq, FileHeader.mk.injEq,
      Vector.toList_inj, BitVec.toNat_inj] at h
    simp only [h]
  case sectionHeader.sectionHeader a b =>
    obtain ⟨⟩ := a
    obtain ⟨⟩ := b
    simp only [toElf, SectionHeader.toElf, Item.sectionHeader.injEq, Elf64.SectionHeader.mk.injEq,
      BitVec.toNat_inj] at h
    simp only [h]
  case symbol.symbol a b =>
    obtain ⟨⟩ := a
    obtain ⟨⟩ := b
    simp only [toElf, Symbol.toElf, Item.symbol.injEq, SymbolRecord.mk.injEq,
      BitVec.toNat_inj] at h
    simp only [h]
  all_goals
    simpa only [toElf, Item.number.injEq, Item.raw.injEq, true_and, BitVec.toNat_inj, u8.injEq,
      u16.injEq, u32.injEq, u64.injEq, bytes.injEq] using h

end Value

namespace Serializer

/-- A value is appended with the bytes that the format has for it. -/
theorem out_value (ser : Serializer) (v : Value) : (ser <<< v).out = ser.out ++ v.toElf.bytes := by
  cases v with
  | elfHeader h => exact out_elfHeader ser h
  | sectionHeader h => exact out_sectionHeader ser h
  | symbol s => exact out_symbol ser s
  | u8 x => exact out_unsigned ser x
  | u16 x => exact out_unsigned ser x
  | u32 x => exact out_unsigned ser x
  | u64 x => exact out_unsigned ser x
  | bytes data => exact out_bytes ser data

/-- A list of values is appended with the bytes of each. -/
theorem out_values (ser : Serializer) (values : List Value) :
    (ser <<< values).out =
      ser.out ++ ((values.map Value.toElf).map Item.bytes).flatten := by
  rw [out_vector out_value, List.map_map]
  rfl

/-- Serialized symbols stand at the multiples of the size of a symbol, behind the output that
    was there before. -/
theorem readSymbolRecord_symbols (ser : Serializer) {syms : List Symbol} {i : Nat} {sym : Symbol}
    (hi : syms[i]? = some sym) :
    readSymbolRecord (ser <<< syms).out (ser.out.length + i * Symbol.serializedSize.toNat) =
      some sym.toElf := by
  have hpart : (syms.map fun s => s.toElf.bytes)[i]? = some sym.toElf.bytes := by
    rw [List.getElem?_map, hi]
    rfl
  have hlength : ∀ part ∈ syms.map fun s => s.toElf.bytes,
      part.length = Symbol.serializedSize.toNat :=
    List.forall_mem_map.mpr fun s _ => SymbolRecord.length_bytes s.toElf
  have hat := (isAt_flatten_of_length hlength hpart).append_left ser.out
  rw [out_vector out_symbol]
  exact readSymbolRecord_of_isAt hat sym.fits

/-- The bytes of values are read back to the values. -/
private theorem readItems_values (values : List Value) :
    readItems ((values.map Value.toElf).map Item.bytes).flatten 0 (values.map Value.kind) =
      some (values.map Value.toElf) := by
  have hkinds : values.map Value.kind = (values.map Value.toElf).map Item.kind := by
    rw [List.map_map]
    exact List.map_congr_left fun v _ => v.kind_toElf.symm
  rw [hkinds]
  apply readItems_of_isAt (.refl _)
  exact List.forall_mem_map.mpr fun v _ => v.fits

/-- The output determines the values, once their kinds are known. -/
theorem out_values_injective {ser : Serializer} {values values' : List Value}
    (hkinds : values.map Value.kind = values'.map Value.kind)
    (h : (ser <<< values).out = (ser <<< values').out) : values = values' := by
  rw [out_values, out_values, List.append_cancel_left_eq] at h
  have hread := readItems_values values
  rw [h, hkinds, readItems_values, Option.some.injEq] at hread
  exact (List.map_inj_right fun v v' => Value.toElf_injective).mp hread.symm

/-- Streaming values appends to the output: each value takes the number of bytes that its type
    says, and a reader that is told the kinds of the values gets every field of each of them,
    in order. The records of a vector of symbols stand at the multiples of their size. -/
theorem stream_readBack (ser : Serializer) (values : List Value) :
    (∃ parts : List ByteVec, (ser <<< values).out = ser.out ++ parts.flatten ∧
        List.Forall₂ (fun part v => part.length = v.serializedSize) parts values ∧
        readItems parts.flatten 0 (values.map Value.kind) = some (values.map Value.toElf)) ∧
      ∀ syms : List Symbol,
        (List.range syms.length).mapM (fun i => readSymbolRecord (ser <<< syms).out
          (ser.out.length + i * Symbol.serializedSize.toNat)) = some (syms.map Symbol.toElf) := by
  constructor
  · refine ⟨(values.map Value.toElf).map Item.bytes, out_values ser values, ?_,
      readItems_values values⟩
    rw [List.map_map, List.forall₂_map_left_iff, List.forall₂_same]
    exact fun v _ => v.length_bytes
  · intro syms
    apply List.mapM_eq_some_of_forall₂
    rw [List.forall₂_map_right_iff, List.forall₂_iff_get]
    refine ⟨List.length_range, fun i _ hi => ?_⟩
    rw [List.get_eq_getElem, List.get_eq_getElem, List.getElem_range]
    exact readSymbolRecord_symbols ser (List.getElem?_eq_getElem hi)

end Serializer

end Fiskas
