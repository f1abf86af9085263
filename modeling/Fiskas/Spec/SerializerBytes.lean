import Fiskas.Elf64.Reader
import Fiskas.Native.Serializer

/-!
# What the serializer appends

Every overload of `operator<<` leaves the output as it is and appends to it: an unsigned
integer its little-endian bytes, a vector the bytes of its elements, and each record of the
object file the row of its fields as the format has it.

## Key results

- `out_unsigned`, `out_vector`: integers and vectors
- `out_elfHeader`, `out_symbol`, `out_sectionHeader`: the records
-/

namespace Fiskas

open LittleEndian

/-! ## Records as the format has them -/

/-- A section header with its fields as numbers. -/
def SectionHeader.toElf (h : SectionHeader) : Elf64.SectionHeader where
  name := h.shName.toNat
  type := h.shType.toNat
  flags := h.shFlags.toNat
  addr := h.shAddr.toNat
  offset := h.shOffset.toNat
  size := h.shSize.toNat
  link := h.shLink.toNat
  info := h.shInfo.toNat
  addralign := h.shAddralign.toNat
  entsize := h.shEntsize.toNat

/-- A symbol with its fields as numbers. -/
def Symbol.toElf (s : Symbol) : Elf64.SymbolRecord where
  name := s.stName.toNat
  info := s.stInfo.toNat
  other := s.stOther.toNat
  shndx := s.stShndx.toNat
  value := s.stValue.toNat
  size := s.stSize.toNat

/-- A file header with its fields, but the identification, as numbers. -/
def ElfHeader.toElf (h : ElfHeader) : Elf64.FileHeader where
  type := h.eType.toNat
  machine := h.eMachine.toNat
  version := h.eVersion.toNat
  entry := h.eEntry.toNat
  phoff := h.ePhoff.toNat
  shoff := h.eShoff.toNat
  flags := h.eFlags.toNat
  ehsize := h.eEhsize.toNat
  phentsize := h.ePhentsize.toNat
  phnum := h.ePhnum.toNat
  shentsize := h.eShentsize.toNat
  shnum := h.eShnum.toNat
  shstrndx := h.eShstrndx.toNat

/-- The fields of a section header fit their widths. -/
theorem SectionHeader.fits (h : SectionHeader) : RecordFits h.toElf.fields := by
  simp only [RecordFits, Elf64.SectionHeader.fields, SectionHeader.toElf, List.forall_mem_cons,
    List.not_mem_nil, false_implies, implies_true, and_true]
  exact ⟨h.shName.isLt, h.shType.isLt, h.shFlags.isLt, h.shAddr.isLt, h.shOffset.isLt,
    h.shSize.isLt, h.shLink.isLt, h.shInfo.isLt, h.shAddralign.isLt, h.shEntsize.isLt⟩

/-- The fields of a symbol fit their widths. -/
theorem Symbol.fits (s : Symbol) : RecordFits s.toElf.fields := by
  simp only [RecordFits, Elf64.SymbolRecord.fields, Symbol.toElf, List.forall_mem_cons,
    List.not_mem_nil, false_implies, implies_true, and_true]
  exact ⟨s.stName.isLt, s.stInfo.isLt, s.stOther.isLt, s.stShndx.isLt, s.stValue.isLt,
    s.stSize.isLt⟩

/-- The fields of a file header fit their widths. -/
theorem ElfHeader.fits (h : ElfHeader) : RecordFits h.toElf.fields := by
  simp only [RecordFits, Elf64.FileHeader.fields, ElfHeader.toElf, List.forall_mem_cons,
    List.not_mem_nil, false_implies, implies_true, and_true]
  exact ⟨h.eType.isLt, h.eMachine.isLt, h.eVersion.isLt, h.eEntry.isLt, h.ePhoff.isLt,
    h.eShoff.isLt, h.eFlags.isLt, h.eEhsize.isLt, h.ePhentsize.isLt, h.ePhnum.isLt,
    h.eShentsize.isLt, h.eShnum.isLt, h.eShstrndx.isLt⟩

namespace Serializer

/-! ## Integers and vectors -/

/-- The lowest byte of a value. -/
theorem lowest_byte {w : Nat} (value : BitVec w) :
    (value &&& 0xff).setWidth 8 = BitVec.ofNat 8 value.toNat := by
  -- The mask keeps the eight lowest bits.
  have hmask : ∀ i, i < 8 → Nat.testBit 255 i = true := by decide
  ext i hi
  simp only [BitVec.getElem_setWidth, BitVec.getLsbD_and, BitVec.ofNat_eq_ofNat,
    BitVec.getLsbD_ofNat, hmask i hi, Bool.and_true, BitVec.ofNat_toNat]
  -- A bit of the value is below its width.
  cases hbit : value.getLsbD i with
  | false => rfl
  | true =>
    have hlt : i < w := BitVec.lt_of_getLsbD hbit
    simp [hlt]

/-- The loop pushes the bytes of the value, the lowest first. -/
theorem pushBytes_eq {w : Nat} (out : ByteVec) (value : BitVec w) (n : Nat) :
    pushBytes out value n = out ++ bytes n value.toNat := by
  induction n generalizing out value with
  | zero => rw [pushBytes, bytes, List.append_nil]
  | succ n ih =>
    -- The next round sees the value without its lowest byte.
    have hshift : (value >>> 8).toNat = value.toNat / 256 := by
      rw [BitVec.toNat_ushiftRight, Nat.shiftRight_eq_div_pow]
    rw [pushBytes, ih, bytes, hshift, lowest_byte, List.append_assoc]
    rfl

/-- An unsigned integer is appended in little-endian order. -/
theorem out_unsigned (ser : Serializer) {w : Nat} (value : BitVec w) :
    (ser <<< value).out = ser.out ++ bytes (w / 8) value.toNat := pushBytes_eq _ _ _

/-- A vector is appended element by element. -/
theorem out_vector {T : Type} [HShiftLeft Serializer T Serializer] {enc : T → ByteVec}
    (henc : ∀ (ser : Serializer) (x : T), (ser <<< x).out = ser.out ++ enc x)
    (ser : Serializer) (data : List T) :
    (ser <<< data).out = ser.out ++ (data.map enc).flatten := by
  show (data.foldl (fun ser elem => ser <<< elem) ser).out = _
  induction data generalizing ser with
  | nil => rw [List.foldl_nil, List.map_nil, List.flatten_nil, List.append_nil]
  | cons x xs ih =>
    rw [List.foldl_cons, ih, henc, List.map_cons, List.flatten_cons, List.append_assoc]

/-- A byte vector is appended as it is. -/
theorem out_bytes (ser : Serializer) (data : ByteVec) : (ser <<< data).out = ser.out ++ data := by
  have hbyte : ∀ (ser : Serializer) (x : U8), (ser <<< x).out = ser.out ++ [x] := by
    intro ser x
    rw [out_unsigned]
    show ser.out ++ [BitVec.ofNat 8 x.toNat] = ser.out ++ [x]
    rw [BitVec.ofNat_toNat, BitVec.setWidth_eq]
  rw [out_vector hbyte]
  congr 1
  induction data with
  | nil => rfl
  | cons x xs ih =>
    rw [List.map_cons, List.flatten_cons, ih]
    rfl

/-- An array is appended as it is. -/
theorem out_array (ser : Serializer) {n : Nat} (data : Vector U8 n) :
    (ser <<< data).out = ser.out ++ data.toList := rfl

/-! ## Records -/

/-- A section header is appended as the row of its fields. -/
theorem out_sectionHeader (ser : Serializer) (h : SectionHeader) :
    (ser <<< h).out = ser.out ++ h.toElf.bytes := by
  show (ser <<< h.shName <<< h.shType <<< h.shFlags <<< h.shAddr <<< h.shOffset <<< h.shSize
    <<< h.shLink <<< h.shInfo <<< h.shAddralign <<< h.shEntsize).out = _
  simp only [out_unsigned, List.append_assoc]
  simp only [Elf64.SectionHeader.bytes, Elf64.SectionHeader.fields, recordBytes,
    SectionHeader.toElf, List.map_cons, List.map_nil, List.flatten_cons, List.flatten_nil,
    List.append_nil]

/-- A symbol is appended as the row of its fields. -/
theorem out_symbol (ser : Serializer) (s : Symbol) :
    (ser <<< s).out = ser.out ++ s.toElf.bytes := by
  show (ser <<< s.stName <<< s.stInfo <<< s.stOther <<< s.stShndx <<< s.stValue
    <<< s.stSize).out = _
  simp only [out_unsigned, List.append_assoc]
  simp only [Elf64.SymbolRecord.bytes, Elf64.SymbolRecord.fields, recordBytes, Symbol.toElf,
    List.map_cons, List.map_nil, List.flatten_cons, List.flatten_nil, List.append_nil]

/-- A file header is appended as its identification and the row of its fields. -/
theorem out_elfHeader (ser : Serializer) (h : ElfHeader) :
    (ser <<< h).out = ser.out ++ (h.eIdent.toList ++ h.toElf.bytes) := by
  show (ser <<< h.eIdent <<< h.eType <<< h.eMachine <<< h.eVersion <<< h.eEntry <<< h.ePhoff
    <<< h.eShoff <<< h.eFlags <<< h.eEhsize <<< h.ePhentsize <<< h.ePhnum <<< h.eShentsize
    <<< h.eShnum <<< h.eShstrndx).out = _
  simp only [out_unsigned, out_array, List.append_assoc]
  simp only [Elf64.FileHeader.bytes, Elf64.FileHeader.fields, recordBytes, ElfHeader.toElf,
    List.map_cons, List.map_nil, List.flatten_cons, List.flatten_nil, List.append_nil]

end Serializer

end Fiskas
