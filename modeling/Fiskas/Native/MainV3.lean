import Fiskas.Native.Serializer

/-!
# The serializer with entries

`cemetery/main_v3.cc`: a later serializer, whose headers and symbols consist of entries. An entry
is a value or a relocation, which stands for a value that is not known yet: it is written as
zero, and its position is recorded unless it comes with one. A fix gives the value for a label,
and `dump_to_file` writes it at every relocation with that label.

Positions in the buffer are natural numbers: the elements of a vector are far fewer than `2 ^ 64`.
-/

namespace Fiskas.MainV3

/-! ## Relocations -/

/-- `enum struct SectionType`. -/
inductive SectionType where
  | sectionHeaderStringTable | null | text | symTab | symTabStringTable | invalid
deriving DecidableEq, Repr

/-- `enum struct ElfHeaderRelocationLabel`. -/
inductive ElfHeaderRelocationLabel where
  | sectionHeaderTableOffset | sectionHeaderStrTabIdx | numSectionHeaders | invalid
deriving DecidableEq, Repr

/-- `SectionRelocationLabel::Label`. -/
inductive SectionRelocationLabel.Label where
  | sectionName | sectionOffset | sectionSize | textSectionIdx | link | info | invalid
deriving DecidableEq, Repr

/-- `SectionRelocationLabel`. -/
structure SectionRelocationLabel where
  sectionType : SectionType := .invalid
  label : SectionRelocationLabel.Label := .invalid
deriving DecidableEq, Repr

/-- `Relocation::LabelType`, a variant. -/
inductive LabelType where
  | ofElfHeader (label : ElfHeaderRelocationLabel)
  | ofSection (label : SectionRelocationLabel)
deriving DecidableEq, Repr

/-- `Relocation`. -/
structure Relocation where
  offset : Option Nat := none
  label : LabelType
deriving DecidableEq, Repr

/-- `Relocation::with_label`. -/
def Relocation.withLabel (label : LabelType) : Relocation := { offset := none, label }

/-- `RelocationFixInfo`. -/
structure RelocationFixInfo where
  value : Option U64 := none
  labelToFix : LabelType
  valueSizeInBytes : U16
deriving DecidableEq, Repr

/-! ## Entries -/

/-- `Entry<Value>`, a variant. -/
inductive Entry (Value : Type) where
  | value (v : Value)
  | relocation (r : Relocation)
deriving DecidableEq, Repr

structure ElfHeader where
  eIdent : Entry (Vector U8 16) := .value (Vector.replicate 16 0)
  eType : Entry U16 := .value 0
  eMachine : Entry U16 := .value 0
  eVersion : Entry U32 := .value 0
  eEntry : Entry U64 := .value 0
  ePhoff : Entry U64 := .value 0
  eShoff : Entry U64 := .value 0
  eFlags : Entry U32 := .value 0
  eEhsize : Entry U16 := .value 0
  ePhentsize : Entry U16 := .value 0
  ePhnum : Entry U16 := .value 0
  eShentsize : Entry U16 := .value 0
  eShnum : Entry U16 := .value 0
  eShstrndx : Entry U16 := .value 0
deriving DecidableEq, Repr

structure SectionHeader where
  shName : Entry U32 := .value 0
  shType : Entry U32 := .value 0
  shFlags : Entry U64 := .value 0
  shAddr : Entry U64 := .value 0
  shOffset : Entry U64 := .value 0
  shSize : Entry U64 := .value 0
  shLink : Entry U32 := .value 0
  shInfo : Entry U32 := .value 0
  shAddralign : Entry U64 := .value 0
  shEntsize : Entry U64 := .value 0
deriving DecidableEq, Repr

structure Symbol where
  stName : Entry U32 := .value 0
  stInfo : Entry U8 := .value 0
  stOther : Entry U8 := .value 0
  stShndx : Entry U16 := .value 0
  stValue : Entry U64 := .value 0
  stSize : Entry U64 := .value 0
deriving DecidableEq, Repr

structure Section where
  data : ByteVec := []
deriving DecidableEq, Repr

/-! ## Serializer -/

structure Serializer where
  buffer : ByteVec := []
  relocations : List Relocation := []
  relocationFixes : List RelocationFixInfo := []
deriving DecidableEq, Repr

/-- The overloads of `serialize`, which append a value to the buffer, and the value `T{}`. -/
class Serialize (T : Type) where
  serialize : ByteVec → T → ByteVec
  zero : T

open Serialize

/-- `serialize(T value)` for an unsigned integer. -/
instance (w : Nat) : Serialize (BitVec w) where
  serialize buffer value := Fiskas.Serializer.pushBytes buffer value (w / 8)
  zero := 0

/-- `serialize(std::array<T, size> arr)`. -/
instance (size : Nat) : Serialize (Vector U8 size) where
  serialize buffer arr := extend buffer arr.toList
  zero := Vector.replicate size 0

/-- `serialize(const ByteVec &vec)`. -/
instance : Serialize ByteVec where
  serialize buffer vec := extend buffer vec
  zero := []

namespace Serializer

/-- `operator<<(const Entry<T> &entry)`. -/
instance (T : Type) [Serialize T] : HShiftLeft Serializer (Entry T) Serializer where
  hShiftLeft ser entry :=
    match entry with
    | .value v => { ser with buffer := serialize ser.buffer v }
    | .relocation reloc =>
      let reloc := { reloc with offset := some (reloc.offset.getD ser.buffer.length) }
      { ser with
        relocations := ser.relocations ++ [reloc]
        buffer := serialize ser.buffer (zero : T) }

/-- `operator<<(const Serializer &other)`. -/
instance : HShiftLeft Serializer Serializer Serializer where
  hShiftLeft ser other :=
    { buffer := extend ser.buffer other.buffer
      relocations := extend ser.relocations other.relocations
      relocationFixes := extend ser.relocationFixes other.relocationFixes }

instance : HShiftLeft Serializer ElfHeader Serializer where
  hShiftLeft ser elfHeader :=
    ser <<< elfHeader.eIdent
      <<< elfHeader.eType
      <<< elfHeader.eMachine
      <<< elfHeader.eVersion
      <<< elfHeader.eEntry
      <<< elfHeader.ePhoff
      <<< elfHeader.eShoff
      <<< elfHeader.eFlags
      <<< elfHeader.eEhsize
      <<< elfHeader.ePhentsize
      <<< elfHeader.ePhnum
      <<< elfHeader.eShentsize
      <<< elfHeader.eShnum
      <<< elfHeader.eShstrndx

instance : HShiftLeft Serializer SectionHeader Serializer where
  hShiftLeft ser sectionHeader :=
    ser <<< sectionHeader.shName
      <<< sectionHeader.shType
      <<< sectionHeader.shFlags
      <<< sectionHeader.shAddr
      <<< sectionHeader.shOffset
      <<< sectionHeader.shSize
      <<< sectionHeader.shLink
      <<< sectionHeader.shInfo
      <<< sectionHeader.shAddralign
      <<< sectionHeader.shEntsize

instance : HShiftLeft Serializer Symbol Serializer where
  hShiftLeft ser sym :=
    ser <<< sym.stName
      <<< sym.stInfo
      <<< sym.stOther
      <<< sym.stShndx
      <<< sym.stValue
      <<< sym.stSize

instance : HShiftLeft Serializer Section Serializer where
  hShiftLeft ser sec := { ser with buffer := serialize ser.buffer sec.data }

/-- `fix_relocation`: a missing value is the size of the buffer. -/
def fixRelocation (ser : Serializer) (relocFixInfo : RelocationFixInfo) : Serializer :=
  let patchedRelocFix :=
    { relocFixInfo with value := some (relocFixInfo.value.getD (ByteVec.size ser.buffer)) }
  { ser with relocationFixes := ser.relocationFixes ++ [patchedRelocFix] }

end Serializer

/-! ## Operations -/

/-- What can be done with a serializer before its file is written. -/
inductive Op where
  | entry8 (e : Entry U8)
  | entry16 (e : Entry U16)
  | entry32 (e : Entry U32)
  | entry64 (e : Entry U64)
  | entryArray (size : Nat) (e : Entry (Vector U8 size))
  | elfHeader (h : ElfHeader)
  | sectionHeader (h : SectionHeader)
  | symbol (s : Symbol)
  | ofSection (s : Section)
  | fixRelocation (info : RelocationFixInfo)

namespace Serializer

def apply (ser : Serializer) : Op → Serializer
  | .entry8 e => ser <<< e
  | .entry16 e => ser <<< e
  | .entry32 e => ser <<< e
  | .entry64 e => ser <<< e
  | .entryArray _ e => ser <<< e
  | .elfHeader h => ser <<< h
  | .sectionHeader h => ser <<< h
  | .symbol s => ser <<< s
  | .ofSection s => ser <<< s
  | .fixRelocation info => ser.fixRelocation info

/-- One operation after the other. -/
def run (ser : Serializer) (ops : List Op) : Serializer := ops.foldl apply ser

end Serializer

/-! ## Writing the file -/

/-- What `dump_to_file` writes, and the counts that it compares. -/
structure Dump where
  bytes : ByteVec
  relocationsFound : U64
  relocationsFixed : U64
deriving DecidableEq, Repr

/-- The loop over the bytes of a value: write the lowest byte, shift it out. -/
def writeValue (buffer : ByteVec) (pos : Nat) (realValue : U64) : Nat → Except Stop ByteVec
  | 0 => .ok buffer
  | n + 1 => do
    let buffer ← buffer.store pos ((realValue &&& 0xff).setWidth 8)
    writeValue buffer (pos + 1) (realValue >>> 8) n

/-- One round of the inner loop, with the buffer and `relocations_fixed`. -/
def fixOne (relocFixInfo : RelocationFixInfo) (acc : ByteVec × U64) (reloc : Relocation) :
    Except Stop (ByteVec × U64) :=
  let (buffer, relocationsFixed) := acc
  if reloc.label ≠ relocFixInfo.labelToFix then .ok acc
  else
    match reloc.offset with
    | none => .error (.exit "Relocation offset does not have a value\nAborting...\n")
    | some offset =>
      match relocFixInfo.value with
      | none => .error .badOptionalAccess
      | some realValue => do
        let buffer ← writeValue buffer offset realValue relocFixInfo.valueSizeInBytes.toNat
        return (buffer, relocationsFixed + 1)

/-- `dump_to_file`, up to the bytes that it hands to `File::write`. It only prints a message when
    the counts differ. -/
def Serializer.dumpToFile (ser : Serializer) : Except Stop Dump := do
  let (buffer, relocationsFixed) ← ser.relocationFixes.foldlM
    (fun acc relocFixInfo => ser.relocations.foldlM (fixOne relocFixInfo) acc) (ser.buffer, 0)
  return {
    bytes := buffer, relocationsFound := BitVec.ofNat 64 ser.relocations.length,
    relocationsFixed }

/-- `dump_to_file` with the serializer that it leaves, whose buffer has the patches. -/
def Serializer.dumpInPlace (ser : Serializer) : Except Stop (Dump × Serializer) := do
  let dump ← ser.dumpToFile
  return (dump, { ser with buffer := dump.bytes })

end Fiskas.MainV3
