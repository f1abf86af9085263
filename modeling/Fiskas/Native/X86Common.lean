import Fiskas.Native.Base

/-!
# x86 common

`fiskas/x86_common.hh` and `fiskas/x86_common.cc`: the ModRM and REX byte builders, the
register names and the tables that map a register name to its spelling, its bit width, its
three-bit index and its need for a REX extension bit.
-/

namespace Fiskas

/-! ## ModRM byte -/

/-- `struct ModRm`: a byte that the setters fill in. -/
structure ModRm where
  byte : U8 := 0
deriving DecidableEq, Repr

namespace ModRm

def registerAddressing : U8 := 0b11

def mod (m : ModRm) (value : U8) : Except Abort ModRm := do
  fiskaAssert (value ≤ 3) "value <= 3"
    ("Mod value '" ++ toString value.toNat ++ "' in ModRM byte can't be bigger than 0b11")
  return { byte := m.byte ||| (value <<< 6) }

def reg (m : ModRm) (value : U8) : Except Abort ModRm := do
  fiskaAssert (value ≤ 7) "value <= 7"
    ("Reg value '" ++ toString value.toNat ++ "' in ModRM byte can't be bigger than 0b111")
  return { byte := m.byte ||| (value <<< 3) }

def rm (m : ModRm) (value : U8) : Except Abort ModRm := do
  fiskaAssert (value ≤ 7) "value <= 7"
    ("r/m value '" ++ toString value.toNat ++ "' in ModRM byte can't be bigger than 0b111")
  return { byte := m.byte ||| value }

def value (m : ModRm) : U8 := m.byte

end ModRm

/-! ## REX prefix -/

/-- A `bool` promoted to an integer. -/
def ofBool (b : Bool) : U8 := if b then 1 else 0

/-- `struct Rex`: a byte that the setters fill in. -/
structure Rex where
  byte : U8 := 0
deriving DecidableEq, Repr

namespace Rex

def fixedField : U8 := 0b0100#8 <<< 4
def wBit : U8 := 1#8 <<< 3
def rBit : U8 := 1#8 <<< 2
def xBit : U8 := 1#8 <<< 1
def bBit : U8 := 1#8 <<< 0

def w (rex : Rex) (needWPrefix : Bool) : Rex :=
  { byte := rex.byte ||| (ofBool needWPrefix * wBit) }

def r (rex : Rex) (needRPrefix : Bool) : Rex :=
  { byte := rex.byte ||| (ofBool needRPrefix * rBit) }

/-- The source ORs in the `bool` itself, not `x_bit`. -/
def x (rex : Rex) (needXPrefix : Bool) : Rex :=
  { byte := rex.byte ||| ofBool needXPrefix }

def b (rex : Rex) (needBPrefix : Bool) : Rex :=
  { byte := rex.byte ||| ofBool needBPrefix }

/-- No prefix is needed when no bit is set. -/
def value (rex : Rex) : U8 :=
  if rex.byte = 0 then 0 else fixedField ||| rex.byte

end Rex

/-! ## Bit widths -/

/-- `enum struct BitWidth : u16`. -/
inductive BitWidth where
  | b8 | b16 | b32 | b64
deriving DecidableEq, Repr

/-- `operator+`: the underlying value of a bit width. -/
def BitWidth.toUnderlying : BitWidth → Nat
  | .b8 => 8 | .b16 => 16 | .b32 => 32 | .b64 => 64

/-! ## Register names -/

/-- `enum struct RegName`: the 64-bit, the 32-bit and the 8-bit general purpose registers,
    then the segment registers. -/
inductive RegName where
  | rax | rbx | rcx | rdx | rbp | rsi | rdi | rsp | r8 | r9 | r10 | r11 | r12 | r13 | r14
  | r15 | eax | ebx | ecx | edx | ebp | esi | edi | esp | r8d | r9d | r10d | r11d | r12d
  | r13d | r14d | r15d | al | cl | dl | bl | ah | ch | dh | bh | spl | bpl | sil | dil | r8b
  | r9b | r10b | r11b | r12b | r13b | r14b | r15b | cs | ds | ss | es | fs | gs
deriving DecidableEq, Repr

/-- The register names the parser knows, with the registers they stand for. -/
def regnames : StringMap RegName := [
  (str "rax", .rax),
  (str "rbx", .rbx),
  (str "rcx", .rcx),
  (str "rdx", .rdx),
  (str "rbp", .rbp),
  (str "rsi", .rsi),
  (str "rdi", .rdi),
  (str "rsp", .rsp),
  (str "r8", .r8),
  (str "r9", .r9),
  (str "r10", .r10),
  (str "r11", .r11),
  (str "r12", .r12),
  (str "r13", .r13),
  (str "r14", .r14),
  (str "r15", .r15)]

def strOfRegName (regName : RegName) : ByteVec :=
  str <| match regName with
    | .rax => "RAX" | .rbx => "RBX" | .rcx => "RCX" | .rdx => "RDX" | .rbp => "RBP"
    | .rsi => "RSI" | .rdi => "RDI" | .rsp => "RSP" | .r8 => "R8" | .r9 => "R9"
    | .r10 => "R10" | .r11 => "R11" | .r12 => "R12" | .r13 => "R13" | .r14 => "R14"
    | .r15 => "R15" | .eax => "EAX" | .ebx => "EBX" | .ecx => "ECX" | .edx => "EDX"
    | .ebp => "EBP" | .esi => "ESI" | .edi => "EDI" | .esp => "ESP" | .r8d => "R8D"
    | .r9d => "R9D" | .r10d => "R10D" | .r11d => "R11D" | .r12d => "R12D" | .r13d => "R13D"
    | .r14d => "R14D" | .r15d => "R15D" | .cs => "CS" | .ds => "DS" | .ss => "SS"
    | .es => "ES" | .fs => "FS" | .gs => "GS" | .al => "AL" | .cl => "CL" | .dl => "DL"
    | .bl => "BL" | .ah => "AH" | .ch => "CH" | .dh => "DH" | .bh => "BH" | .spl => "SPL"
    | .bpl => "BPL" | .sil => "SIL" | .dil => "DIL" | .r8b => "R8B" | .r9b => "R9B"
    | .r10b => "R10B" | .r11b => "R11B" | .r12b => "R12B" | .r13b => "R13B"
    | .r14b => "R14B" | .r15b => "R15B"

/-- `reg_name_of_str_pnc`: aborts on a text that names no register. -/
def regNameOfStrPnc (regName : ByteVec) : Except Abort RegName := do
  fiskaAssert (regnames.contains regName) "regnames.contains(reg_name)"
    ("Unrecognized register name '" ++ formatStr regName ++ "'")
  match regnames.find regName with
  | some name => return name
  | none => fiskaUnreachable

def bitWidthOfRegName : RegName → BitWidth
  | .rax | .rbx | .rcx | .rdx | .rbp | .rsi | .rdi | .rsp | .r8 | .r9 | .r10 | .r11 | .r12
  | .r13 | .r14 | .r15 => .b64
  | .eax | .ebx | .ecx | .edx | .ebp | .esi | .edi | .esp | .r8d | .r9d | .r10d | .r11d
  | .r12d | .r13d | .r14d | .r15d => .b32
  | .cs | .ds | .ss | .es | .fs | .gs => .b16
  | .al | .cl | .dl | .bl | .ah | .ch | .dh | .bh | .spl | .bpl | .sil | .dil | .r8b | .r9b
  | .r10b | .r11b | .r12b | .r13b | .r14b | .r15b => .b8

def indexOfRegName : RegName → U8
  | .rax | .eax | .al | .r8 | .r8d | .r8b | .es => 0
  | .rcx | .ecx | .cl | .r9 | .r9d | .r9b | .cs => 1
  | .rdx | .edx | .dl | .r10 | .r10d | .r10b | .ss => 2
  | .rbx | .ebx | .bl | .r11 | .r11d | .r11b | .ds => 3
  | .rsp | .esp | .ah | .spl | .r12 | .r12d | .r12b | .fs => 4
  | .rbp | .ebp | .ch | .bpl | .r13 | .r13d | .r13b | .gs => 5
  | .rsi | .esi | .dh | .sil | .r14 | .r14d | .r14b => 6
  | .rdi | .edi | .dil | .bh | .r15 | .r15d | .r15b => 7

def requiresRexExtension : RegName → Bool
  | .spl | .bpl | .sil | .dil | .r8 | .r9 | .r10 | .r11 | .r12 | .r13 | .r14 | .r15 | .r8d
  | .r9d | .r10d | .r11d | .r12d | .r13d | .r14d | .r15d | .r8b | .r9b | .r10b | .r11b
  | .r12b | .r13b | .r14b | .r15b => true
  | .rax | .eax | .rcx | .ecx | .rdx | .edx | .rbx | .ebx | .rsp | .esp | .rbp | .ebp | .rsi
  | .esi | .rdi | .edi | .cs | .ds | .ss | .es | .fs | .gs | .al | .cl | .dl | .bl | .ah
  | .ch | .dh | .bh => false

def isSegmentRegister (regName : RegName) : Bool :=
  oneOf regName [.cs, .ds, .ss, .es, .fs, .gs]

/-- `struct Reg`: a register name together with a width. -/
structure Reg where
  name : RegName
  width : BitWidth
deriving DecidableEq, Repr

end Fiskas
