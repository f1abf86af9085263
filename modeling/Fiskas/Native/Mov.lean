import Fiskas.Native.X86Common
import Fiskas.Native.Parser

/-!
# The mov instruction

`fiskas/x86_instructions/mov/mov.hh` and `mov.cc`: the semantic check, the encoder and the
parser of `mov` between two registers. The other kinds of `mov` have an enumerator only: no
code builds one and `encode` refuses them.
-/

namespace Fiskas

/-- `struct MovRegToReg`. -/
structure MovRegToReg where
  dst : Reg
  src : Reg
deriving DecidableEq, Repr

namespace MovRegToReg

/-- The check made when the widths of the operands differ. -/
def validateDifferentWidths (m : MovRegToReg) : Except Abort Unit := do
  fiskaAssert (isSegmentRegister m.src.name || isSegmentRegister m.dst.name)
    "is_segment_register(src.name) or is_segment_register(dst.name)"
    ("Register size mismatch in mov instruction. src regsiter width = '" ++
      toString m.src.width.toUnderlying ++ "' and dst register width = '" ++
      toString m.dst.width.toUnderlying ++ "' bits")
  if isSegmentRegister m.src.name then
    fiskaAssert (oneOf m.dst.width [.b16, .b32, .b64]) "one_of(dst.width, b16, b32, b64)"
      ("Destination register must be either r16/32/64. Dst width = '" ++
        toString m.dst.width.toUnderlying ++ "' bits")
  else
    fiskaAssert (oneOf m.src.width [.b16, .b64]) "one_of(src.width, b16, b64)"
      ("Source register must be r16/64 when moving data to a segment register. Src width = '" ++
        toString m.src.width.toUnderlying ++ "' bits")

/-- The check made when the operands have the same width: AH, BH, CH and DH cannot be
    addressed next to a REX prefix. -/
def validateSameWidth (m : MovRegToReg) : Except Abort Unit :=
  let rexPrefix := ((({} : Rex).r (requiresRexExtension m.src.name)).b
    (requiresRexExtension m.dst.name)).value
  if m.src.width = .b8 ∧ rexPrefix ≠ 0 then
    fiskaAssert (!oneOf m.src.name [.ah, .bh, .ch, .dh] && !oneOf m.dst.name [.ah, .bh, .ch, .dh])
      "(not one_of(src.name, Ah, Bh, Ch, Dh)) and (not one_of(dst.name, Ah, Bh, Ch, Dh))"
      "Registers AH, BH, CH, DH can't be addressed when a REX prefix is present"
  else
    return ()

def validateSemantics (m : MovRegToReg) : Except Abort Unit :=
  if m.dst.width ≠ m.src.width then m.validateDifferentWidths else m.validateSameWidth

/-- The ModRM byte: `dst` goes to the r/m field and `src` to the reg field. -/
def modrmByte (m : MovRegToReg) : Except Abort U8 := do
  let modrm ← ({} : ModRm).mod ModRm.registerAddressing
  let modrm ← modrm.rm (indexOfRegName m.dst.name)
  let modrm ← modrm.reg (indexOfRegName m.src.name)
  return modrm.value

def rexPrefix (m : MovRegToReg) : U8 :=
  ((({} : Rex).w (max m.src.width.toUnderlying m.dst.width.toUnderlying = 64)).r
    (requiresRexExtension m.src.name)).b (requiresRexExtension m.dst.name) |>.value

def opcode (m : MovRegToReg) : U8 :=
  if isSegmentRegister m.src.name || isSegmentRegister m.dst.name then
    if isSegmentRegister m.src.name then 0x8c else 0x8e
  else
    match m.src.width with
    | .b8 => 0x88
    | .b16 | .b32 | .b64 => 0x89

/-- Op encoding: `[MR]`, operand 1 (`dst`) in ModRm:r/m and operand 2 (`src`) in ModRm:reg.
    The REX byte is emitted also when it is zero. -/
def encode (m : MovRegToReg) : Except Abort ByteVec := do
  m.validateSemantics
  let modrmByte ← m.modrmByte
  return [m.rexPrefix, m.opcode, modrmByte]

end MovRegToReg

/-- `struct MovInstruction` with its `kind`; only `RegToReg` has a subclass that is built. -/
inductive MovInstruction where
  | regToReg (instr : MovRegToReg)
  | regToMem | memToReg | immToReg | moffsToReg | regToMoffs
deriving DecidableEq, Repr

/-- `MovInstruction::encode`. -/
def MovInstruction.encode : MovInstruction → Except Abort ByteVec
  | .regToReg instr => instr.encode
  | _ => fiskaTodo "Other MovInstruction kinds are not handled yet"

namespace MovInstructionParser

/-- `next_register`: the next token, whatever its kind, looked up by its text. -/
def nextRegister (parser : Parser) : Except Abort (Reg × Parser) := do
  let (regTok, parser) ← parser.nextToken
  let regLiteral := parser.sourceSubstring regTok.offset (regTok.offset + regTok.len)
  let regName ← regNameOfStrPnc regLiteral
  return ({ name := regName, width := bitWidthOfRegName regName }, parser)

def parse (parser : Parser) : Except Abort (MovInstruction × Parser) := do
  let parser ← parser.consumePnc [.leftParen]
  let (dstReg, parser) ← nextRegister parser
  let parser ← parser.consumePnc [.comma]
  let (srcReg, parser) ← nextRegister parser
  let parser ← parser.consumePnc [.rightParen, .semiColon]
  return (.regToReg ⟨dstReg, srcReg⟩, parser)

end MovInstructionParser

end Fiskas
