import Fiskas.Native.AsmCcLexer

/-!
# The parser of the first assembler

`cemetery/asm_cc/parser.hh` and `cemetery/asm_cc_lib/parser.cc`: the parser of function
declarations. Instructions are not parsed yet: `parse_instruction` returns a return instruction
and takes no token, and a vector of `Instruction` keeps only the mnemonic of what is pushed.

The loop over the body need not come to an end, so the parser is given a number of rounds that
the loop may go, and `none` says that it is still going on behind them.
-/

namespace Fiskas.AsmCc

/-- `Mnemonic::Spelling`. -/
inductive Mnemonic.Spelling where
  | mov | ret
deriving DecidableEq, Repr

/-- `struct Instruction`. -/
structure Instruction where
  mnemonic : Mnemonic.Spelling
deriving DecidableEq, Repr

/-- `Ret_Instruction{}`, as an `Instruction`. -/
def retInstruction : Instruction := { mnemonic := .ret }

/-- `struct FuncDecl`. -/
structure FuncDecl where
  name : ByteVec := []
  body : List Instruction
deriving DecidableEq, Repr

/-- `struct Parser`, which adds no data to the lexer. -/
abbrev Parser := Lexer

namespace Parser

def parseInstruction (p : Parser) : Instruction × Parser := (retInstruction, p)

/-- The loop of `parse_func_decl`, for at most as many rounds as the number says. -/
def parseBody : Nat → Parser → List Instruction → Option (Except String (List Instruction × Parser))
  | 0, _, _ => none
  | rounds + 1, p, instrs =>
    match p.peekToken with
    | .error msg => some (.error msg)
    | .ok (tok, p) =>
      if tok.kind ≠ .rightBrace then
        let (instr, p) := parseInstruction p
        parseBody rounds p (instrs ++ [instr])
      else some (.ok (instrs, p))

/-- The tokens in front of the body, up to its brace. -/
def parseHead (p : Parser) : Except String (Token × Parser) := do
  let (_, p) ← p.consumeTokPnc .fn
  let (funcName, p) ← p.consumeTokPnc .identifier
  let (_, p) ← p.consumeTokPnc .leftParen
  let (_, p) ← p.consumeTokPnc .rightParen
  let (_, p) ← p.consumeTokPnc .leftBrace
  return (funcName, p)

def parseFuncDecl (rounds : Nat) (p : Parser) : Option (Except String (FuncDecl × Parser)) :=
  match p.parseHead with
  | .error msg => some (.error msg)
  | .ok (funcName, p) =>
    (parseBody rounds p []).map fun result => do
      let (instrs, p) ← result
      let (_, p) ← p.consumeTokPnc .rightBrace
      return ({ name := funcName.literal, body := instrs }, p)

end Parser

end Fiskas.AsmCc
