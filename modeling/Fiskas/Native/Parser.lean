import Fiskas.Native.Lexer

/-!
# Parser

`fiskas/parser.hh`: `consume_pnc` and `consume`, the two ways in which an instruction parser
asks the lexer for a fixed sequence of token kinds.
-/

namespace Fiskas

/-- `struct Parser : lexer::Lexer` adds no state. -/
abbrev Parser := Lexer

namespace Parser

/-- `consume_pnc(kinds...)`: each next token has to be of the next kind. -/
def consumePnc (p : Parser) : List TokenKind → Except Abort Parser
  | [] => return p
  | tokKind :: tokKinds => do
    let (tok, p) ← p.nextToken
    fiskaAssert (tok.kind = tokKind) "next_token().kind == tok_kind"
    consumePnc p tokKinds

/-- `consume(kinds...)`: stops at the first token of another kind, with the tokens up to and
    including that one already taken from the lexer. -/
def consume (p : Parser) : List TokenKind → Except Abort (Bool × Parser)
  | [] => return (true, p)
  | tokKind :: tokKinds => do
    let (tok, p) ← p.nextToken
    if tok.kind = tokKind then consume p tokKinds else return (false, p)

end Parser

end Fiskas
