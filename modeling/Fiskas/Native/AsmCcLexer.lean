import Fiskas.Native.Base

/-!
# The lexer of the first assembler

`cemetery/asm_cc/lexer.hh` and `cemetery/asm_cc_lib/lexer.cc`: the lexer that
`fiskas/lexer.cc` replaced. It copies the text of every token, keeps tokens that were looked
at ahead in a queue, skips comments and lets a number start with a minus sign. The pointer
`curr` is its distance from `file_content.data()`. Where the source prints a message and
exits, the model returns the message.
-/

namespace Fiskas.AsmCc

/-! ## Tokens -/

/-- `enum struct TokenKind`. -/
inductive TokenKind where
  | invalid | eof
  | leftParen | rightParen | leftBrace | rightBrace | semiColon | comma
  | fn | mnemonic
  | number | identifier
deriving DecidableEq, Repr

def tokKindToString : TokenKind → String
  | .invalid => "<Invalid>"
  | .eof => "<Eof>"
  | .leftParen => "LeftParen"
  | .rightParen => "RightParen"
  | .leftBrace => "LeftBrace"
  | .rightBrace => "RightBrace"
  | .semiColon => "SemiColon"
  | .comma => "Comma"
  | .fn => "Fn"
  | .mnemonic => "Mnemonic"
  | .number => "Number"
  | .identifier => "Identifier"

/-- `struct Token`: a kind, where it starts, and its text. -/
structure Token where
  kind : TokenKind := .invalid
  offset : Nat := 0
  literal : ByteVec := []
deriving DecidableEq, Repr

/-! ## Lexer -/

/-- `struct Lexer`; `end` is the end of `file_content`. -/
structure Lexer where
  fileContent : ByteVec
  curr : Nat := 0
  lookaheadToks : List Token := []
deriving DecidableEq, Repr

namespace Lexer

def isWhitespace (c : U8) : Bool := c == chr ' ' || c == chr '\r' || c == chr '\t' || c == chr '\n'

def isDecimalDigit (c : U8) : Bool := c ≥ chr '0' && c ≤ chr '9'

def isAlpha (c : U8) : Bool := (c ≥ chr 'a' && c ≤ chr 'z') || (c ≥ chr 'A' && c ≤ chr 'Z')

def isIdentifierStart (c : U8) : Bool := isAlpha c

def canContinueIdentifier (c : U8) : Bool := isAlpha c || isDecimalDigit c || c == chr '_'

def isDecimalDigitStart (c : U8) : Bool := isDecimalDigit c || c == chr '-'

def isCommentStart (c : U8) : Bool := c == chr '/'

/-- The lambda of `fetch_token`: the characters of a comment. -/
def isNotNewline (c : U8) : Bool := c != chr '\n'

def currentOffset (l : Lexer) : Nat := l.curr

def reachedEof (l : Lexer) : Bool := l.curr ≥ l.fileContent.length

/-- `*curr` is only read before the end. -/
def peekChar (l : Lexer) : Option U8 :=
  if l.reachedEof then none else l.fileContent[l.curr]?

def nextChar (l : Lexer) : Option U8 × Lexer :=
  match l.peekChar with
  | none => (none, l)
  | some c => (some c, { l with curr := l.curr + 1 })

theorem peekChar_eq (l : Lexer) : l.peekChar = l.fileContent[l.curr]? := by
  unfold peekChar
  split
  · next h =>
    have hle : l.fileContent.length ≤ l.curr := by simpa [reachedEof] using h
    rw [List.getElem?_eq_none hle]
  · rfl

theorem lt_of_peekChar {l : Lexer} {c : U8} (h : l.peekChar = some c) :
    l.curr < l.fileContent.length := by
  rw [peekChar_eq] at h
  exact (List.getElem?_eq_some_iff.mp h).1

theorem nextChar_of_peekChar {l : Lexer} {c : U8} (h : l.peekChar = some c) :
    l.nextChar = (some c, { l with curr := l.curr + 1 }) := by
  rw [nextChar, h]

/-- `substring(beg, end)`. -/
def substring (l : Lexer) (start stop : Nat) : ByteVec :=
  (l.fileContent.drop start).take (stop - start)

/-- The loop asks for a next character before each `_pnc` call, so these never fail. -/
def consumeWhile (p : U8 → Bool) (l : Lexer) : Lexer :=
  match _h : l.peekChar with
  | some c => if p c then consumeWhile p l.nextChar.2 else l
  | none => l
termination_by l.fileContent.length - l.curr
decreasing_by
  have hlt := lt_of_peekChar _h
  rw [nextChar_of_peekChar _h]
  dsimp only
  omega

/-- The source from the current character on. -/
def rest (l : Lexer) : ByteVec := l.fileContent.drop l.curr

theorem peekChar_eq_head? (l : Lexer) : l.peekChar = l.rest.head? := by
  rw [peekChar_eq, rest, List.head?_drop]

/-- `consume_while` takes the longest run of matching characters. -/
theorem consumeWhile_eq (p : U8 → Bool) (l : Lexer) :
    l.consumeWhile p = { l with curr := l.curr + (l.rest.takeWhile p).length } := by
  fun_induction consumeWhile p l with
  | case1 l c hpeek hp ih =>
    rw [ih, nextChar_of_peekChar hpeek]
    rw [peekChar_eq_head?, List.head?_eq_some_iff] at hpeek
    obtain ⟨cs, hrest⟩ := hpeek
    -- One character was taken, and the loop goes on from the next one.
    have hrest' : Lexer.rest { l with curr := l.curr + 1 } = cs := by
      rw [rest, ← List.drop_drop]
      show l.rest.drop 1 = cs
      rw [hrest]
      rfl
    rw [hrest', hrest, List.takeWhile_cons_of_pos hp, List.length_cons, Nat.add_assoc,
      Nat.add_comm 1]
  | case2 l c hpeek hp =>
    rw [peekChar_eq_head?, List.head?_eq_some_iff] at hpeek
    obtain ⟨cs, hrest⟩ := hpeek
    rw [hrest, List.takeWhile_cons_of_neg hp]
    rfl
  | case3 l hpeek =>
    rw [peekChar_eq_head?, List.head?_eq_none_iff] at hpeek
    rw [hpeek]
    rfl

/-- What is left of the source gets shorter when white space and then a line that starts with a
    comment sign are skipped. -/
private theorem length_after_comment {l : Lexer} {c : U8}
    (h : (l.consumeWhile isWhitespace).peekChar = some c) (hc : isCommentStart c = true) :
    let l' := (l.consumeWhile isWhitespace).consumeWhile isNotNewline
    l'.fileContent.length - l'.curr < l.fileContent.length - l.curr := by
  have hlt := lt_of_peekChar h
  rw [peekChar_eq_head?, List.head?_eq_some_iff] at h
  obtain ⟨cs, hrest⟩ := h
  have hc : isNotNewline c = true := by
    have heq : c = chr '/' := by simpa [isCommentStart] using hc
    rw [heq]
    decide
  -- The comment sign itself is one of the characters that are skipped.
  rw [consumeWhile_eq isNotNewline, hrest, List.takeWhile_cons_of_pos hc,
    List.length_cons]
  rw [consumeWhile_eq] at hlt ⊢
  dsimp only at hlt ⊢
  omega

def keywords : StringMap TokenKind :=
  [(str "fn", .fn), (str "mov", .mnemonic), (str "return", .mnemonic)]

/-- The tokens of one character. -/
def oneCharToken (l : Lexer) (kind : TokenKind) (c : U8) : Except String (Token × Lexer) :=
  return ({ kind, offset := l.currentOffset - 1, literal := [c] }, l)

/-- The `switch` of `fetch_token` on the first character of a token, which has been read. -/
def tokenFrom (l : Lexer) (c : U8) : Except String (Token × Lexer) :=
  if c = chr '(' then l.oneCharToken .leftParen c
  else if c = chr ')' then l.oneCharToken .rightParen c
  else if c = chr '{' then l.oneCharToken .leftBrace c
  else if c = chr '}' then l.oneCharToken .rightBrace c
  else if c = chr ';' then l.oneCharToken .semiColon c
  else if c = chr ',' then l.oneCharToken .comma c
  else if isIdentifierStart c then
    let start := l.currentOffset - 1
    let l := l.consumeWhile canContinueIdentifier
    let tokLiteral := l.substring start l.currentOffset
    let tokKind := (keywords.find tokLiteral).getD .identifier
    return ({ kind := tokKind, offset := start, literal := tokLiteral }, l)
  else if isDecimalDigitStart c then
    let start := l.currentOffset - 1
    let l := l.consumeWhile isDecimalDigit
    return ({ kind := .number, offset := start, literal := l.substring start l.currentOffset }, l)
  else
    throw ("Lexer encountered unknown character '" ++ formatStr [c] ++ "'\n")

/-- `fetch_token`; the match tells `reached_eof()` from what `peek_char_pnc()` returns. -/
def fetchToken (l : Lexer) : Except String (Token × Lexer) :=
  let l₁ := l.consumeWhile isWhitespace
  match _h : l₁.peekChar with
  | none => return ({ kind := .eof, offset := l₁.currentOffset }, l₁)
  | some c =>
    if _hc : isCommentStart c then
      -- Consume the entire line.
      fetchToken (l₁.consumeWhile isNotNewline)
    else
      tokenFrom l₁.nextChar.2 c
termination_by l.fileContent.length - l.curr
decreasing_by exact length_after_comment _h _hc

/-- One round of `fetch_token`. -/
theorem fetchToken_eq (l : Lexer) :
    l.fetchToken =
      match (l.consumeWhile isWhitespace).peekChar with
      | none => .ok ({ kind := .eof, offset := (l.consumeWhile isWhitespace).currentOffset },
          l.consumeWhile isWhitespace)
      | some c =>
        if isCommentStart c then
          fetchToken ((l.consumeWhile isWhitespace).consumeWhile isNotNewline)
        else tokenFrom (l.consumeWhile isWhitespace).nextChar.2 c := by
  rw [fetchToken]
  split
  · next h =>
    rw [h]
    rfl
  · next c h =>
    rw [h]
    split
    · next hc => exact (if_pos hc).symm
    · next hc => exact (if_neg hc).symm

def nextToken (l : Lexer) : Except String (Token × Lexer) :=
  match l.lookaheadToks with
  | [] => l.fetchToken
  | tok :: toks => return (tok, { l with lookaheadToks := toks })

/-- A token that was looked at stays in the queue. -/
def peekToken (l : Lexer) : Except String (Token × Lexer) :=
  match l.lookaheadToks with
  | [] => do
    let (tok, l) ← l.fetchToken
    return (tok, { l with lookaheadToks := l.lookaheadToks ++ [tok] })
  | tok :: _ => return (tok, l)

/-- `consume_tok_pnc`: the next token must be of one kind. -/
def consumeTokPnc (l : Lexer) (kind : TokenKind) : Except String (Token × Lexer) := do
  let (tok, l) ← l.nextToken
  if tok.kind ≠ kind then
    throw ("Fatal error: expected token of kind '" ++ tokKindToString kind ++
      "' but found one of kind '" ++ tokKindToString tok.kind ++ "'.\n")
  else
    return (tok, l)

end Lexer

end Fiskas.AsmCc
