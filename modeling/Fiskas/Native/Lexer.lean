import Fiskas.Native.Base

/-!
# Lexer

`fiskas/lexer.hh` and `fiskas/lexer.cc`: a cursor over the source text and the lexer that
cuts it into tokens. A method that moves the cursor returns the moved cursor; the pointer
`curr` is its distance from `source.data()`.
-/

namespace Fiskas

/-! ## Cursor -/

/-- `struct Cursor`: the source, the current offset into it and the last character read. -/
structure Cursor where
  source : ByteVec
  curr : Nat := 0
  prev : U8 := chr ' '
deriving DecidableEq, Repr

namespace Cursor

def isNumber (c : U8) : Bool := c ≥ chr '0' && c ≤ chr '9'

def isIdentStart (c : U8) : Bool :=
  (c ≥ chr 'a' && c ≤ chr 'z') || (c ≥ chr 'A' && c ≤ chr 'Z')

def isIdentContinue (c : U8) : Bool := isIdentStart c || c == chr '_' || isNumber c

def isWhitespace (c : U8) : Bool :=
  c == chr '\n' || c == chr ' ' || c == chr '\t' || c == chr '\r'

/-- The characters from `first` to `last`, listed in a string. -/
private theorem mem_str_iff {first last c : U8} {s : String}
    (hs : (str s).map BitVec.toNat = List.range' first.toNat (last.toNat + 1 - first.toNat)) :
    c ∈ str s ↔ (c ≥ first && c ≤ last) = true := by
  have hmem : c ∈ str s ↔ c.toNat ∈ (str s).map BitVec.toNat := by
    constructor
    · exact List.mem_map_of_mem
    · intro h
      obtain ⟨d, hd, heq⟩ := List.mem_map.mp h
      rwa [BitVec.eq_of_toNat_eq heq.symm]
  rw [hmem, hs, List.mem_range'_1, Bool.and_eq_true, decide_eq_true_iff, decide_eq_true_iff,
    ge_iff_le, BitVec.le_def, BitVec.le_def]
  omega

/-- The digits. -/
theorem isNumber_iff {c : U8} : isNumber c = true ↔ c ∈ str "0123456789" :=
  (mem_str_iff (by decide +kernel)).symm

/-- The letters. -/
theorem isIdentStart_iff {c : U8} : isIdentStart c = true ↔
    c ∈ str "abcdefghijklmnopqrstuvwxyz" ∨ c ∈ str "ABCDEFGHIJKLMNOPQRSTUVWXYZ" := by
  rw [isIdentStart, Bool.or_eq_true]
  exact or_congr (mem_str_iff (by decide +kernel)).symm (mem_str_iff (by decide +kernel)).symm

/-- The letters, the digits and the underscore. -/
theorem isIdentContinue_iff {c : U8} : isIdentContinue c = true ↔
    c ∈ str "abcdefghijklmnopqrstuvwxyz" ∨ c ∈ str "ABCDEFGHIJKLMNOPQRSTUVWXYZ" ∨
      c ∈ str "0123456789" ∨ c = chr '_' := by
  rw [isIdentContinue, Bool.or_eq_true, Bool.or_eq_true, isIdentStart_iff, isNumber_iff, beq_iff_eq,
    or_assoc, or_assoc, or_comm (a := c = chr '_')]

/-- The line feed, the blank, the tabulator and the carriage return. -/
theorem isWhitespace_iff {c : U8} : isWhitespace c = true ↔ c ∈ str "\n \t\r" := by
  have hstr : str "\n \t\r" = [chr '\n', chr ' ', chr '\t', chr '\r'] := rfl
  simp only [hstr, isWhitespace, Bool.or_eq_true, beq_iff_eq, List.mem_cons, List.not_mem_nil,
    or_false, or_assoc]

/-- Current offset into the program source code string. -/
def pos (c : Cursor) : Nat := c.curr

def eof (c : Cursor) : Bool := c.pos ≥ c.source.length

/-- `*curr`; the byte one past the end of a `std::string` is zero. -/
def deref (c : Cursor) : U8 := c.source.getD c.curr 0

def nextChar (c : Cursor) : Option U8 × Cursor :=
  if c.eof then (none, c)
  else (some c.deref, { c with curr := c.curr + 1, prev := c.deref })

def nextCharPnc (c : Cursor) : Except Abort (U8 × Cursor) := do
  fiskaAssert (!c.eof) "!eof()" "Requesting the next char after reaching eof"
  match c.nextChar with
  | (some ch, c') => return (ch, c')
  | (none, _) => fiskaUnreachable

def peekChar (c : Cursor) : Option U8 :=
  if c.eof then none else some c.deref

theorem peekChar_eq_some {c : Cursor} {ch : U8} :
    c.peekChar = some ch ↔ c.source[c.curr]? = some ch := by
  by_cases hlt : c.curr < c.source.length
  · simp [peekChar, eof, pos, deref, hlt]
  · simp [peekChar, eof, pos, hlt]

/-- The loop asks for a next character before each `_pnc` call, so these never abort. -/
def eatWhile (p : U8 → Bool) (c : Cursor) : Cursor :=
  match _h : c.peekChar with
  | some ch => if p ch then eatWhile p c.nextChar.2 else c
  | none => c
termination_by c.source.length - c.curr
decreasing_by
  have hlt : c.curr < c.source.length :=
    (List.getElem?_eq_some_iff.mp (peekChar_eq_some.mp _h)).1
  simp only [nextChar, eof, pos, ge_iff_le, show ¬ c.source.length ≤ c.curr by omega,
    decide_false, Bool.false_eq_true, ↓reduceIte]
  omega

/-- `source.substr(start, end - start)`. Every caller passes the bounds of a token that was
    just scanned, so `start ≤ end` and `start ≤ source.size()`. -/
def sourceSubstring (c : Cursor) (start stop : Nat) : ByteVec :=
  let len := stop - start
  (c.source.drop start).take len

end Cursor

/-! ## Tokens -/

/-- `enum struct TokenKind`. -/
inductive TokenKind where
  | invalid | eof
  -- One char tokens.
  | leftParen | rightParen | leftBrace | rightBrace | semiColon | comma
  -- Keywords.
  | fn
  | number | identifier
deriving DecidableEq, Repr

/-- `struct Token`: a kind and a span of the source. -/
structure Token where
  kind : TokenKind := .invalid
  offset : Nat := 0
  len : Nat := 0
deriving DecidableEq, Repr

/-- `Token::gen(kind, offset, len)`. -/
def Token.gen (kind : TokenKind) (offset len : Nat) : Token := { kind, offset, len }

/-! ## Lexer -/

/-- `struct Lexer : Cursor` adds no state. -/
abbrev Lexer := Cursor

namespace Lexer

def keywords : StringMap TokenKind := [(str "fn", .fn)]

/-- `multi_char_token_kind`: finish a token whose first character is `prev`. -/
def multiCharTokenKind (l : Lexer) : Except Abort (TokenKind × Lexer) :=
  if Cursor.isNumber l.prev then
    return (.number, l.eatWhile Cursor.isNumber)
  else if Cursor.isIdentStart l.prev then
    return (.identifier, l.eatWhile Cursor.isIdentContinue)
  else
    fiskaUnreachable
      ("Char '" ++ formatStr [l.prev] ++ "' does not start a number nor an identifier")

/-- The `switch` of `next_token` on the first character of a token. -/
def tokenKindOf (l : Lexer) (c : U8) : Except Abort (TokenKind × Lexer) :=
  if c = chr '(' then return (.leftParen, l)
  else if c = chr ')' then return (.rightParen, l)
  else if c = chr '{' then return (.leftBrace, l)
  else if c = chr '}' then return (.rightBrace, l)
  else if c = chr ',' then return (.comma, l)
  else if c = chr ';' then return (.semiColon, l)
  else l.multiCharTokenKind

/-- Replace the kind of an identifier that spells a keyword. -/
def keywordKind (tokKind : TokenKind) (tokLiteral : ByteVec) : TokenKind :=
  if tokKind = .identifier then (keywords.find tokLiteral).getD .identifier else tokKind

def nextToken (l : Lexer) : Except Abort (Token × Lexer) := do
  let l := l.eatWhile Cursor.isWhitespace
  if l.eof then return (Token.gen .eof 0 0, l)
  let startOffset := l.pos
  let (c, l) ← l.nextCharPnc
  let (tokKind, l) ← tokenKindOf l c
  let tokKind := keywordKind tokKind (l.sourceSubstring startOffset l.pos)
  return (Token.gen tokKind startOffset (l.pos - startOffset), l)

end Lexer

end Fiskas
