import Fiskas.Native.Mov
import Fiskas.Spec.LexerTokens
import Fiskas.Spec.ParserConsume

/-!
# The grammar of mov statements

The mov parser asks the lexer for a fixed row of tokens and never looks at the kind of the two
register tokens: it looks their text up in `regnames`. `MovStatement` is the grammar this
amounts to: `parse_returns_iff` shows that the parser returns on exactly the texts of the
grammar and stops right behind them.

## Key results

- `statement_of_parse`, `parse_of_statement`: one call, in both directions
- `parse_returns_iff`: the parser accepts exactly its grammar
-/

namespace Fiskas

/-! ## Statements -/

/-- The white space of a statement `( dst , src ) ;`, in front of each of its tokens. -/
structure MovLayout where
  beforeOpen : ByteVec
  beforeDst : ByteVec
  beforeComma : ByteVec
  beforeSrc : ByteVec
  beforeClose : ByteVec
  beforeSemi : ByteVec
  all_ws : ∀ g ∈ [beforeOpen, beforeDst, beforeComma, beforeSrc, beforeClose, beforeSemi], IsWs g

/-- The text of a statement with two given operands. -/
def MovLayout.text (w : MovLayout) (dst src : ByteVec) : ByteVec :=
  w.beforeOpen ++ (str "(" ++ (w.beforeDst ++ (dst ++ (w.beforeComma ++ (str "," ++
    (w.beforeSrc ++ (src ++ (w.beforeClose ++ (str ")" ++ (w.beforeSemi ++ str ";"))))))))))

/-- A statement of the grammar: two keys of `regnames`, and white space around the tokens. -/
structure MovStatement where
  layout : MovLayout
  dstText : ByteVec
  srcText : ByteVec
  dst : RegName
  src : RegName
  dst_known : regnames.find dstText = some dst
  src_known : regnames.find srcText = some src

namespace MovStatement

/-- The text of a statement. -/
def text (s : MovStatement) : ByteVec := s.layout.text s.dstText s.srcText

/-- The move that a statement means. -/
def instr (s : MovStatement) : MovRegToReg :=
  ⟨⟨s.dst, bitWidthOfRegName s.dst⟩, ⟨s.src, bitWidthOfRegName s.src⟩⟩

end MovStatement

/-! ## Reading one token -/

/-- The parser moved over a text. -/
def Moved (p p' : Parser) (text : ByteVec) : Prop :=
  p'.source = p.source ∧ p'.curr = p.curr + text.length ∧ p.rest = text ++ p'.rest

namespace Moved

/-- Not moving at all. -/
theorem refl (p : Parser) : Moved p p [] := ⟨rfl, rfl, rfl⟩

/-- Moving over one text and then over another. -/
theorem trans {p q r : Parser} {s t : ByteVec} (h₁ : Moved p q s) (h₂ : Moved q r t) :
    Moved p r (s ++ t) := by
  obtain ⟨hs₁, hc₁, hr₁⟩ := h₁
  obtain ⟨hs₂, hc₂, hr₂⟩ := h₂
  refine ⟨hs₂.trans hs₁, ?_, ?_⟩
  · rw [hc₂, hc₁, List.length_append, Nat.add_assoc]
  · rw [hr₁, hr₂, List.append_assoc]

end Moved

namespace Parser

open Munch.Rules

/-- A call that returns a token other than Eof moved over white space and its text. -/
theorem moved_of_nextToken {p p' : Parser} {tok : Token} (h : p.nextToken = .ok (tok, p'))
    (hkind : tok.kind ≠ .eof) :
    ∃ g text, IsWs g ∧ tok.kind.Matches text ∧ Moved p p' (g ++ text) ∧
      p'.sourceSubstring tok.offset (tok.offset + tok.len) = text := by
  obtain ⟨hs, hcase⟩ := Lexer.nextToken_ok h
  rcases hcase with ⟨_, rfl, _⟩ | ⟨k, g, text, rest, hnext, rfl, hc, hr⟩
  · exact absurd rfl hkind
  · obtain ⟨hparts, hg, htoken, _⟩ := next_eq_token.mp hnext
    have hrest : p.rest = (g ++ text) ++ p'.rest := by rw [hparts, hr, List.append_assoc]
    exact ⟨g, text, hg, isToken_matches htoken, ⟨hs, hc, hrest⟩,
      Cursor.sourceSubstring_of_rest hs hparts⟩

/-- A call on white space and a word that ends there returns that word. -/
theorem nextToken_of_word {p : Parser} {g text rest : ByteVec} {kind : TokenKind}
    (hp : p.rest = g ++ (text ++ rest)) (hg : IsWs g) (ht : kind.Matches text)
    (hstop : lexRules.Stops kind.scanned rest) :
    ∃ tok, ∃ p' : Parser, p.nextToken = .ok (tok, p') ∧ tok.kind = kind ∧
      Moved p p' (g ++ text) ∧ p'.rest = rest ∧
      p'.sourceSubstring tok.offset (tok.offset + tok.len) = text := by
  obtain ⟨htoken, hkind⟩ := matches_isToken ht
  have hnext : lexRules.next p.rest = .token kind.scanned g text rest :=
    next_eq_token.mpr ⟨hp, hg, htoken, hstop⟩
  obtain ⟨p', hcall, hs, hc, hr⟩ := Lexer.nextToken_of_token hnext
  refine ⟨_, p', hcall, hkind, ⟨hs, hc, ?_⟩, hr, Cursor.sourceSubstring_of_rest hs hp⟩
  rw [hr, hp, List.append_assoc]

/-! ## Punctuation -/

/-- The kinds of the punctuation that the parser asks for, with their texts. -/
def IsPunct (kind : TokenKind) (text : ByteVec) : Prop :=
  (kind.Matches text ∧ ∀ t, kind.Matches t → t = text) ∧ kind ≠ .eof ∧
    contKind kind.scanned = fun _ => false

theorem isPunct_leftParen : IsPunct .leftParen (str "(") :=
  ⟨⟨rfl, fun _ h => h⟩, by decide, rfl⟩

theorem isPunct_rightParen : IsPunct .rightParen (str ")") :=
  ⟨⟨rfl, fun _ h => h⟩, by decide, rfl⟩

theorem isPunct_comma : IsPunct .comma (str ",") :=
  ⟨⟨rfl, fun _ h => h⟩, by decide, rfl⟩

theorem isPunct_semiColon : IsPunct .semiColon (str ";") :=
  ⟨⟨rfl, fun _ h => h⟩, by decide, rfl⟩

/-- Consuming punctuation moves over white space and its text. -/
theorem moved_of_consumePnc {p p'' : Parser} {kind : TokenKind} {kinds : List TokenKind}
    {text : ByteVec} (hpunct : IsPunct kind text) (h : p.consumePnc (kind :: kinds) = .ok p'') :
    ∃ g, ∃ p' : Parser, IsWs g ∧ Moved p p' (g ++ text) ∧ p'.consumePnc kinds = .ok p'' := by
  obtain ⟨tok, p', hcall, rfl, hrest⟩ := consumePnc_cons_eq_ok.mp h
  obtain ⟨g, t, hg, ht, hmoved, _⟩ := moved_of_nextToken hcall hpunct.2.1
  rw [hpunct.1.2 t ht] at hmoved
  exact ⟨g, p', hg, hmoved, hrest⟩

/-- Punctuation behind white space is consumed, whatever follows it. -/
theorem consumePnc_of_punct {p : Parser} {kind : TokenKind} {text g rest : ByteVec}
    (hpunct : IsPunct kind text) (hg : IsWs g) (hp : p.rest = g ++ (text ++ rest)) :
    ∃ p' : Parser, (∀ kinds, p.consumePnc (kind :: kinds) = p'.consumePnc kinds) ∧
      Moved p p' (g ++ text) ∧ p'.rest = rest := by
  -- Nothing continues punctuation, so what follows it plays no role.
  have hstop : lexRules.Stops kind.scanned rest := fun c _ => congrFun hpunct.2.2 c
  obtain ⟨tok, p', hcall, hkind, hmoved, hr, _⟩ := nextToken_of_word hp hg hpunct.1.1 hstop
  refine ⟨p', fun kinds => ?_, hmoved, hr⟩
  rw [consumePnc, hcall, Except.ok_bind']
  simp only [hkind, decide_true, fiskaAssert_true, Except.ok_bind']

/-! ## Register names -/

/-- The lookup of a register name aborts exactly when the table does not have it. -/
theorem regNameOfStrPnc_eq_ok {text : ByteVec} {r : RegName} :
    regNameOfStrPnc text = .ok r ↔ regnames.find text = some r := by
  unfold regNameOfStrPnc StringMap.contains
  cases h : regnames.find text with
  | none => simp [Except.bind_eq_ok]
  | some r' =>
    simp only [Option.isSome_some, fiskaAssert_true, Except.ok_bind', Except.pure_eq_ok,
      Except.ok.injEq, Option.some.injEq]

/-- A letter with letters, digits and underscores behind it is an identifier. -/
theorem identifier_of_all {text : ByteVec} (hstart : text.head?.any Cursor.isIdentStart = true)
    (hcont : text.tail.all Cursor.isIdentContinue = true) (hfn : text ≠ str "fn") :
    TokenKind.identifier.Matches text := by
  cases text with
  | nil => exact nomatch hstart
  | cons c cs => exact ⟨⟨c, cs, rfl, by simpa using hstart, by simpa using hcont⟩, hfn⟩

/-- Every key of the table is an identifier. -/
theorem identifier_of_known {text : ByteVec} {r : RegName} (h : regnames.find text = some r) :
    TokenKind.identifier.Matches text := by
  -- The table is finite, so its keys are checked one by one.
  have hkeys : ∀ e ∈ regnames, e.1.head?.any Cursor.isIdentStart = true ∧
      e.1.tail.all Cursor.isIdentContinue = true ∧ e.1 ≠ str "fn" := by decide +kernel
  obtain ⟨hstart, hcont, hfn⟩ := hkeys _ (StringMap.mem_of_find h)
  exact identifier_of_all hstart hcont hfn

/-- A register name behind white space is looked up, whatever it is. -/
theorem nextRegister_of_word {p : Parser} {g text rest : ByteVec}
    (hp : p.rest = g ++ (text ++ rest)) (hg : IsWs g) (ht : TokenKind.identifier.Matches text)
    (hstop : lexRules.Stops .identifier rest) :
    ∃ p' : Parser, Moved p p' (g ++ text) ∧ p'.rest = rest ∧
      MovInstructionParser.nextRegister p =
        (regNameOfStrPnc text).map fun r => (⟨r, bitWidthOfRegName r⟩, p') := by
  obtain ⟨tok, p', hcall, _, hmoved, hr, htext⟩ := nextToken_of_word hp hg ht hstop
  refine ⟨p', hmoved, hr, ?_⟩
  rw [MovInstructionParser.nextRegister, hcall, Except.ok_bind']
  simp only [htext]
  cases regNameOfStrPnc text <;> rfl

/-- A register that was read is a key of the table behind white space: the token of any other
    text, and the Eof token with its empty text, are not in the table. -/
theorem moved_of_nextRegister {p p' : Parser} {reg : Reg}
    (h : MovInstructionParser.nextRegister p = .ok (reg, p')) :
    ∃ g text, IsWs g ∧ regnames.find text = some reg.name ∧
      reg.width = bitWidthOfRegName reg.name ∧ Moved p p' (g ++ text) := by
  simp only [MovInstructionParser.nextRegister, Except.bind_eq_ok, Except.pure_eq_ok,
    Except.ok.injEq, Prod.exists, Prod.mk.injEq, regNameOfStrPnc_eq_ok] at h
  obtain ⟨tok, q, hcall, r, hfind, rfl, rfl⟩ := h
  -- The parser does not look at the kind: at the end of the input it looks up the empty text.
  by_cases heof : tok.kind = .eof
  · have hnil : Cursor.sourceSubstring q tok.offset (tok.offset + tok.len) = [] := by
      obtain ⟨_, ⟨_, rfl, _⟩ | ⟨k, g, text, rest, hnext, rfl, _⟩⟩ := Lexer.nextToken_ok hcall
      · rfl
      · exact absurd heof (keywordKind_ne_eof (next_eq_token.mp hnext).2.2.1)
    rw [hnil] at hfind
    exact nomatch hfind
  · obtain ⟨g, text, hg, _, hmoved, htext⟩ := moved_of_nextToken hcall heof
    rw [htext] at hfind
    exact ⟨g, text, hg, hfind, rfl, hmoved⟩

/-- A register name ends before white space and punctuation. -/
theorem stops_punct {g text rest : ByteVec} {c : U8} (hg : IsWs g)
    (hc : Cursor.isIdentContinue c = false) (htext : text = [c]) :
    lexRules.Stops .identifier (g ++ (text ++ rest)) := by
  by_cases hnil : g = []
  · intro x hx
    obtain rfl : c = x := by simpa [hnil, htext] using hx
    exact hc
  · exact stops_of_gap (R := lexRules) hg hnil _ _

end Parser

/-! ## One statement -/

namespace MovInstructionParser

/-- A call that returns moved over a statement and returns its move. -/
theorem statement_of_parse {p p' : Parser} {r : MovInstruction} (h : parse p = .ok (r, p')) :
    ∃ s : MovStatement, r = .regToReg s.instr ∧ Moved p p' s.text := by
  simp only [parse, Except.bind_eq_ok, Except.pure_eq_ok, Except.ok.injEq, Prod.exists,
    Prod.mk.injEq] at h
  obtain ⟨p₁, hopen, dst, p₂, hdst, p₃, hcomma, src, p₄, hsrc, p₆, hclose, rfl, rfl⟩ := h
  obtain ⟨g₀, q₁, hg₀, hm₀, hq₁⟩ := Parser.moved_of_consumePnc Parser.isPunct_leftParen hopen
  obtain ⟨g₁, dstText, hg₁, hdstText, hdstWidth, hm₁⟩ := Parser.moved_of_nextRegister hdst
  obtain ⟨g₂, q₃, hg₂, hm₂, hq₃⟩ := Parser.moved_of_consumePnc Parser.isPunct_comma hcomma
  obtain ⟨g₃, srcText, hg₃, hsrcText, hsrcWidth, hm₃⟩ := Parser.moved_of_nextRegister hsrc
  obtain ⟨g₄, q₅, hg₄, hm₄, hq₅⟩ := Parser.moved_of_consumePnc Parser.isPunct_rightParen hclose
  obtain ⟨g₅, q₆, hg₅, hm₅, hq₆⟩ := Parser.moved_of_consumePnc Parser.isPunct_semiColon hq₅
  -- Nothing is left to consume behind the last kind of each call.
  obtain rfl : q₁ = p₁ := Except.ok.inj hq₁
  obtain rfl : q₃ = p₃ := Except.ok.inj hq₃
  obtain rfl : q₆ = p₆ := Except.ok.inj hq₆
  refine ⟨⟨⟨g₀, g₁, g₂, g₃, g₄, g₅, by simp [*]⟩, dstText, srcText, dst.name, src.name, hdstText,
    hsrcText⟩, ?_, ?_⟩
  · rw [MovStatement.instr, ← hdstWidth, ← hsrcWidth]
  · have hmoved := hm₀.trans (hm₁.trans (hm₂.trans (hm₃.trans (hm₄.trans hm₅))))
    simpa only [MovStatement.text, MovLayout.text, List.append_assoc] using hmoved

/-- A statement is parsed to its move, whatever follows it. -/
theorem parse_of_statement {p : Parser} {rest : ByteVec} (s : MovStatement)
    (hp : p.rest = s.text ++ rest) :
    ∃ p' : Parser, parse p = .ok (.regToReg s.instr, p') ∧ Moved p p' s.text := by
  obtain ⟨⟨g₀, g₁, g₂, g₃, g₄, g₅, hws⟩, dstText, srcText, dst, src, hdst, hsrc⟩ := s
  simp only [List.forall_mem_cons, List.not_mem_nil, false_implies, implies_true, and_true] at hws
  obtain ⟨hg₀, hg₁, hg₂, hg₃, hg₄, hg₅⟩ := hws
  simp only [MovStatement.text, MovLayout.text, List.append_assoc] at hp
  -- One token after the other: `hrᵢ` is the text that is left behind token `i`.
  obtain ⟨p₁, hopen, hm₀, hr₁⟩ := Parser.consumePnc_of_punct Parser.isPunct_leftParen hg₀ hp
  obtain ⟨p₂, hm₁, hr₂, hcall₁⟩ := Parser.nextRegister_of_word hr₁ hg₁
    (Parser.identifier_of_known hdst) (Parser.stops_punct hg₂ (by decide) rfl)
  obtain ⟨p₃, hcomma, hm₂, hr₃⟩ := Parser.consumePnc_of_punct Parser.isPunct_comma hg₂ hr₂
  obtain ⟨p₄, hm₃, hr₄, hcall₂⟩ := Parser.nextRegister_of_word hr₃ hg₃
    (Parser.identifier_of_known hsrc) (Parser.stops_punct hg₄ (by decide) rfl)
  obtain ⟨p₅, hclose, hm₄, hr₅⟩ := Parser.consumePnc_of_punct Parser.isPunct_rightParen hg₄ hr₄
  obtain ⟨p₆, hsemi, hm₅, _⟩ := Parser.consumePnc_of_punct Parser.isPunct_semiColon hg₅ hr₅
  refine ⟨p₆, ?_, ?_⟩
  · rw [Parser.regNameOfStrPnc_eq_ok.mpr hdst] at hcall₁
    rw [Parser.regNameOfStrPnc_eq_ok.mpr hsrc] at hcall₂
    simp only [Except.map] at hcall₁ hcall₂
    simp only [parse, hopen, hcall₁, hcomma, hcall₂, hclose, hsemi, Parser.consumePnc_nil,
      Except.ok_bind', Except.pure_eq_ok]
    rfl
  · have hmoved := hm₀.trans (hm₁.trans (hm₂.trans (hm₃.trans (hm₄.trans hm₅))))
    simpa only [MovStatement.text, MovLayout.text, List.append_assoc] using hmoved

/-- The parser returns exactly when a statement stands at the cursor. It then returns the move
    of the statement and stops right behind it, whatever follows. -/
theorem parse_returns_iff (p : Parser) :
    ((∃ r, parse p = .ok r) ↔ ∃ (s : MovStatement) (rest : ByteVec), p.rest = s.text ++ rest) ∧
      ∀ (s : MovStatement) (rest : ByteVec), p.rest = s.text ++ rest →
        ∃ p' : Parser, parse p = .ok (.regToReg s.instr, p') ∧ p'.source = p.source ∧
          p'.curr = p.curr + s.text.length := by
  refine ⟨⟨?_, ?_⟩, ?_⟩
  · rintro ⟨⟨r, p'⟩, h⟩
    obtain ⟨s, _, hmoved⟩ := statement_of_parse h
    exact ⟨s, _, hmoved.2.2⟩
  · rintro ⟨s, rest, hp⟩
    obtain ⟨p', hcall, _⟩ := parse_of_statement s hp
    exact ⟨_, hcall⟩
  · intro s rest hp
    obtain ⟨p', hcall, hs, hc, _⟩ := parse_of_statement s hp
    exact ⟨p', hcall, hs, hc⟩

/-- A statement in the middle of a source, with some of its white space. -/
theorem parse_returns_rax :
    ∃ p' : Parser, parse { source := str "x( rax,r9\n);fn", curr := 1 } =
        .ok (.regToReg ⟨⟨.rax, .b64⟩, ⟨.r9, .b64⟩⟩, p') ∧
      p'.source = str "x( rax,r9\n);fn" ∧ p'.curr = 1 + 11 :=
  let s : MovStatement :=
    { layout := ⟨[], str " ", [], [], str "\n", [], by decide⟩
      dstText := str "rax"
      srcText := str "r9"
      dst := .rax
      src := .r9
      dst_known := by decide
      src_known := by decide }
  (parse_returns_iff { source := str "x( rax,r9\n);fn", curr := 1 }).2 s (str "fn") rfl

end MovInstructionParser

end Fiskas
