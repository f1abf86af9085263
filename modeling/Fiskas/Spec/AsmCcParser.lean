import Fiskas.Native.AsmCcParser
import Fiskas.Spec.AsmCcComments

/-!
# The function declarations of the first assembler

`parse_instruction` takes no token, so the loop over the body of a function sees the same token
in every round. `parseFuncDecl_outcome` says what this comes to: with comments written as
blanks, the parser returns exactly on `fn name ( ) { }`, with an empty body. When anything but a
closing brace follows the head, the loop never ends, also at the end of the source, unless the
lexer aborts at the first token of the body.

## Key results

- `fetchToken_rules`: one call of `fetch_token`, as a step of a scanner
- `head_of_parseHead`, `parseHead_of_head`: what stands in front of a body, in both directions
- `parseFuncDecl_outcome`: returning, going on for ever, and aborting
-/

namespace Fiskas.AsmCc

/-! ## The scanner -/

namespace Lexer

/-- The kind of the tokens that start with a character, before the keywords are looked up. -/
def startClass (c : U8) : Option TokenKind :=
  if c = chr '(' then some .leftParen
  else if c = chr ')' then some .rightParen
  else if c = chr '{' then some .leftBrace
  else if c = chr '}' then some .rightBrace
  else if c = chr ';' then some .semiColon
  else if c = chr ',' then some .comma
  else if isIdentifierStart c then some .identifier
  else if isDecimalDigitStart c then some .number
  else none

/-- The characters that continue a token. -/
def contClass : TokenKind → U8 → Bool
  | .identifier, c => canContinueIdentifier c
  | .number, c => isDecimalDigit c
  | _, _ => false

/-- The scanner that the first lexer implements on sources without comments. -/
def rules : Munch.Rules U8 TokenKind where
  gap := isWhitespace
  start := startClass
  cont := contClass
  start_of_gap := by decide +kernel
  cont_of_gap := by
    intro k
    cases k <;> decide +kernel

/-- The kind of a token with its text: an identifier may be a keyword. -/
def tokenKind (k : TokenKind) (text : ByteVec) : TokenKind :=
  if k = .identifier then (keywords.find text).getD .identifier else k

/-- Only identifiers are looked up. -/
theorem tokenKind_of_ne {k : TokenKind} (h : k ≠ .identifier) (text : ByteVec) :
    tokenKind k text = k := if_neg h

variable {l : Lexer}

/-- The token that starts with `c`, as the class of `c` says. -/
private theorem tokenFrom_rules {c : U8} {cs : ByteVec} (h : l.rest = c :: cs) :
    match startClass c with
    | none => ∃ msg, tokenFrom { l with curr := l.curr + 1 } c = .error msg
    | some k => tokenFrom { l with curr := l.curr + 1 } c =
        .ok ({ kind := tokenKind k (c :: cs.takeWhile (contClass k)), offset := l.curr,
               literal := c :: cs.takeWhile (contClass k) },
          { l with curr := l.curr + (c :: cs.takeWhile (contClass k)).length }) := by
  -- Nothing continues a token of one character, and it is no keyword.
  have hone : ∀ {kind : TokenKind}, kind ≠ .identifier → (contClass kind = fun _ => false) →
      oneCharToken { l with curr := l.curr + 1 } kind c =
        .ok ({ kind := tokenKind kind (c :: cs.takeWhile (contClass kind)), offset := l.curr,
               literal := c :: cs.takeWhile (contClass kind) },
          { l with curr := l.curr + (c :: cs.takeWhile (contClass kind)).length }) := by
    intro kind hne hcont
    have hnil : cs.takeWhile (contClass kind) = [] := by
      rw [hcont]
      cases cs <;> rfl
    rw [tokenKind_of_ne hne, hnil]
    rfl
  unfold tokenFrom startClass
  -- The cases are those of the switch.
  by_cases h₁ : c = chr '('
  · rw [if_pos h₁, if_pos h₁]
    exact hone (by decide) rfl
  by_cases h₂ : c = chr ')'
  · rw [if_neg h₁, if_pos h₂, if_neg h₁, if_pos h₂]
    exact hone (by decide) rfl
  by_cases h₃ : c = chr '{'
  · rw [if_neg h₁, if_neg h₂, if_pos h₃, if_neg h₁, if_neg h₂, if_pos h₃]
    exact hone (by decide) rfl
  by_cases h₄ : c = chr '}'
  · rw [if_neg h₁, if_neg h₂, if_neg h₃, if_pos h₄, if_neg h₁, if_neg h₂, if_neg h₃, if_pos h₄]
    exact hone (by decide) rfl
  rw [if_neg h₁, if_neg h₂, if_neg h₃, if_neg h₄, if_neg h₁, if_neg h₂, if_neg h₃, if_neg h₄]
  by_cases h₅ : c = chr ';'
  · rw [if_pos h₅, if_pos h₅]
    exact hone (by decide) rfl
  by_cases h₆ : c = chr ','
  · rw [if_neg h₅, if_pos h₆, if_neg h₅, if_pos h₆]
    exact hone (by decide) rfl
  rw [if_neg h₅, if_neg h₆, if_neg h₅, if_neg h₆]
  by_cases hident : isIdentifierStart c = true
  · -- A word, which the map of the keywords is asked about.
    obtain ⟨htake, htext⟩ := consumeWhile_word h canContinueIdentifier
    rw [if_pos hident, if_pos hident]
    dsimp only [currentOffset]
    rw [htake, Nat.add_sub_cancel, htext]
    rfl
  rw [if_neg hident, if_neg hident]
  by_cases hnum : isDecimalDigitStart c = true
  · obtain ⟨htake, htext⟩ := consumeWhile_word h isDecimalDigit
    rw [if_pos hnum, if_pos hnum]
    dsimp only [currentOffset]
    rw [htake, Nat.add_sub_cancel, htext]
    rfl
  · rw [if_neg hnum, if_neg hnum]
    exact ⟨_, rfl⟩

/-- One call of `fetch_token` on a source without comments is one step of the scanner. -/
theorem fetchToken_rules (hcomment : ∀ c ∈ l.rest, isCommentStart c = false) :
    match rules.next l.rest with
    | .done => l.fetchToken = .ok ({ kind := .eof, offset := l.curr + l.rest.length },
        { l with curr := l.curr + l.rest.length })
    | .stuck => ∃ msg, l.fetchToken = .error msg
    | .token k g text _ => l.fetchToken =
        .ok ({ kind := tokenKind k text, offset := l.curr + g.length, literal := text },
          { l with curr := l.curr + (g ++ text).length }) := by
  -- Behind the white space comes a token or the end, since there is no comment.
  have hrest : rest { l with curr := l.curr + (l.rest.takeWhile isWhitespace).length } =
      l.rest.dropWhile isWhitespace := by
    rw [rest, ← List.drop_drop]
    exact List.drop_length_takeWhile _ _
  rw [fetchToken_eq, consumeWhile_eq]
  generalize hl₁ : ({ l with
    curr := l.curr + (l.rest.takeWhile isWhitespace).length } : Lexer) = l₁ at hrest
  have hcurr : l₁.curr = l.curr + (l.rest.takeWhile isWhitespace).length := by rw [← hl₁]
  cases hdrop : l.rest.dropWhile isWhitespace with
  | nil =>
    have hall : l.rest.takeWhile isWhitespace = l.rest :=
      List.takeWhile_eq_self_iff.mpr (List.dropWhile_eq_nil_iff.mp hdrop)
    have hpeek : l₁.peekChar = none := by
      rw [peekChar_eq_head?, hrest, hdrop]
      rfl
    rw [Munch.Rules.next_of_nil (R := rules) hdrop, hpeek, ← hl₁, hall]
    rfl
  | cons c cs =>
    rw [hdrop] at hrest
    have hmem : c ∈ l.rest :=
      (List.dropWhile_suffix isWhitespace).subset (hdrop ▸ List.mem_cons_self)
    have hpeek : l₁.peekChar = some c := by
      rw [peekChar_eq_head?, hrest]
      rfl
    have htoken := tokenFrom_rules hrest
    rw [hpeek, nextChar_of_peekChar hpeek]
    simp only [hcomment c hmem, Bool.false_eq_true, ↓reduceIte]
    cases hstart : startClass c with
    | none =>
      rw [hstart] at htoken
      rw [Munch.Rules.next_of_stuck (R := rules) hdrop hstart]
      exact htoken
    | some k =>
      rw [hstart] at htoken
      rw [Munch.Rules.next_of_start (R := rules) hdrop hstart]
      dsimp only at htoken ⊢
      rw [htoken, hcurr, ← hl₁, List.length_append, Nat.add_assoc]
      rfl

/-! ## Texts of tokens -/

open Munch.Rules

/-- A keyword or an identifier. -/
private theorem keywords_cases (text : ByteVec) :
    keywords.find text = none ∨ keywords.find text = some .fn ∧ text = str "fn" ∨
      keywords.find text = some .mnemonic := by
  rw [StringMap.find, keywords, List.lookup_cons, List.lookup_cons, List.lookup_cons,
    List.lookup_nil]
  by_cases hfn : text = str "fn"
  · rw [hfn]
    exact .inr (.inl ⟨rfl, rfl⟩)
  · rw [beq_eq_false_iff_ne.mpr hfn]
    cases text == str "mov" with
    | true => exact .inr (.inr rfl)
    | false =>
      cases text == str "return" with
      | true => exact .inr (.inr rfl)
      | false => exact .inl rfl

/-- Only identifiers change their kind, and only to that of a keyword. -/
private theorem class_of_tokenKind {k kind : TokenKind} {text : ByteVec}
    (h : tokenKind k text = kind) (hfn : kind ≠ .fn) (hmov : kind ≠ .mnemonic) : k = kind := by
  by_cases hk : k = .identifier
  · rw [tokenKind, if_pos hk] at h
    rcases keywords_cases text with hnone | ⟨hfind, _⟩ | hfind
    · rw [hnone] at h
      rw [hk, ← h]
      rfl
    · rw [hfind] at h
      exact absurd h.symm hfn
    · rw [hfind] at h
      exact absurd h.symm hmov
  · rwa [tokenKind_of_ne hk] at h

/-- The tokens of one character. -/
private theorem isToken_punct {k : TokenKind} {ch : U8} (hcont : contClass k = fun _ => false)
    (hchar : ∀ c, startClass c = some k ↔ c = ch) (text : ByteVec) :
    rules.IsToken k text ↔ text = [ch] := by
  constructor
  · rintro ⟨c, cs, rfl, hstart, hall⟩
    cases cs with
    | nil => rw [(hchar c).mp hstart]
    | cons x xs =>
      have := hall x List.mem_cons_self
      rw [show rules.cont k x = contClass k x from rfl, hcont] at this
      cases this
  · rintro rfl
    exact ⟨ch, [], rfl, (hchar ch).mpr rfl, fun x hx => by cases hx⟩

/-- The texts that a token of a kind can have. -/
def HasKind (kind : TokenKind) (text : ByteVec) : Prop :=
  ∃ k, rules.IsToken k text ∧ tokenKind k text = kind

/-- The punctuation of a declaration: its kinds with their texts. -/
structure IsPunct (kind : TokenKind) (ch : U8) : Prop where
  cont : contClass kind = fun _ => false
  start : ∀ c, startClass c = some kind ↔ c = ch
  kind_ne : kind ≠ .fn ∧ kind ≠ .mnemonic ∧ kind ≠ .identifier

theorem isPunct_leftParen : IsPunct .leftParen (chr '(') :=
  ⟨rfl, by decide +kernel, by decide⟩

theorem isPunct_rightParen : IsPunct .rightParen (chr ')') :=
  ⟨rfl, by decide +kernel, by decide⟩

theorem isPunct_leftBrace : IsPunct .leftBrace (chr '{') :=
  ⟨rfl, by decide +kernel, by decide⟩

theorem isPunct_rightBrace : IsPunct .rightBrace (chr '}') :=
  ⟨rfl, by decide +kernel, by decide⟩

/-- Punctuation is told by its character. -/
theorem IsPunct.hasKind {kind : TokenKind} {ch : U8} (h : IsPunct kind ch) {text : ByteVec} :
    HasKind kind text ↔ text = [ch] := by
  rw [← isToken_punct h.cont h.start]
  constructor
  · rintro ⟨k, htoken, hkind⟩
    exact class_of_tokenKind hkind h.kind_ne.1 h.kind_ne.2.1 ▸ htoken
  · exact fun htoken => ⟨kind, htoken, tokenKind_of_ne h.kind_ne.2.2 text⟩

/-- The name of a function: an identifier that is no keyword. -/
structure IsName (name : ByteVec) : Prop where
  word : ∃ c cs, name = c :: cs ∧ isIdentifierStart c = true ∧
    ∀ x ∈ cs, canContinueIdentifier x = true
  not_keyword : keywords.find name = none

/-- An identifier starts with a letter. -/
private theorem startClass_eq_identifier (c : U8) :
    startClass c = some .identifier ↔ isIdentifierStart c = true := by
  revert c
  decide +kernel

/-- A word of the class of identifiers is a letter with letters, digits and underscores behind
    it. -/
private theorem isToken_identifier {text : ByteVec} :
    rules.IsToken .identifier text ↔ ∃ c cs, text = c :: cs ∧ isIdentifierStart c = true ∧
      ∀ x ∈ cs, canContinueIdentifier x = true := by
  constructor
  · rintro ⟨c, cs, htext, hstart, hall⟩
    exact ⟨c, cs, htext, (startClass_eq_identifier c).mp hstart, hall⟩
  · rintro ⟨c, cs, htext, hstart, hall⟩
    exact ⟨c, cs, htext, (startClass_eq_identifier c).mpr hstart, hall⟩

/-- Identifiers are the words that are neither a keyword nor a mnemonic. -/
theorem hasKind_identifier {text : ByteVec} : HasKind .identifier text ↔ IsName text := by
  constructor
  · rintro ⟨k, htoken, hkind⟩
    obtain rfl := class_of_tokenKind hkind (by decide) (by decide)
    refine ⟨isToken_identifier.mp htoken, ?_⟩
    rw [tokenKind, if_pos rfl] at hkind
    rcases keywords_cases text with hnone | ⟨hfind, _⟩ | hfind
    · exact hnone
    · rw [hfind] at hkind
      cases hkind
    · rw [hfind] at hkind
      cases hkind
  · intro h
    refine ⟨.identifier, isToken_identifier.mpr h.word, ?_⟩
    rw [tokenKind, if_pos rfl, h.not_keyword]
    rfl

/-- The keyword has one spelling. -/
theorem hasKind_fn {text : ByteVec} : HasKind .fn text ↔ text = str "fn" := by
  constructor
  · rintro ⟨k, htoken, hkind⟩
    by_cases hk : k = .identifier
    · rw [tokenKind, if_pos hk] at hkind
      rcases keywords_cases text with hnone | ⟨_, htext⟩ | hfind
      · rw [hnone] at hkind
        cases hkind
      · exact htext
      · rw [hfind] at hkind
        cases hkind
    · -- No character starts a token whose class is a keyword.
      rw [tokenKind_of_ne hk] at hkind
      obtain ⟨c, cs, _, hstart, _⟩ := htoken
      have hnone : ∀ c, startClass c ≠ some .fn := by decide +kernel
      exact absurd (hkind ▸ hstart) (hnone c)
  · rintro rfl
    exact ⟨.identifier, isToken_identifier.mpr ⟨chr 'f', [chr 'n'], rfl, by decide, by decide⟩,
      by decide⟩

end Lexer

namespace Parser

open AsmCc.Lexer Munch.Rules

/-! ## Consuming a token -/

/-- Nothing was looked at ahead, and there are no comments left. -/
structure Clear (p : Parser) : Prop where
  queue : p.lookaheadToks = []
  rest : ∀ c ∈ p.rest, isCommentStart c = false

/-- The parser went on by a text. -/
def Moved (p p' : Parser) (text : ByteVec) : Prop :=
  p' = { p with curr := p.curr + text.length } ∧ p.rest = text ++ p'.rest

/-- Moving over one text and then over another. -/
theorem Moved.trans {p q r : Parser} {s t : ByteVec} (h₁ : Moved p q s) (h₂ : Moved q r t) :
    Moved p r (s ++ t) := by
  obtain ⟨rfl, hs⟩ := h₁
  obtain ⟨rfl, ht⟩ := h₂
  constructor
  · simp only [List.length_append, Nat.add_assoc]
  · rw [hs, ht, List.append_assoc]

/-- A text in front of the rest is what the parser can go on by. -/
theorem moved_of_rest {p : Parser} {text rest : ByteVec} (h : p.rest = text ++ rest) :
    Moved p { p with curr := p.curr + text.length } text ∧
      Lexer.rest { p with curr := p.curr + text.length } = rest := by
  have hrest : Lexer.rest { p with curr := p.curr + text.length } = rest := by
    rw [Lexer.rest, ← List.drop_drop]
    show p.rest.drop text.length = rest
    rw [h, List.drop_left]
  exact ⟨⟨rfl, by rw [hrest, h]⟩, hrest⟩

/-- Moving within a clear text leads to a clear text. -/
theorem Moved.clear {p p' : Parser} {text : ByteVec} (h : Moved p p' text) (hp : Clear p) :
    Clear p' := by
  obtain ⟨rfl, hrest⟩ := h
  refine ⟨hp.queue, fun c hc => hp.rest c ?_⟩
  rw [hrest]
  exact List.mem_append_right text hc

/-- What a call of `consume_tok_pnc` returns is the next token of the scanner. -/
theorem consumeTokPnc_eq_ok {p p' : Parser} {tok : Token} {kind : TokenKind} (hp : Clear p)
    (hkind : kind ≠ .eof) :
    p.consumeTokPnc kind = .ok (tok, p') ↔ ∃ k g text rest,
      rules.next p.rest = .token k g text rest ∧ tokenKind k text = kind ∧
      tok = { kind, offset := p.curr + g.length, literal := text } ∧
      p' = { p with curr := p.curr + (g ++ text).length } := by
  have hfetch := fetchToken_rules hp.rest
  have hnext : p.nextToken = p.fetchToken := by rw [nextToken, hp.queue]
  rw [consumeTokPnc, hnext]
  cases hstep : rules.next p.rest with
  | done =>
    -- The token is an Eof, which is not asked for.
    rw [hstep] at hfetch
    dsimp only at hfetch
    rw [hfetch, Except.ok_bind']
    dsimp only
    rw [if_pos (Ne.symm hkind)]
    constructor
    · intro h
      cases h
    · rintro ⟨_, _, _, _, h, _⟩
      cases h
  | stuck =>
    -- The lexer aborts.
    rw [hstep] at hfetch
    obtain ⟨msg, hfetch⟩ := hfetch
    rw [hfetch]
    constructor
    · intro h
      cases h
    · rintro ⟨_, _, _, _, h, _⟩
      cases h
  | token k g text rest =>
    rw [hstep] at hfetch
    dsimp only at hfetch
    rw [hfetch, Except.ok_bind']
    dsimp only
    by_cases hk : tokenKind k text = kind
    · rw [if_neg (not_not.mpr hk), Except.pure_eq_ok, Except.ok.injEq, Prod.mk.injEq]
      constructor
      · rintro ⟨rfl, rfl⟩
        exact ⟨k, g, text, rest, rfl, hk, by rw [hk], rfl⟩
      · rintro ⟨_, _, _, _, h, _, rfl, rfl⟩
        cases h
        exact ⟨by rw [hk], rfl⟩
    · rw [if_pos hk]
      constructor
      · intro h
        cases h
      · rintro ⟨_, _, _, _, h, hk', _⟩
        cases h
        exact absurd hk' hk

/-- A call that returns went on by white space and a text of the kind, which ends there. -/
theorem moved_of_consume {p p' : Parser} {tok : Token} {kind : TokenKind} (hp : Clear p)
    (hkind : kind ≠ .eof) (h : p.consumeTokPnc kind = .ok (tok, p')) :
    ∃ g text k, rules.IsGap g ∧ rules.IsToken k text ∧ tokenKind k text = kind ∧
      rules.Stops k p'.rest ∧ Moved p p' (g ++ text) ∧ tok.literal = text := by
  obtain ⟨k, g, text, rest, hnext, hk, rfl, rfl⟩ := (consumeTokPnc_eq_ok hp hkind).mp h
  obtain ⟨hparts, hg, htoken, hstop⟩ := next_eq_token.mp hnext
  rw [← List.append_assoc] at hparts
  obtain ⟨hmoved, hrest⟩ := moved_of_rest hparts
  exact ⟨g, text, k, hg, htoken, hk, hrest ▸ hstop, hmoved, rfl⟩

/-- A text of the kind behind white space is consumed when it ends there. -/
theorem consume_of_text {p : Parser} {g text rest : ByteVec} (kind : TokenKind) {k : TokenKind}
    (hp : Clear p) (hkind : kind ≠ .eof) (hparts : p.rest = g ++ (text ++ rest))
    (hg : rules.IsGap g)
    (htoken : rules.IsToken k text) (hk : tokenKind k text = kind) (hstop : rules.Stops k rest) :
    ∃ tok p', p.consumeTokPnc kind = .ok (tok, p') ∧ tok.literal = text ∧
      Moved p p' (g ++ text) ∧ p'.rest = rest := by
  have hnext : rules.next p.rest = .token k g text rest :=
    next_eq_token.mpr ⟨hparts, hg, htoken, hstop⟩
  rw [← List.append_assoc] at hparts
  obtain ⟨hmoved, hrest⟩ := moved_of_rest hparts
  exact ⟨_, _, (consumeTokPnc_eq_ok hp hkind).mpr ⟨k, g, text, rest, hnext, hk, rfl, rfl⟩, rfl,
    hmoved, hrest⟩

/-- Punctuation behind white space is what `consume_tok_pnc` takes, whatever follows it. -/
theorem moved_of_consume_punct {p p' : Parser} {tok : Token} {kind : TokenKind} {ch : U8}
    (hpunct : IsPunct kind ch) (hp : Clear p) (hkind : kind ≠ .eof)
    (h : p.consumeTokPnc kind = .ok (tok, p')) :
    ∃ g, rules.IsGap g ∧ Moved p p' (g ++ [ch]) := by
  obtain ⟨g, text, k, hg, htoken, hk, _, hmoved, _⟩ := moved_of_consume hp hkind h
  exact ⟨g, hg, hpunct.hasKind.mp ⟨k, htoken, hk⟩ ▸ hmoved⟩

/-- Punctuation behind a gap is consumed. -/
theorem consume_of_punct {p : Parser} {g rest : ByteVec} {kind : TokenKind} {ch : U8}
    (hpunct : IsPunct kind ch) (hp : Clear p) (hkind : kind ≠ .eof)
    (hparts : p.rest = g ++ ([ch] ++ rest)) (hg : rules.IsGap g) :
    ∃ tok p', p.consumeTokPnc kind = .ok (tok, p') ∧ Moved p p' (g ++ [ch]) ∧
      p'.rest = rest := by
  have htoken := (isToken_punct hpunct.cont hpunct.start [ch]).mpr rfl
  have hstop : rules.Stops kind rest := fun c _ => congrFun hpunct.cont c
  obtain ⟨tok, p', hcall, _, hmoved, hrest⟩ := consume_of_text kind hp hkind hparts hg htoken
    (tokenKind_of_ne hpunct.kind_ne.2.2 _) hstop
  exact ⟨tok, p', hcall, hmoved, hrest⟩

/-! ## The head of a declaration -/

/-- `fn name ( ) {`, with white space in front of each token. -/
structure Head where
  beforeFn : ByteVec
  beforeName : ByteVec
  beforeOpen : ByteVec
  beforeClose : ByteVec
  beforeBrace : ByteVec
  name : ByteVec
  all_gap : ∀ g ∈ [beforeFn, beforeName, beforeOpen, beforeClose, beforeBrace], rules.IsGap g
  beforeName_ne : beforeName ≠ []
  is_name : IsName name

/-- The text of a head, token by token. -/
def Head.text (h : Head) : ByteVec :=
  h.beforeFn ++ (str "fn" ++ (h.beforeName ++ (h.name ++ (h.beforeOpen ++ ([chr '('] ++
    (h.beforeClose ++ ([chr ')'] ++ (h.beforeBrace ++ [chr '{']))))))))

/-- A keyword runs into a name right behind it. -/
private theorem not_stops_fn {k : TokenKind} {name rest : ByteVec}
    (hk : rules.IsToken k (str "fn")) (hname : IsName name) :
    ¬ rules.Stops k ([] ++ name ++ rest) := by
  obtain ⟨c, cs, hfn, hstart, _⟩ := hk
  obtain ⟨x, xs, rfl, hx, _⟩ := hname.word
  obtain rfl : k = .identifier := by
    have hc : c = chr 'f' := (List.cons.inj hfn).1.symm
    rw [hc] at hstart
    exact (Option.some.inj hstart).symm
  intro hstop
  have hcont : canContinueIdentifier x = false := hstop x rfl
  have hall : isIdentifierStart x = true → canContinueIdentifier x = true := by
    intro h
    rw [canContinueIdentifier, show isAlpha x = true from h]
    rfl
  rw [hall hx] at hcont
  cases hcont

/-- A head that was parsed stands in the text. -/
theorem head_of_parseHead {p p' : Parser} {tok : Token} (hp : Clear p)
    (h : p.parseHead = .ok (tok, p')) :
    ∃ h : Head, Moved p p' h.text ∧ tok.literal = h.name := by
  simp only [parseHead, Except.bind_eq_ok, Except.pure_eq_ok, Except.ok.injEq, Prod.exists,
    Prod.mk.injEq] at h
  obtain ⟨t₁, p₁, hfn, t₂, p₂, hname, t₃, p₃, hopen, t₄, p₄, hclose, t₅, p₅, hbrace, rfl, rfl⟩ := h
  obtain ⟨g₁, fn, k, hg₁, hfnToken, hk, hstop, hm₁, _⟩ := moved_of_consume hp (by decide) hfn
  obtain rfl := hasKind_fn.mp ⟨k, hfnToken, hk⟩
  have hp₁ := hm₁.clear hp
  obtain ⟨g₂, name, k', hg₂, hnameToken, hk', _, hm₂, hliteral⟩ :=
    moved_of_consume hp₁ (by decide) hname
  have hp₂ := hm₂.clear hp₁
  obtain ⟨g₃, hg₃, hm₃⟩ := moved_of_consume_punct isPunct_leftParen hp₂ (by decide) hopen
  have hp₃ := hm₃.clear hp₂
  obtain ⟨g₄, hg₄, hm₄⟩ := moved_of_consume_punct isPunct_rightParen hp₃ (by decide) hclose
  have hp₄ := hm₄.clear hp₃
  obtain ⟨g₅, hg₅, hm₅⟩ := moved_of_consume_punct isPunct_leftBrace hp₄ (by decide) hbrace
  have hisName := hasKind_identifier.mp ⟨k', hnameToken, hk'⟩
  -- The name would continue the keyword if nothing stood between them.
  have hne : g₂ ≠ [] := by
    rintro rfl
    exact not_stops_fn hfnToken hisName (hm₂.2 ▸ hstop)
  refine ⟨⟨g₁, g₂, g₃, g₄, g₅, name, by simp [*], hne, hisName⟩, ?_, hliteral⟩
  have hmoved := hm₁.trans (hm₂.trans (hm₃.trans (hm₄.trans hm₅)))
  simpa only [Head.text, List.append_assoc] using hmoved

private theorem isToken_fn : rules.IsToken .identifier (str "fn") :=
  isToken_identifier.mpr ⟨chr 'f', [chr 'n'], rfl, by decide, by decide⟩

/-- A name ends before white space and the parenthesis. -/
private theorem stops_open {g rest : ByteVec} (hg : rules.IsGap g) :
    rules.Stops .identifier (g ++ ([chr '('] ++ rest)) := by
  by_cases hnil : g = []
  · intro x hx
    obtain rfl : chr '(' = x := by simpa [hnil] using hx
    decide
  · exact stops_of_gap hg hnil _ _

/-- A head in the text is parsed, whatever follows it. -/
theorem parseHead_of_head {p : Parser} {rest : ByteVec} (hp : Clear p) (h : Head)
    (hrest : p.rest = h.text ++ rest) :
    ∃ tok p', p.parseHead = .ok (tok, p') ∧ Moved p p' h.text ∧ tok.literal = h.name ∧
      p'.rest = rest := by
  obtain ⟨g₁, g₂, g₃, g₄, g₅, name, hgaps, hne, hname⟩ := h
  simp only [List.forall_mem_cons, List.not_mem_nil, false_implies, implies_true, and_true]
    at hgaps
  obtain ⟨hg₁, hg₂, hg₃, hg₄, hg₅⟩ := hgaps
  simp only [Head.text, List.append_assoc] at hrest ⊢
  -- One token after the other: `hrᵢ` is the text that is left behind token `i`.
  obtain ⟨t₁, p₁, hc₁, _, hm₁, hr₁⟩ := consume_of_text .fn hp (by decide) hrest hg₁
    isToken_fn (by decide) (stops_of_gap hg₂ hne _ _)
  have hp₁ := hm₁.clear hp
  obtain ⟨t₂, p₂, hc₂, hliteral, hm₂, hr₂⟩ := consume_of_text .identifier hp₁ (by decide) hr₁ hg₂
    (isToken_identifier.mpr hname.word)
    (by rw [tokenKind, if_pos rfl, hname.not_keyword]; rfl) (stops_open hg₃)
  have hp₂ := hm₂.clear hp₁
  obtain ⟨t₃, p₃, hc₃, hm₃, hr₃⟩ := consume_of_punct isPunct_leftParen hp₂ (by decide) hr₂ hg₃
  have hp₃ := hm₃.clear hp₂
  obtain ⟨t₄, p₄, hc₄, hm₄, hr₄⟩ := consume_of_punct isPunct_rightParen hp₃ (by decide) hr₃ hg₄
  have hp₄ := hm₄.clear hp₃
  obtain ⟨t₅, p₅, hc₅, hm₅, hr₅⟩ := consume_of_punct isPunct_leftBrace hp₄ (by decide) hr₄ hg₅
  refine ⟨t₂, p₅, ?_, ?_, hliteral, hr₅⟩
  · simp only [parseHead, hc₁, hc₂, hc₃, hc₄, hc₅, Except.ok_bind', Except.pure_eq_ok]
  · have hmoved := hm₁.trans (hm₂.trans (hm₃.trans (hm₄.trans hm₅)))
    simpa only [List.append_assoc] using hmoved

/-! ## The body -/

/-- The loop sees the token in the queue in every round. -/
theorem parseBody_of_queue {p : Parser} {tok : Token} {toks : List Token}
    (hqueue : p.lookaheadToks = tok :: toks) (hkind : tok.kind ≠ .rightBrace) (rounds : Nat)
    (instrs : List Instruction) : parseBody rounds p instrs = none := by
  induction rounds generalizing instrs with
  | zero => rfl
  | succ rounds ih =>
    have hpeek : peekToken p = .ok (tok, p) := by
      rw [peekToken, hqueue]
      rfl
    rw [parseBody, hpeek]
    dsimp only
    rw [if_pos hkind]
    exact ih _

/-- A body that is closed at once, behind white space. -/
def Closes (after : ByteVec) : Prop := ∃ g rest, rules.IsGap g ∧ after = g ++ ([chr '}'] ++ rest)

/-- A body that never ends: the source ends, or another token than a closing brace starts. -/
def GoesOn (after : ByteVec) : Prop :=
  rules.IsGap after ∨ ∃ g c cs, rules.IsGap g ∧ after = g ++ c :: cs ∧
    (startClass c).isSome = true ∧ c ≠ chr '}'

/-- The first token behind the head, which the loop looks at. -/
private theorem parseBody_of_fetch {p p' : Parser} {tok : Token} (hqueue : p.lookaheadToks = [])
    (hfetch : p.fetchToken = .ok (tok, p')) (rounds : Nat) (hkind : tok.kind ≠ .rightBrace) :
    parseBody rounds p [] = none := by
  cases rounds with
  | zero => rfl
  | succ rounds =>
    have hpeek : peekToken p =
        .ok (tok, { p' with lookaheadToks := p'.lookaheadToks ++ [tok] }) := by
      rw [peekToken, hqueue]
      dsimp only
      rw [hfetch]
      rfl
    have hqueue' : p'.lookaheadToks ++ [tok] = tok :: [] := by
      rw [lookaheadToks_fetchToken hfetch, hqueue]
      rfl
    rw [parseBody, hpeek]
    dsimp only
    rw [if_pos hkind]
    exact parseBody_of_queue hqueue' hkind _ _

/-- The class of the first token says whether a body is closed at once. -/
private theorem closes_iff {after : ByteVec} :
    Closes after ↔ ∃ g text rest, rules.next after = .token .rightBrace g text rest := by
  have htoken := isToken_punct isPunct_rightBrace.cont isPunct_rightBrace.start
  constructor
  · rintro ⟨g, rest, hg, heq⟩
    exact ⟨g, _, rest, next_eq_token.mpr ⟨heq, hg, (htoken _).mpr rfl, fun _ _ => rfl⟩⟩
  · rintro ⟨g, text, rest, hnext⟩
    obtain ⟨heq, hg, ht, _⟩ := next_eq_token.mp hnext
    exact ⟨g, rest, hg, (htoken _).mp ht ▸ heq⟩

/-- The first step of the scanner says whether a body never ends. -/
private theorem goesOn_iff {after : ByteVec} :
    GoesOn after ↔ rules.next after = .done ∨
      ∃ k g text rest, rules.next after = .token k g text rest ∧ k ≠ .rightBrace := by
  have hbrace := isPunct_rightBrace.start
  constructor
  · rintro (hgap | ⟨g, c, cs, hg, rfl, hstart, hne⟩)
    · exact .inl (next_eq_done.mpr hgap)
    · obtain ⟨k, hk⟩ := Option.isSome_iff_exists.mp hstart
      have hc : ¬ rules.gap c = true := by
        intro hgap
        have hnone := rules.start_of_gap c hgap
        rw [show rules.start c = some k from hk] at hnone
        cases hnone
      have hdrop : (g ++ c :: cs).dropWhile rules.gap = c :: cs := by
        rw [List.dropWhile_append_of_pos hg, List.dropWhile_cons_of_neg hc]
      refine .inr ⟨k, _, _, _, next_of_start (R := rules) hdrop hk, ?_⟩
      rintro rfl
      exact hne ((hbrace c).mp hk)
  · rintro (hdone | ⟨k, g, text, rest, hnext, hne⟩)
    · exact .inl (next_eq_done.mp hdone)
    · obtain ⟨heq, hg, ⟨c, cs, rfl, hstart, _⟩, _⟩ := next_eq_token.mp hnext
      have hstart : startClass c = some k := hstart
      refine .inr ⟨g, c, cs ++ rest, hg, heq, by rw [hstart]; rfl, ?_⟩
      intro hc
      rw [(hbrace c).mpr hc] at hstart
      exact hne (Option.some.inj hstart).symm

/-- A token that is looked at is the one that is consumed. -/
private theorem consume_of_peek {p p' : Parser} {tok : Token} (hqueue : p.lookaheadToks = [])
    (hfetch : p.fetchToken = .ok (tok, p')) :
    ∃ p'', p.peekToken = .ok (tok, p'') ∧ p''.consumeTokPnc tok.kind = .ok (tok, p') := by
  have hqueue' := lookaheadToks_fetchToken hfetch
  refine ⟨{ p' with lookaheadToks := [tok] }, ?_, ?_⟩
  · rw [peekToken, hqueue]
    dsimp only
    rw [hfetch, Except.ok_bind']
    dsimp only
    rw [hqueue', hqueue]
    rfl
  · have hsame : ({ p' with lookaheadToks := [] } : Lexer) = p' := by rw [← hqueue, ← hqueue']
    have hnext : nextToken { p' with lookaheadToks := [tok] } = .ok (tok, p') := by
      show Except.ok (tok, ({ p' with lookaheadToks := [] } : Lexer)) = _
      rw [hsame]
    rw [consumeTokPnc, hnext, Except.ok_bind']
    dsimp only
    rw [if_neg (not_not.mpr rfl)]
    rfl

private theorem not_goesOn_of_closes {after : ByteVec} (h : Closes after) : ¬ GoesOn after := by
  obtain ⟨g, text, rest, hnext⟩ := closes_iff.mp h
  rw [goesOn_iff, hnext]
  rintro (hdone | ⟨k, _, _, _, htoken, hne⟩)
  · cases hdone
  · cases htoken
    exact hne rfl

/-- What follows the head decides what the parser does, and one round of the loop is enough to
    see it. -/
private theorem parseFuncDecl_of_head {p p' : Parser} {tok : Token} (hp' : Clear p')
    (hhead : p.parseHead = .ok (tok, p')) :
    (Closes p'.rest ∧ parseFuncDecl 0 p = none ∧ ∃ q, ∀ rounds, parseFuncDecl (rounds + 1) p =
        some (.ok ({ name := tok.literal, body := [] }, q))) ∨
      (GoesOn p'.rest ∧ ∀ rounds, parseFuncDecl rounds p = none) ∨
      (¬ Closes p'.rest ∧ ¬ GoesOn p'.rest ∧ ∃ msg, ∀ rounds, parseFuncDecl (rounds + 1) p =
        some (.error msg)) := by
  have hfetch := fetchToken_rules hp'.rest
  have hdecl : ∀ rounds, parseFuncDecl rounds p =
      (parseBody rounds p' []).map fun result => do
        let body ← result
        let brace ← body.2.consumeTokPnc .rightBrace
        return ({ name := tok.literal, body := body.1 }, brace.2) := by
    intro rounds
    rw [parseFuncDecl, hhead]
  rw [closes_iff, goesOn_iff]
  cases hstep : rules.next p'.rest with
  | done =>
    -- The Eof is no closing brace, and no round consumes it.
    rw [hstep] at hfetch
    refine .inr (.inl ⟨.inl rfl, fun rounds => ?_⟩)
    rw [hdecl, parseBody_of_fetch hp'.queue hfetch rounds (by simp)]
    rfl
  | stuck =>
    rw [hstep] at hfetch
    obtain ⟨msg, hfetch⟩ := hfetch
    refine .inr (.inr ⟨by simp, by simp, msg, fun rounds => ?_⟩)
    have hpeek : peekToken p' = .error msg := by
      rw [peekToken, hp'.queue]
      dsimp only
      rw [hfetch]
      rfl
    rw [hdecl, parseBody, hpeek]
    rfl
  | token k g text rest =>
    rw [hstep] at hfetch
    dsimp only at hfetch
    by_cases hk : k = .rightBrace
    · -- The brace is looked at and then consumed.
      subst hk
      rw [tokenKind_of_ne (by decide)] at hfetch
      obtain ⟨p'', hpeek, hconsume⟩ := consume_of_peek hp'.queue hfetch
      refine .inl ⟨⟨g, text, rest, rfl⟩, by rw [hdecl]; rfl,
        { p' with curr := p'.curr + (g ++ text).length }, fun rounds => ?_⟩
      rw [hdecl, parseBody, hpeek]
      dsimp only
      rw [if_neg (by simp), Option.map_some, Except.ok_bind']
      dsimp only
      rw [hconsume]
      rfl
    · -- Every round looks at this token again.
      refine .inr (.inl ⟨.inr ⟨k, g, text, rest, rfl, hk⟩, fun rounds => ?_⟩)
      have hkind : tokenKind k text ≠ .rightBrace :=
        fun h => hk (class_of_tokenKind h (by decide) (by decide))
      rw [hdecl, parseBody_of_fetch hp'.queue hfetch rounds hkind]
      rfl

/-! ## Sources with comments -/

/-- Two outcomes are the same: both go on, or both are the same result. -/
def SameOutcome {α : Type} (source : ByteVec) :
    Option (Except String (α × Parser)) → Option (Except String (α × Parser)) → Prop
  | none, none => True
  | some r, some r' => SameResult source r r'
  | _, _ => False

variable {source : ByteVec} {p p' : Parser}

private theorem parseHead_blanked (h : Blanked source p p') :
    SameResult source p.parseHead p'.parseHead := by
  refine (h.consumeTokPnc .fn).bind fun _ _ _ h₁ => ?_
  refine (h₁.consumeTokPnc .identifier).bind fun _ _ _ h₂ => ?_
  refine (h₂.consumeTokPnc .leftParen).bind fun _ _ _ h₃ => ?_
  refine (h₃.consumeTokPnc .rightParen).bind fun _ _ _ h₄ => ?_
  exact (h₄.consumeTokPnc .leftBrace).bind fun _ _ _ h₅ => ⟨rfl, h₅⟩

private theorem parseBody_blanked (h : Blanked source p p') (rounds : Nat)
    (instrs : List Instruction) :
    SameOutcome source (parseBody rounds p instrs) (parseBody rounds p' instrs) := by
  induction rounds generalizing p p' instrs with
  | zero => trivial
  | succ rounds ih =>
    have hpeek := h.peekToken
    rw [parseBody, parseBody]
    revert hpeek
    generalize p.peekToken = r
    generalize p'.peekToken = r'
    intro hpeek
    match r, r', hpeek with
    | .error msg, .error _, rfl => exact rfl
    | .ok (tok, q), .ok (_, q'), ⟨rfl, hq⟩ =>
      dsimp only
      by_cases hkind : tok.kind ≠ .rightBrace
      · rw [if_pos hkind, if_pos hkind]
        exact ih hq _
      · rw [if_neg hkind, if_neg hkind]
        exact ⟨rfl, hq⟩

/-- The parser cannot tell comments from blanks. -/
theorem parseFuncDecl_blanked (h : Blanked source p p') (rounds : Nat) :
    SameOutcome source (parseFuncDecl rounds p) (parseFuncDecl rounds p') := by
  have hhead := parseHead_blanked h
  rw [parseFuncDecl, parseFuncDecl]
  revert hhead
  generalize p.parseHead = r
  generalize p'.parseHead = r'
  intro hhead
  match r, r', hhead with
  | .error msg, .error _, rfl => exact rfl
  | .ok (tok, q), .ok (_, q'), ⟨rfl, hq⟩ =>
    have hbody := parseBody_blanked hq rounds []
    dsimp only
    revert hbody
    generalize parseBody rounds q [] = o
    generalize parseBody rounds q' [] = o'
    intro hbody
    match o, o', hbody with
    | none, none, _ => trivial
    | some r, some r', hr =>
      refine hr.bind fun instrs s s' hs => ?_
      exact (hs.consumeTokPnc .rightBrace).bind fun _ _ _ ht => ⟨rfl, ht⟩

/-! ## Outcomes -/

/-- The parser returns a declaration. -/
def Returns (source : ByteVec) (decl : FuncDecl) : Prop :=
  ∃ rounds p, parseFuncDecl rounds { fileContent := source } = some (.ok (decl, p))

/-- The parser prints a message and exits. -/
def Aborts (source : ByteVec) : Prop :=
  ∃ rounds msg, parseFuncDecl rounds { fileContent := source } = some (.error msg)

/-- The loop goes on behind any number of rounds. -/
def RunsOn (source : ByteVec) : Prop :=
  ∀ rounds, parseFuncDecl rounds { fileContent := source } = none

/-- Blanking comments keeps every outcome. -/
private theorem outcomes_blank (source : ByteVec) :
    (∀ decl, Returns (blank false source) decl ↔ Returns source decl) ∧
      (Aborts (blank false source) ↔ Aborts source) ∧
      (RunsOn (blank false source) ↔ RunsOn source) := by
  have hsame : ∀ rounds, SameOutcome source (parseFuncDecl rounds { fileContent := source })
      (parseFuncDecl rounds { fileContent := blank false source }) :=
    parseFuncDecl_blanked (blanked_start source)
  refine ⟨fun decl => exists_congr fun rounds => ?_, exists_congr fun rounds => ?_,
    forall_congr' fun rounds => ?_⟩
  all_goals
    have hsame := hsame rounds
    revert hsame
    generalize parseFuncDecl rounds { fileContent := source } = o
    generalize parseFuncDecl rounds { fileContent := blank false source } = o'
    intro hsame
    match o, o', hsame with
    | none, none, _ => simp
    | some (.error msg), some (.error _), h =>
      obtain rfl := h
      simp
    | some (.ok (a, q)), some (.ok (_, q')), ⟨h, _⟩ =>
      subst h
      simp

/-- No comments are left in a blanked source. -/
private theorem clear_blank (source : ByteVec) : Clear { fileContent := blank false source } where
  queue := rfl
  rest _ hc := isCommentStart_of_mem_blank hc

/-- The loop of no rounds returns nothing. -/
private theorem exists_succ {rounds : Nat} {decl : FuncDecl} {q : Parser}
    (h : parseFuncDecl rounds p = some (.ok (decl, q))) : ∃ n, rounds = n + 1 := by
  cases rounds with
  | succ n => exact ⟨n, rfl⟩
  | zero =>
    rw [parseFuncDecl] at h
    split at h
    · cases h
    · cases h

/-- The text decides between three outcomes. -/
private theorem outcome_cases (hp : Clear p) :
    (∃ (h : Head) (after : ByteVec), p.rest = h.text ++ after ∧ Closes after ∧
      parseFuncDecl 0 p = none ∧ ∃ q, ∀ rounds, parseFuncDecl (rounds + 1) p =
        some (.ok ({ name := h.name, body := [] }, q))) ∨
      ((∃ (h : Head) (after : ByteVec), p.rest = h.text ++ after ∧ GoesOn after) ∧
        ∀ rounds, parseFuncDecl rounds p = none) ∨
      ((∀ (h : Head) (after : ByteVec), p.rest = h.text ++ after →
          ¬ Closes after ∧ ¬ GoesOn after) ∧
        ∃ msg, ∀ rounds, parseFuncDecl (rounds + 1) p = some (.error msg)) := by
  cases hhead : p.parseHead with
  | error msg =>
    refine .inr (.inr ⟨fun h after hrest => ?_, msg, fun rounds => by rw [parseFuncDecl, hhead]⟩)
    obtain ⟨tok, p', hok, _⟩ := parseHead_of_head hp h hrest
    rw [hhead] at hok
    cases hok
  | ok r =>
    obtain ⟨tok, p'⟩ := r
    obtain ⟨h, hmoved, hname⟩ := head_of_parseHead hp hhead
    rcases parseFuncDecl_of_head (hmoved.clear hp) hhead with ⟨hcloses, hzero, q, hq⟩ |
      ⟨hgoes, hnone⟩ | ⟨hcloses, hgoes, hmsg⟩
    · exact .inl ⟨h, p'.rest, hmoved.2, hcloses, hzero, q, hname ▸ hq⟩
    · exact .inr (.inl ⟨⟨h, p'.rest, hmoved.2, hgoes⟩, hnone⟩)
    · -- However the head is found in the text, the same text follows it.
      refine .inr (.inr ⟨fun h' after hrest => ?_, hmsg⟩)
      obtain ⟨tok', q, hok, _, _, rfl⟩ := parseHead_of_head hp h' hrest
      rw [hhead] at hok
      cases hok
      exact ⟨hcloses, hgoes⟩

/-- A text has at most one name in front of what follows its head. -/
private theorem unique_head (hp : Clear p) {h h' : Head} {after after' : ByteVec}
    (hrest : p.rest = h.text ++ after) (hrest' : p.rest = h'.text ++ after') :
    h'.name = h.name ∧ after' = after := by
  obtain ⟨tok, q, hok, _, hname, rfl⟩ := parseHead_of_head hp h hrest
  obtain ⟨tok', q', hok', _, hname', rfl⟩ := parseHead_of_head hp h' hrest'
  rw [hok] at hok'
  cases hok'
  exact ⟨hname' ▸ hname, rfl⟩

/-- With its comments written as blanks, a source is a head of a function and what follows it. The
    parser returns exactly when the body is closed at once, and then with an empty body; its loop
    goes on for ever exactly when another token follows or the source ends; and in all other
    cases the parser aborts. -/
theorem parseFuncDecl_outcome (source : ByteVec) :
    (∀ decl, Returns source decl ↔ ∃ (h : Head) (after : ByteVec),
      blank false source = h.text ++ after ∧ Closes after ∧
        decl = { name := h.name, body := [] }) ∧
    (RunsOn source ↔ ∃ (h : Head) (after : ByteVec),
      blank false source = h.text ++ after ∧ GoesOn after) ∧
    (Aborts source ↔ ¬ RunsOn source ∧ ∀ decl, ¬ Returns source decl) := by
  obtain ⟨hreturns, haborts, hruns⟩ := outcomes_blank source
  simp only [← hreturns, ← haborts, ← hruns]
  have hp := clear_blank source
  rcases outcome_cases hp with ⟨h, after, hrest, hcloses, hzero, q, hq⟩ |
    ⟨⟨h, after, hrest, hgoes⟩, hnone⟩ | ⟨hneither, msg, hmsg⟩
  · -- The body is closed at once: every bound on the rounds but zero gives this result.
    have hres : ∀ rounds r, parseFuncDecl rounds { fileContent := blank false source } = some r →
        r = .ok ({ name := h.name, body := [] }, q) := by
      intro rounds r hr
      cases rounds with
      | zero =>
        rw [hzero] at hr
        cases hr
      | succ n =>
        rw [hq] at hr
        exact (Option.some.inj hr).symm
    refine ⟨fun decl => ⟨?_, ?_⟩, ⟨?_, ?_⟩, ⟨?_, ?_⟩⟩
    · rintro ⟨rounds, p, hr⟩
      have hr := hres rounds _ hr
      cases hr
      exact ⟨h, after, hrest, hcloses, rfl⟩
    · rintro ⟨h', after', hrest', _, rfl⟩
      rw [(unique_head hp hrest hrest').1]
      exact ⟨1, q, hq 0⟩
    · intro hruns
      have := hruns 1
      rw [hq 0] at this
      cases this
    · rintro ⟨h', after', hrest', hgoes⟩
      rw [(unique_head hp hrest hrest').2] at hgoes
      exact absurd hgoes (not_goesOn_of_closes hcloses)
    · rintro ⟨rounds, msg, hr⟩
      have hr := hres rounds _ hr
      cases hr
    · rintro ⟨_, hnot⟩
      exact absurd ⟨1, q, hq 0⟩ (hnot _)
  · -- The loop goes on for ever: no bound gives a result.
    have hnot : ∀ rounds r, parseFuncDecl rounds { fileContent := blank false source } ≠
        some r := by
      intro rounds r hr
      rw [hnone] at hr
      cases hr
    refine ⟨fun decl => ⟨?_, ?_⟩, ⟨fun _ => ⟨h, after, hrest, hgoes⟩, fun _ => hnone⟩,
      ⟨?_, fun hnot => absurd hnone hnot.1⟩⟩
    · rintro ⟨rounds, p, hr⟩
      exact absurd hr (hnot _ _)
    · rintro ⟨h', after', hrest', hcloses, _⟩
      rw [(unique_head hp hrest hrest').2] at hcloses
      exact absurd hgoes (not_goesOn_of_closes hcloses)
    · rintro ⟨rounds, msg, hr⟩
      exact absurd hr (hnot _ _)
  · -- The parser aborts, and the text has no head with a body.
    have hret : ∀ decl, ¬ Returns (blank false source) decl := by
      rintro decl ⟨rounds, p, hr⟩
      obtain ⟨n, rfl⟩ := exists_succ hr
      rw [hmsg] at hr
      cases hr
    have hrun : ¬ RunsOn (blank false source) := by
      intro hruns
      have := hruns 1
      rw [hmsg] at this
      cases this
    refine ⟨fun decl => ⟨fun h => absurd h (hret decl), ?_⟩, ⟨fun h => absurd h hrun, ?_⟩,
      ⟨fun _ => ⟨hrun, hret⟩, fun _ => ⟨1, msg, hmsg 0⟩⟩⟩
    · rintro ⟨h, after, hrest, hcloses, _⟩
      exact absurd hcloses (hneither h after hrest).1
    · rintro ⟨h, after, hrest, hgoes⟩
      exact absurd hgoes (hneither h after hrest).2

end Parser

end Fiskas.AsmCc
