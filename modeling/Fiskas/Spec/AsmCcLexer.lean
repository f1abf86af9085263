import Fiskas.ForStd.List
import Fiskas.Native.AsmCcLexer
import Fiskas.Spec.LexerTokens

/-!
# The lexer of the first assembler agrees with its successor

On sources without comments and minus signs, `fetch_token` of the first assembler takes one
step of the same scanner that `next_token` of the present lexer does. Tokens that were looked
at ahead wait in a queue. However calls of `peek_token` and `next_token` follow one another,
what was delivered and what is in the queue are together the first tokens of the present
lexer, which is at the same place of the source.

## Key results

- `fetchToken_spec`: one call of `fetch_token` is one step of the scanner
- `Reached.run`: the invariant of any sequence of calls
- `asmCc_agrees`: the two lexers deliver the same tokens and abort at the same ones
-/

namespace Fiskas.AsmCc

/-! ## Tokens of both lexers -/

/-- The present lexer has no mnemonics: they are identifiers. -/
def TokenKind.toNew : TokenKind → Fiskas.TokenKind
  | .invalid => .invalid
  | .eof => .eof
  | .leftParen => .leftParen
  | .rightParen => .rightParen
  | .leftBrace => .leftBrace
  | .rightBrace => .rightBrace
  | .semiColon => .semiColon
  | .comma => .comma
  | .fn => .fn
  | .mnemonic => .identifier
  | .number => .number
  | .identifier => .identifier

/-- A token of the first lexer is one of the present lexer: the kind up to mnemonics, the text,
    and the offset, which an Eof of the present lexer does not have. -/
structure Agrees (source : ByteVec) (t : Token) (tok : Fiskas.Token) : Prop where
  kind : t.kind.toNew = tok.kind
  text : t.literal = tok.text source
  offset : tok.kind ≠ .eof → t.offset = tok.offset

namespace Lexer

/-! ## One call -/

/-- A result of the first lexer is a token of a class with a text that stands at an offset. -/
def Delivers (l : Lexer) (r : Except String (Token × Lexer)) (k : Fiskas.TokenKind)
    (start : Nat) (text : ByteVec) : Prop :=
  ∃ kind : TokenKind, kind.toNew = Fiskas.Lexer.keywordKind k text ∧
    r = .ok ({ kind, offset := start, literal := text }, { l with curr := start + text.length })

/-- The character tests of both lexers are the same. -/
private theorem tests_eq : isWhitespace = Cursor.isWhitespace ∧
    isDecimalDigit = Cursor.isNumber ∧ canContinueIdentifier = Cursor.isIdentContinue := by
  refine ⟨funext ?_, funext ?_, funext ?_⟩ <;> decide +kernel

/-- The keywords of the first lexer, but for mnemonics, are those of the present one. -/
private theorem toNew_keywords (text : ByteVec) :
    ((keywords.find text).getD .identifier).toNew =
      Fiskas.Lexer.keywordKind .identifier text := by
  rw [keywordKind_identifier, StringMap.find, keywords, List.lookup_cons, List.lookup_cons,
    List.lookup_cons, List.lookup_nil]
  by_cases hfn : text = str "fn"
  · simp [hfn, TokenKind.toNew]
  · rw [if_neg hfn, beq_eq_false_iff_ne.mpr hfn]
    -- The other two keywords are mnemonics.
    cases text == str "mov" <;> cases text == str "return" <;> rfl

/-- A token of one character. -/
private theorem delivers_oneChar (l : Lexer) {k : Fiskas.TokenKind} {kind : TokenKind}
    (hkind : kind.toNew = k) (hne : k ≠ .identifier) (hcont : contKind k = fun _ => false) (c : U8)
    (cs : ByteVec) :
    Delivers l (oneCharToken { l with curr := l.curr + 1 } kind c) k l.curr
      (c :: cs.takeWhile (contKind k)) := by
  have hnil : cs.takeWhile (contKind k) = [] := by
    rw [hcont]
    cases cs <;> rfl
  refine ⟨kind, by rw [hkind, keywordKind_of_ne hne], ?_⟩
  rw [hnil]
  rfl

/-- What `consume_while` takes behind the first character, and the text that is copied. -/
theorem consumeWhile_word {l : Lexer} {c : U8} {cs : ByteVec} (h : l.rest = c :: cs)
    (p : U8 → Bool) :
    consumeWhile p { l with curr := l.curr + 1 } =
        { l with curr := l.curr + (c :: cs.takeWhile p).length } ∧
      substring { l with curr := l.curr + (c :: cs.takeWhile p).length } l.curr
        (l.curr + (c :: cs.takeWhile p).length) = c :: cs.takeWhile p := by
  have hrest : rest { l with curr := l.curr + 1 } = cs := by
    rw [rest, ← List.drop_drop]
    show l.rest.drop 1 = cs
    rw [h]
    rfl
  constructor
  · rw [consumeWhile_eq, hrest, List.length_cons]
    dsimp only
    rw [Nat.add_assoc, Nat.add_comm 1]
  · rw [substring, Nat.add_sub_cancel_left]
    show l.rest.take _ = _
    rw [h, List.length_cons, List.take_succ_cons, List.take_length_takeWhile]

/-- A character that no token of the first lexer starts with. -/
private theorem startKind_of_neither {c : U8} (hpunct : punctKind c = none)
    (hident : ¬ isIdentifierStart c = true) (hnum : ¬ isDecimalDigitStart c = true) :
    startKind c = none := by
  -- No test of the present lexer passes either.
  have hdigit : Cursor.isNumber c = false := by
    rw [← tests_eq.2.1, ← Bool.not_eq_true]
    exact fun h => hnum (by rw [isDecimalDigitStart, h, Bool.true_or])
  have hletter : Cursor.isIdentStart c = false := by
    rw [← Bool.not_eq_true]
    exact hident
  simp only [startKind, hpunct, hdigit, hletter, Bool.false_eq_true, ↓reduceIte]

/-- The token that starts with `c`: its class decides how far it extends. -/
private theorem tokenFrom_spec {l : Lexer} {c : U8} {cs : ByteVec} (h : l.rest = c :: cs)
    (hminus : c ≠ chr '-') :
    match startKind c with
    | none => ∃ e, tokenFrom { l with curr := l.curr + 1 } c = .error e
    | some k => Delivers l (tokenFrom { l with curr := l.curr + 1 } c) k l.curr
        (c :: cs.takeWhile (contKind k)) := by
  unfold tokenFrom
  by_cases h₁ : c = chr '('
  · rw [if_pos h₁, h₁]
    exact delivers_oneChar l rfl (by decide) rfl _ cs
  by_cases h₂ : c = chr ')'
  · rw [if_pos h₂, h₂]
    exact delivers_oneChar l rfl (by decide) rfl _ cs
  by_cases h₃ : c = chr '{'
  · rw [if_pos h₃, h₃]
    exact delivers_oneChar l rfl (by decide) rfl _ cs
  by_cases h₄ : c = chr '}'
  · rw [if_pos h₄, h₄]
    exact delivers_oneChar l rfl (by decide) rfl _ cs
  by_cases h₅ : c = chr ';'
  · rw [if_pos h₅, h₅]
    exact delivers_oneChar l rfl (by decide) rfl _ cs
  by_cases h₆ : c = chr ','
  · rw [if_pos h₆, h₆]
    exact delivers_oneChar l rfl (by decide) rfl _ cs
  rw [if_neg h₁, if_neg h₂, if_neg h₃, if_neg h₄, if_neg h₅, if_neg h₆]
  by_cases hident : isIdentifierStart c = true
  · have hstart : startKind c = some .identifier := (startKind_eq_identifier c).mpr hident
    have hcont : contKind .identifier = canContinueIdentifier := tests_eq.2.2.symm
    obtain ⟨htake, htext⟩ := consumeWhile_word h canContinueIdentifier
    rw [if_pos hident, hstart]
    dsimp only [currentOffset]
    rw [htake, Nat.add_sub_cancel, htext, hcont]
    exact ⟨_, toNew_keywords _, rfl⟩
  rw [if_neg hident]
  by_cases hnum : isDecimalDigitStart c = true
  · -- Without minus signs, what starts a number is a digit.
    have hdigit : isDecimalDigit c = true := by
      rw [isDecimalDigitStart, beq_eq_false_iff_ne.mpr hminus, Bool.or_false] at hnum
      exact hnum
    have hcont : contKind .number = isDecimalDigit := tests_eq.2.1.symm
    have hstart : startKind c = some .number := by
      rw [startKind_eq_number, ← tests_eq.2.1]
      exact hdigit
    obtain ⟨htake, htext⟩ := consumeWhile_word h isDecimalDigit
    rw [if_pos hnum, hstart]
    dsimp only [currentOffset]
    rw [htake, Nat.add_sub_cancel, htext, hcont]
    exact ⟨.number, (keywordKind_of_ne (by decide) _).symm, rfl⟩
  · have hpunct : punctKind c = none := by
      simp only [punctKind, h₁, h₂, h₃, h₄, h₅, h₆, ↓reduceIte]
    have hnone := startKind_of_neither hpunct hident hnum
    rw [if_neg hnum, hnone]
    exact ⟨_, rfl⟩

/-- One call of `fetch_token` on a source without comments and minus signs is one step of the
    scanner. -/
theorem fetchToken_spec {l : Lexer} (hslash : chr '/' ∉ l.rest) (hminus : chr '-' ∉ l.rest) :
    match lexRules.next l.rest with
    | .done => l.fetchToken = .ok ({ kind := .eof, offset := l.curr + l.rest.length },
        { l with curr := l.curr + l.rest.length })
    | .stuck => ∃ e, l.fetchToken = .error e
    | .token k g text _ => ∃ kind : TokenKind,
        kind.toNew = Fiskas.Lexer.keywordKind k text ∧
        l.fetchToken = .ok ({ kind, offset := l.curr + g.length, literal := text },
          { l with curr := l.curr + (g ++ text).length }) := by
  have hws : l.consumeWhile isWhitespace =
      { l with curr := l.curr + (l.rest.takeWhile Cursor.isWhitespace).length } := by
    rw [consumeWhile_eq, tests_eq.1]
  -- Behind the white space `fetch_token` is at the first character of a token.
  have hrest : rest { l with curr := l.curr + (l.rest.takeWhile Cursor.isWhitespace).length } =
      l.rest.dropWhile Cursor.isWhitespace := by
    rw [rest, ← List.drop_drop]
    exact List.drop_length_takeWhile _ _
  have hmem : ∀ c ∈ l.rest.dropWhile Cursor.isWhitespace, c ≠ chr '/' ∧ c ≠ chr '-' := by
    intro c hc
    have hc : c ∈ l.rest := (List.dropWhile_suffix _).subset hc
    exact ⟨fun heq => hslash (heq ▸ hc), fun heq => hminus (heq ▸ hc)⟩
  rw [fetchToken_eq, hws]
  generalize hl₁ : ({ l with
    curr := l.curr + (l.rest.takeWhile Cursor.isWhitespace).length } : Lexer) = l₁ at hrest
  have hcurr : l₁.curr = l.curr + (l.rest.takeWhile Cursor.isWhitespace).length := by rw [← hl₁]
  cases hdrop : l.rest.dropWhile Cursor.isWhitespace with
  | nil =>
    have hall : l.rest.takeWhile Cursor.isWhitespace = l.rest :=
      List.takeWhile_eq_self_iff.mpr (List.dropWhile_eq_nil_iff.mp hdrop)
    have hpeek : l₁.peekChar = none := by
      rw [peekChar_eq_head?, hrest, hdrop]
      rfl
    rw [Munch.Rules.next_of_nil (R := lexRules) hdrop, hpeek, ← hl₁, hall]
    rfl
  | cons c cs =>
    rw [hdrop] at hrest hmem
    obtain ⟨hne, hminus⟩ := hmem c List.mem_cons_self
    have hpeek : l₁.peekChar = some c := by
      rw [peekChar_eq_head?, hrest]
      rfl
    have hcomment : isCommentStart c = false := beq_eq_false_iff_ne.mpr hne
    have htoken := tokenFrom_spec hrest hminus
    rw [hpeek, nextChar_of_peekChar hpeek]
    simp only [hcomment, Bool.false_eq_true, ↓reduceIte]
    cases hstart : startKind c with
    | none =>
      rw [hstart] at htoken
      rw [Munch.Rules.next_of_stuck (R := lexRules) hdrop hstart]
      exact htoken
    | some k =>
      rw [hstart] at htoken
      rw [Munch.Rules.next_of_start (R := lexRules) hdrop hstart]
      obtain ⟨kind, hkind, hresult⟩ := htoken
      refine ⟨kind, hkind, ?_⟩
      rw [hresult, hcurr, ← hl₁, List.length_append, Nat.add_assoc]
      rfl

/-! ## The same place in the source -/

/-- The two lexers are at the same place of the same source. -/
structure SamePlace (o : Lexer) (l : Fiskas.Lexer) : Prop where
  source : o.fileContent = l.source
  curr : o.curr = l.curr

/-- At the same place, both lexers find the same token or both abort. -/
private theorem fetchToken_of_samePlace {o : Lexer} {l : Fiskas.Lexer} (h : SamePlace o l)
    (hslash : chr '/' ∉ l.source) (hminus : chr '-' ∉ l.source) :
    (∃ t o' tok l', o.fetchToken = .ok (t, o') ∧ l.nextToken = .ok (tok, l') ∧
        l'.source = l.source ∧ Agrees l.source t tok ∧ SamePlace o' l' ∧
        o'.lookaheadToks = o.lookaheadToks) ∨
      ((∃ e, o.fetchToken = .error e) ∧ ∃ a, l.nextToken = .error a) := by
  have hrest : o.rest = l.rest := by rw [rest, Cursor.rest, h.source, h.curr]
  have hspec := fetchToken_spec (l := o)
    (fun hmem => hslash (h.source ▸ List.mem_of_mem_drop hmem))
    (fun hmem => hminus (h.source ▸ List.mem_of_mem_drop hmem))
  have hnext := Fiskas.Lexer.nextToken_spec l
  rw [hrest] at hspec
  -- Both are at the same step of the scanner.
  cases hstep : lexRules.next l.rest with
  | done =>
    rw [hstep] at hspec hnext
    obtain ⟨l', hcall, hs, hc⟩ := hnext
    refine .inl ⟨_, _, _, l', hspec, hcall, hs, ⟨rfl, ?_, fun hne => absurd rfl hne⟩,
      ⟨?_, ?_⟩, rfl⟩
    · rw [Token.text, Cursor.sourceSubstring]
      rfl
    · rw [hs]
      exact h.source
    · rw [hc, ← h.curr]
  | stuck =>
    rw [hstep] at hspec hnext
    exact .inr ⟨hspec, hnext⟩
  | token k g text after =>
    rw [hstep] at hspec hnext
    obtain ⟨kind, hkind, hfetch⟩ := hspec
    obtain ⟨l', hcall, hs, hc⟩ := hnext
    refine .inl ⟨_, _, _, l', hfetch, hcall, hs, ⟨hkind, ?_, fun _ => ?_⟩, ⟨?_, ?_⟩, rfl⟩
    · have hparts := (Munch.Rules.next_eq_token.mp hstep).1
      have hsame : ({ source := l.source } : Cursor).source = l.source := rfl
      exact (Cursor.sourceSubstring_of_rest hsame hparts).symm
    · rw [h.curr]
      rfl
    · rw [hs]
      exact h.source
    · rw [hc, ← h.curr]

/-! ## Sequences of calls -/

/-- The calls that a parser makes. -/
inductive Op where
  | peek | next
deriving DecidableEq, Repr

/-- One call, and the token it delivers; a token that is only looked at is not delivered. -/
def Op.call (op : Op) (o : Lexer) : Except String (List Token × Lexer) :=
  match op with
  | .peek => do
    let (_, o) ← o.peekToken
    return ([], o)
  | .next => do
    let (tok, o) ← o.nextToken
    return ([tok], o)

/-- A sequence of calls, and the tokens they deliver. -/
def run : List Op → Lexer → Except String (List Token × Lexer)
  | [], o => return ([], o)
  | op :: ops, o => do
    let (toks, o) ← op.call o
    let (toks', o) ← run ops o
    return (toks ++ toks', o)

/-- A sequence of calls is its first call and the others. -/
private theorem run_cons_eq_ok {op : Op} {ops : List Op} {o o' : Lexer} {toks : List Token} :
    run (op :: ops) o = .ok (toks, o') ↔ ∃ ts₁ o₁ ts₂, op.call o = .ok (ts₁, o₁) ∧
      run ops o₁ = .ok (ts₂, o') ∧ toks = ts₁ ++ ts₂ := by
  simp only [run, Except.bind_eq_ok, Except.pure_eq_ok, Prod.exists, Except.ok.injEq,
    Prod.mk.injEq]
  constructor
  · rintro ⟨ts₁, o₁, hcall, ts₂, o₂, hrun, rfl, rfl⟩
    exact ⟨ts₁, o₁, ts₂, hcall, hrun, rfl⟩
  · rintro ⟨ts₁, o₁, ts₂, hcall, hrun, rfl⟩
    exact ⟨ts₁, o₁, hcall, ts₂, o', hrun, rfl, rfl⟩

/-- A sequence of calls that aborts does so in one of its calls. -/
private theorem exists_of_run_error {ops : List Op} {o : Lexer} {e : String}
    (h : run ops o = .error e) : ∃ before op after toks o' e', ops = before ++ op :: after ∧
      run before o = .ok (toks, o') ∧ op.call o' = .error e' := by
  induction ops generalizing o e with
  | nil => cases h
  | cons op ops ih =>
    cases hcall : op.call o with
    | error e' => exact ⟨[], op, ops, [], o, e', rfl, rfl, hcall⟩
    | ok r =>
      obtain ⟨ts, o₁⟩ := r
      cases hrun : run ops o₁ with
      | ok r =>
        rw [run_cons_eq_ok.mpr ⟨ts, o₁, r.1, hcall, hrun, rfl⟩] at h
        cases h
      | error e₁ =>
        obtain ⟨before, op', after, toks, o', e', rfl, hok, herr⟩ := ih hrun
        exact ⟨op :: before, op', after, ts ++ toks, o', e', rfl,
          run_cons_eq_ok.mpr ⟨ts, o₁, toks, hcall, hok, rfl⟩, herr⟩

/-- The invariant of any sequence of calls: the tokens that have been delivered and those in the
    queue are the first ones of the present lexer, which is now at the same place. -/
structure Reached (source : ByteVec) (toks : List Token) (o : Lexer) (toks' : List Fiskas.Token)
    (l : Fiskas.Lexer) : Prop where
  calls : Run.calls Fiskas.Lexer.nextToken (toks.length + o.lookaheadToks.length) { source } =
    .ok (toks', l)
  agrees : List.Forall₂ (Agrees source) (toks ++ o.lookaheadToks) toks'
  source : l.source = source
  samePlace : SamePlace o l

/-- What one call does: with tokens in the queue it only moves or looks at one of them, and
    otherwise it fetches one. -/
theorem call_eq (op : Op) (o : Lexer) :
    op.call o = match o.lookaheadToks with
      | [] => do
        let (tok, o') ← o.fetchToken
        match op with
        | .peek => return ([], { o' with lookaheadToks := o'.lookaheadToks ++ [tok] })
        | .next => return ([tok], o')
      | tok :: toks =>
        match op with
        | .peek => .ok ([], o)
        | .next => .ok ([tok], { o with lookaheadToks := toks }) := by
  cases op with
  | peek =>
    rw [Op.call, peekToken]
    cases o.lookaheadToks with
    | nil => cases o.fetchToken <;> rfl
    | cons tok toks => rfl
  | next =>
    rw [Op.call, nextToken]
    cases o.lookaheadToks with
    | nil => cases o.fetchToken <;> rfl
    | cons tok toks => rfl

/-- Behind an empty queue, one more token of both lexers extends what has been scanned. -/
private theorem Reached.fetched {source : ByteVec} {toks : List Token} {o : Lexer}
    {toks' : List Fiskas.Token} {l l' : Fiskas.Lexer} {t : Token} {tok : Fiskas.Token}
    (h : Reached source toks o toks' l) (hqueue : o.lookaheadToks = [])
    (hcall : l.nextToken = .ok (tok, l')) (hagree : Agrees source t tok) :
    Run.calls Fiskas.Lexer.nextToken (toks.length + 1) { source } = .ok (toks' ++ [tok], l') ∧
      List.Forall₂ (Agrees source) (toks ++ [t]) (toks' ++ [tok]) := by
  have hagrees := h.agrees
  have hcalls := h.calls
  rw [hqueue, List.append_nil] at hagrees
  rw [hqueue, List.length_nil, Nat.add_zero] at hcalls
  have hone : Run.calls Fiskas.Lexer.nextToken 1 l = .ok ([tok], l') :=
    Run.calls_succ_eq_ok.mpr ⟨tok, l', [], hcall, rfl, rfl⟩
  constructor
  · exact Run.calls_add_eq_ok.mpr ⟨l, toks', [tok], hcalls, hone, rfl⟩
  · exact List.rel_append hagrees (.cons hagree .nil)

section

variable {source : ByteVec} (hslash : chr '/' ∉ source) (hminus : chr '-' ∉ source)
include hslash hminus

/-- One call keeps the invariant. When it aborts, the queue is empty and the present lexer aborts
    at the next token. -/
private theorem Reached.call {toks : List Token} {o : Lexer} {toks' : List Fiskas.Token}
    {l : Fiskas.Lexer} (h : Reached source toks o toks' l) (op : Op) :
    (∃ ts o' toks'' l', op.call o = .ok (ts, o') ∧ Reached source (toks ++ ts) o' toks'' l') ∨
      (o.lookaheadToks = [] ∧ (∃ e, op.call o = .error e) ∧ ∃ a, l.nextToken = .error a) := by
  rw [call_eq]
  cases hqueue : o.lookaheadToks with
  | cons tok queue =>
    -- No token is fetched, and the tokens that were scanned stay the same.
    have hagrees := h.agrees
    have hcalls := h.calls
    rw [hqueue] at hagrees hcalls
    cases op with
    | peek =>
      refine .inl ⟨[], o, toks', l, rfl, ?_, ?_, h.source, h.samePlace⟩
      · rw [List.append_nil]
        exact h.calls
      · rw [List.append_nil]
        exact h.agrees
    | next =>
      refine .inl ⟨[tok], _, toks', l, rfl, ?_, ?_, h.source, h.samePlace.source,
        h.samePlace.curr⟩
      · rw [List.length_append, List.length_singleton, Nat.add_assoc, Nat.add_comm 1]
        exact hcalls
      · rw [List.append_assoc]
        exact hagrees
  | nil =>
    have hplace := fetchToken_of_samePlace h.samePlace (h.source ▸ hslash) (h.source ▸ hminus)
    rcases hplace with ⟨t, o', tok, l', hfetch, hcall, hs, hagree, hplace', hsame⟩ | ⟨⟨e, herr⟩, ha⟩
    · -- The token that is fetched is the next one of the present lexer.
      rw [hqueue] at hsame
      rw [h.source] at hagree
      obtain ⟨hrun, hall⟩ := h.fetched hqueue hcall hagree
      dsimp only
      rw [hfetch]
      cases op with
      | peek =>
        refine .inl ⟨[], _, toks' ++ [tok], l', rfl, ?_, ?_, hs.trans h.source, hplace'.source,
          hplace'.curr⟩
        · rw [List.append_nil, hsame]
          exact hrun
        · rw [List.append_nil, hsame]
          exact hall
      | next =>
        refine .inl ⟨[t], o', toks' ++ [tok], l', rfl, ?_, ?_, hs.trans h.source, hplace'⟩
        · rw [hsame, List.length_append]
          exact hrun
        · rw [hsame, List.append_nil]
          exact hall
    · refine .inr ⟨rfl, ⟨e, ?_⟩, ha⟩
      dsimp only
      rw [herr]
      rfl

/-- A sequence of calls that does not abort keeps the invariant. -/
theorem Reached.run {toks ts : List Token} {o o' : Lexer} {toks' : List Fiskas.Token}
    {l : Fiskas.Lexer} (h : Reached source toks o toks' l) {ops : List Op}
    (hrun : Lexer.run ops o = .ok (ts, o')) :
    ∃ toks'' l', Reached source (toks ++ ts) o' toks'' l' := by
  induction ops generalizing toks o ts toks' l with
  | nil =>
    cases hrun
    rw [List.append_nil]
    exact ⟨toks', l, h⟩
  | cons op ops ih =>
    obtain ⟨ts₁, o₁, ts₂, hcall, hrest, rfl⟩ := run_cons_eq_ok.mp hrun
    rcases h.call hslash hminus op with ⟨ts', o', toks₁, l₁, hcall', h₁⟩ | ⟨_, ⟨e, herr⟩, _⟩
    · rw [hcall] at hcall'
      cases hcall'
      rw [← List.append_assoc]
      exact ih h₁ hrest
    · rw [hcall] at herr
      cases herr

end

/-! ## Counting tokens -/

/-- Scanning a token does not touch the queue. -/
private theorem lookaheadToks_tokenFrom {o o' : Lexer} {c : U8} {tok : Token}
    (h : o.tokenFrom c = .ok (tok, o')) : o'.lookaheadToks = o.lookaheadToks := by
  unfold tokenFrom oneCharToken at h
  split_ifs at h
  all_goals
    cases h
    simp only [consumeWhile_eq]

theorem lookaheadToks_fetchToken {o o' : Lexer} {tok : Token}
    (h : o.fetchToken = .ok (tok, o')) : o'.lookaheadToks = o.lookaheadToks := by
  fun_induction fetchToken o with
  | case1 o o₁ hpeek =>
    rw [← (Prod.mk.inj (Except.ok.inj h)).2]
    show (o.consumeWhile isWhitespace).lookaheadToks = _
    rw [consumeWhile_eq]
  | case2 o o₁ c hpeek hc ih =>
    rw [ih h]
    show ((o.consumeWhile isWhitespace).consumeWhile isNotNewline).lookaheadToks = _
    rw [consumeWhile_eq, consumeWhile_eq]
  | case3 o o₁ c hpeek hc =>
    rw [lookaheadToks_tokenFrom h, nextChar_of_peekChar hpeek]
    show (o.consumeWhile isWhitespace).lookaheadToks = _
    rw [consumeWhile_eq]

/-- How many tokens a sequence of calls has to scan when `queued` tokens are in the queue. -/
def asked : Nat → List Op → Nat
  | _, [] => 0
  | 0, .peek :: ops => asked 1 ops + 1
  | 0, .next :: ops => asked 0 ops + 1
  | queued + 1, .peek :: ops => asked (queued + 1) ops
  | queued + 1, .next :: ops => asked queued ops

/-- While a sequence of calls goes on without an abort, every token that it asks for is delivered
    or in the queue. -/
private theorem asked_of_run {before : List Op} {o o' : Lexer} {toks : List Token}
    (h : run before o = .ok (toks, o')) (after : List Op) :
    asked o.lookaheadToks.length (before ++ after) + o.lookaheadToks.length =
      toks.length + o'.lookaheadToks.length + asked o'.lookaheadToks.length after := by
  induction before generalizing o toks with
  | nil =>
    cases h
    rw [List.nil_append, List.length_nil]
    omega
  | cons op before ih =>
    obtain ⟨ts, o₁, ts', hcall, hrun, rfl⟩ := run_cons_eq_ok.mp h
    have ih := ih hrun
    rw [call_eq] at hcall
    rw [List.cons_append, List.length_append]
    -- The call fetches a token when the queue is empty, and otherwise uses the queue.
    cases hqueue : o.lookaheadToks with
    | nil =>
      rw [hqueue] at hcall
      simp only [Except.bind_eq_ok, Prod.exists] at hcall
      obtain ⟨tok, o₁', hfetch, hcall⟩ := hcall
      have hsame := lookaheadToks_fetchToken hfetch
      rw [hqueue] at hsame
      cases op with
      | peek =>
        cases hcall
        rw [hsame, List.nil_append, List.length_singleton] at ih
        rw [List.length_nil, asked]
        omega
      | next =>
        cases hcall
        rw [hsame, List.length_nil] at ih
        rw [List.length_nil, asked, List.length_singleton]
        omega
    | cons tok queue =>
      rw [hqueue] at hcall
      cases op with
      | peek =>
        cases hcall
        rw [hqueue, List.length_cons] at ih
        rw [List.length_cons, asked, List.length_nil]
        omega
      | next =>
        cases hcall
        rw [List.length_cons, asked, List.length_singleton]
        dsimp only at ih
        omega

/-- The first lexer aborts while it scans token `i`: a call aborts when `i` tokens have been
    delivered or are in the queue. -/
def OldAborts (source : ByteVec) (ops : List Op) (i : Nat) : Prop :=
  ∃ before op after toks o e, ops = before ++ op :: after ∧
    run before { fileContent := source } = .ok (toks, o) ∧ op.call o = .error e ∧
    i = toks.length + o.lookaheadToks.length

/-- The present lexer aborts while it scans token `i`. -/
def NewAborts (source : ByteVec) (i : Nat) : Prop :=
  ∃ toks l a, Run.calls Fiskas.Lexer.nextToken i { source } = .ok (toks, l) ∧
    l.nextToken = .error a

/-- The present lexer cannot go on behind the token that it aborts at. -/
private theorem le_of_newAborts {source : ByteVec} {i j : Nat} {toks : List Fiskas.Token}
    {l : Fiskas.Lexer} (hi : NewAborts source i)
    (hj : Run.calls Fiskas.Lexer.nextToken j { source } = .ok (toks, l)) : j ≤ i := by
  obtain ⟨toks₁, l₁, a, hrun, herr⟩ := hi
  apply Nat.le_of_not_lt
  intro hlt
  obtain ⟨d, rfl⟩ : ∃ d, j = i + 1 + d := ⟨j - i - 1, by omega⟩
  obtain ⟨l₂, _, _, hfirst, _, _⟩ := Run.calls_add_eq_ok.mp hj
  rw [Run.calls_succ_of_error hrun herr] at hfirst
  cases hfirst

/-- Before the first call nothing has been scanned. -/
private theorem reached_start (source : ByteVec) :
    Reached source [] { fileContent := source } [] { source } where
  calls := rfl
  agrees := .nil
  source := rfl
  samePlace := ⟨rfl, rfl⟩

/-- The first lexer aborts exactly where the present one does, once it is asked for that
    token. -/
private theorem oldAborts_iff {source : ByteVec} (hslash : chr '/' ∉ source)
    (hminus : chr '-' ∉ source) (ops : List Op) (i : Nat) :
    OldAborts source ops i ↔ i < asked 0 ops ∧ NewAborts source i := by
  -- A call that aborts finds an empty queue, and the present lexer aborts at the same token.
  have hold : ∀ i, OldAborts source ops i → i < asked 0 ops ∧ NewAborts source i := by
    rintro i ⟨before, op, after, toks, o, e, rfl, hrun, herr, rfl⟩
    obtain ⟨toks', l, h⟩ := (reached_start source).run hslash hminus hrun
    rcases h.call hslash hminus op with ⟨ts, o', _, _, hcall, _⟩ | ⟨hqueue, _, a, ha⟩
    · rw [herr] at hcall
      cases hcall
    · have hcount : asked 0 (before ++ op :: after) + 0 = _ := asked_of_run hrun (op :: after)
      have hask : 0 < asked 0 (op :: after) := by cases op <;> exact Nat.succ_pos _
      have hcalls := h.calls
      rw [List.nil_append] at hcalls
      refine ⟨?_, toks', l, a, hcalls, ha⟩
      rw [hqueue, List.length_nil] at hcount ⊢
      omega
  constructor
  · exact hold i
  · rintro ⟨hlt, hnew⟩
    cases hrun : run ops { fileContent := source } with
    | ok r =>
      -- Without an abort, more tokens would have been scanned than the present lexer can.
      obtain ⟨toks', l, h⟩ := (reached_start source).run hslash hminus hrun
      have hcount : asked 0 (ops ++ []) + 0 = _ := asked_of_run hrun []
      rw [List.append_nil, asked] at hcount
      have hle := le_of_newAborts hnew h.calls
      rw [List.nil_append] at hle
      omega
    | error e =>
      -- The abort is at the token at which the present lexer aborts, and that is token `i`.
      obtain ⟨before, op, after, toks, o, e', heq, hok, herr⟩ := exists_of_run_error hrun
      have habort : OldAborts source ops (toks.length + o.lookaheadToks.length) :=
        ⟨before, op, after, toks, o, e', heq, hok, herr, rfl⟩
      have hnew' := (hold _ habort).2
      have ⟨_, _, _, hcalls, _⟩ := hnew
      have ⟨_, _, _, hcalls', _⟩ := hnew'
      have hle := le_of_newAborts hnew hcalls'
      have hge := le_of_newAborts hnew' hcalls
      rwa [Nat.le_antisymm hge hle]

/-- On every source without comment and minus signs, and however calls of `peek_token` and
    `next_token` follow one another: the tokens that the first lexer delivers are the first ones
    of the present lexer, and the first lexer aborts while it scans a token exactly when the
    present one does, once it is asked for that token. -/
theorem asmCc_agrees (source : ByteVec) (hslash : chr '/' ∉ source) (hminus : chr '-' ∉ source)
    (ops : List Op) :
    (∀ toks o, run ops { fileContent := source } = .ok (toks, o) →
      ∃ toks' l, Run.calls Fiskas.Lexer.nextToken toks.length { source } = .ok (toks', l) ∧
        List.Forall₂ (Agrees source) toks toks') ∧
    ∀ i, OldAborts source ops i ↔ i < asked 0 ops ∧ NewAborts source i := by
  refine ⟨fun toks o hrun => ?_, oldAborts_iff hslash hminus ops⟩
  obtain ⟨toks', l, h⟩ := (reached_start source).run hslash hminus hrun
  -- What is in the queue was scanned, too, but not delivered.
  obtain ⟨l₁, toks₁, toks₂, hcalls, _, rfl⟩ := Run.calls_add_eq_ok.mp h.calls
  refine ⟨toks₁, l₁, hcalls, ?_⟩
  have hagrees := List.forall₂_take_append _ _ _ h.agrees
  rw [Run.calls_length hcalls] at hagrees
  rwa [List.nil_append, List.take_left] at hagrees

/-- A mnemonic, looked at twice and then delivered, in front of a character that no token starts
    with. -/
theorem asmCc_agrees_mov :
    (chr '/' ∉ str "mov _" ∧ chr '-' ∉ str "mov _") ∧
      ∀ i, OldAborts (str "mov _") [.peek, .peek, .next, .next] i ↔
        i < 2 ∧ NewAborts (str "mov _") i := by
  have hslash : chr '/' ∉ str "mov _" := by decide
  have hminus : chr '-' ∉ str "mov _" := by decide
  exact ⟨⟨hslash, hminus⟩,
    (asmCc_agrees (str "mov _") hslash hminus [.peek, .peek, .next, .next]).2⟩

end Lexer

end Fiskas.AsmCc
