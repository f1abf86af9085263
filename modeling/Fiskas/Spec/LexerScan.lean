import Fiskas.ForStd.Munch
import Fiskas.ForStd.Run
import Fiskas.Native.Lexer

/-!
# The lexer is a maximal munch scanner

The abstract model of the lexer is the scanner `lexRules`: gaps are runs of whitespace and the
first character of a token decides its class. `nextToken_spec` shows that `next_token` takes
one step of this scanner on the source from the cursor on, whatever the cursor's past, and
`calls_nextToken` and `calls_of_scans` lift this to runs: a run that does not abort is a scan
followed by Eof tokens.

## Key results

- `nextToken_spec`: one call is one step of the scanner
- `calls_nextToken`, `calls_of_scans`: runs are scans, and scans are runs
- `isToken_matches`: what the text of a token of each kind looks like
-/

namespace Fiskas

/-! ## The scanner -/

/-- The one character tokens. -/
def punctKind (c : U8) : Option TokenKind :=
  if c = chr '(' then some .leftParen
  else if c = chr ')' then some .rightParen
  else if c = chr '{' then some .leftBrace
  else if c = chr '}' then some .rightBrace
  else if c = chr ',' then some .comma
  else if c = chr ';' then some .semiColon
  else none

/-- The kind of the tokens that start with a character, before the keywords are looked up. -/
def startKind (c : U8) : Option TokenKind :=
  match punctKind c with
  | some k => some k
  | none =>
    if Cursor.isNumber c then some .number
    else if Cursor.isIdentStart c then some .identifier
    else none

/-- The characters that continue a token. -/
def contKind : TokenKind → U8 → Bool
  | .number, c => Cursor.isNumber c
  | .identifier, c => Cursor.isIdentContinue c
  | _, _ => false

/-- The scanner that the lexer implements. -/
def lexRules : Munch.Rules U8 TokenKind where
  gap := Cursor.isWhitespace
  start := startKind
  cont := contKind
  start_of_gap := by decide +kernel
  cont_of_gap := by
    intro k
    cases k <;> decide +kernel

namespace Cursor

/-- The source from the cursor on. -/
def rest (c : Cursor) : ByteVec := c.source.drop c.curr

theorem eof_iff (c : Cursor) : c.eof = true ↔ c.rest = [] := by
  simp [eof, pos, rest]

theorem peekChar_eq_head? (c : Cursor) : c.peekChar = c.rest.head? := by
  ext ch
  rw [peekChar_eq_some, rest, List.head?_drop]

/-- Reading a character that is there. -/
theorem nextChar_of_rest {c : Cursor} {ch : U8} {cs : ByteVec} (h : c.rest = ch :: cs) :
    c.nextChar = (some ch, { c with curr := c.curr + 1, prev := ch }) := by
  have heof : ¬ c.eof = true := by
    rw [eof_iff, h]
    exact List.cons_ne_nil ch cs
  have hderef : c.deref = ch := by
    -- The character at the cursor is the first one of the rest.
    have hget : c.source[c.curr]? = some ch := by
      rw [← List.head?_drop]
      exact congrArg List.head? h
    rw [deref, List.getD_eq_getElem?_getD, hget]
    rfl
  rw [nextChar, if_neg heof, hderef]

/-- The rest after one more character. -/
theorem rest_succ {c c' : Cursor} {ch : U8} {cs : ByteVec} (h : c.rest = ch :: cs)
    (hs : c'.source = c.source) (hc : c'.curr = c.curr + 1) : c'.rest = cs := by
  rw [rest, hs, hc, ← List.drop_drop]
  show (c.rest).drop 1 = cs
  rw [h]
  rfl

/-- The rest after any number of characters. -/
theorem rest_of_append {c c' : Cursor} {front back : ByteVec} (h : c.rest = front ++ back)
    (hs : c'.source = c.source) (hc : c'.curr = c.curr + front.length) : c'.rest = back := by
  rw [rest, hs, hc, ← List.drop_drop]
  show (c.rest).drop front.length = back
  rw [h, List.drop_left]

/-- The text behind a part of the rest, as `source_substring` gives it. -/
theorem sourceSubstring_of_rest {c c' : Cursor} {g text after : ByteVec}
    (hs : c'.source = c.source) (h : c.rest = g ++ (text ++ after)) :
    c'.sourceSubstring (c.curr + g.length) (c.curr + g.length + text.length) = text := by
  rw [sourceSubstring, hs, Nat.add_sub_cancel_left]
  show (c.source.drop (c.curr + g.length)).take text.length = text
  rw [← List.drop_drop]
  show (c.rest.drop g.length).take text.length = text
  rw [h, List.drop_left, List.take_left]

/-- `eat_while` takes the longest run of matching characters. -/
theorem eatWhile_spec (p : U8 → Bool) (c : Cursor) :
    (c.eatWhile p).source = c.source ∧
      (c.eatWhile p).curr = c.curr + (c.rest.takeWhile p).length ∧
      (c.eatWhile p).rest = c.rest.dropWhile p := by
  fun_induction eatWhile p c with
  | case1 c ch hpeek hp ih =>
    rw [peekChar_eq_head?] at hpeek
    obtain ⟨cs, hrest⟩ : ∃ cs, c.rest = ch :: cs := List.head?_eq_some_iff.mp hpeek
    rw [nextChar_of_rest hrest] at ih
    -- One character was eaten, and the loop goes on from the next one.
    have hrest' : Cursor.rest { c with curr := c.curr + 1, prev := ch } = cs :=
      rest_succ hrest rfl rfl
    obtain ⟨hsource, hcurr, hdrop⟩ := ih
    rw [hrest'] at hcurr hdrop
    rw [nextChar_of_rest hrest, hrest, List.takeWhile_cons_of_pos hp,
      List.dropWhile_cons_of_pos hp]
    refine ⟨hsource, ?_, hdrop⟩
    rw [hcurr, List.length_cons]
    dsimp only
    omega
  | case2 c ch hpeek hp =>
    rw [peekChar_eq_head?] at hpeek
    obtain ⟨cs, hrest⟩ : ∃ cs, c.rest = ch :: cs := List.head?_eq_some_iff.mp hpeek
    rw [hrest, List.takeWhile_cons_of_neg hp, List.dropWhile_cons_of_neg hp]
    exact ⟨rfl, rfl, rfl⟩
  | case3 c hpeek =>
    rw [peekChar_eq_head?, List.head?_eq_none_iff] at hpeek
    rw [hpeek]
    exact ⟨rfl, rfl, rfl⟩

end Cursor

namespace Lexer

/-! ## One call -/

/-- The `switch` of `next_token`: one character tokens, then the others. -/
private theorem tokenKindOf_eq (l : Lexer) (c : U8) :
    tokenKindOf l c =
      match punctKind c with
      | some k => .ok (k, l)
      | none => l.multiCharTokenKind := by
  unfold tokenKindOf punctKind
  split_ifs <;> rfl

/-- Nothing continues a one character token. -/
private theorem contKind_of_punct {c : U8} {k : TokenKind} (h : punctKind c = some k) :
    contKind k = fun _ => false := by
  -- Only numbers and identifiers are longer than one character.
  have hk : k ≠ .number ∧ k ≠ .identifier := by
    unfold punctKind at h
    split_ifs at h <;> cases h <;> decide
  funext x
  cases k <;> first | rfl | exact absurd rfl hk.1 | exact absurd rfl hk.2

/-- The token that starts with `c`, after `c` was read: its kind and how far it extends. -/
private theorem tokenKindOf_spec {l : Lexer} {c : U8} (hprev : l.prev = c) :
    match startKind c with
    | none => ∃ a, tokenKindOf l c = .error a
    | some k => ∃ l', tokenKindOf l c = .ok (k, l') ∧ l'.source = l.source ∧
        l'.curr = l.curr + (l.rest.takeWhile (contKind k)).length := by
  rw [tokenKindOf_eq, startKind]
  cases hpunct : punctKind c with
  | some k =>
    refine ⟨l, rfl, rfl, ?_⟩
    rw [contKind_of_punct hpunct]
    cases l.rest <;> rfl
  | none =>
    simp only [multiCharTokenKind, hprev]
    -- `multi_char_token_kind` looks at the character just read, which is in `prev`.
    by_cases hnum : Cursor.isNumber c = true
    · simp only [hnum, ↓reduceIte]
      obtain ⟨hs, hc, _⟩ := Cursor.eatWhile_spec Cursor.isNumber l
      exact ⟨_, rfl, hs, hc⟩
    · by_cases hident : Cursor.isIdentStart c = true
      · simp only [hnum, hident, Bool.false_eq_true, ↓reduceIte]
        obtain ⟨hs, hc, _⟩ := Cursor.eatWhile_spec Cursor.isIdentContinue l
        exact ⟨_, rfl, hs, hc⟩
      · simp only [hnum, hident, Bool.false_eq_true, ↓reduceIte]
        exact ⟨_, rfl⟩

/-- One call of `next_token` is one step of the scanner on the source from the cursor on. -/
theorem nextToken_spec (l : Lexer) :
    match lexRules.next l.rest with
    | .done => ∃ l', l.nextToken = .ok (Token.gen .eof 0 0, l') ∧ l'.source = l.source ∧
        l'.curr = l.curr + l.rest.length
    | .stuck => ∃ a, l.nextToken = .error a
    | .token k g text _ => ∃ l',
        l.nextToken =
          .ok (Token.gen (keywordKind k text) (l.curr + g.length) text.length, l') ∧
        l'.source = l.source ∧ l'.curr = l.curr + (g ++ text).length := by
  obtain ⟨hs₁, hc₁, hr₁⟩ := Cursor.eatWhile_spec Cursor.isWhitespace l
  unfold nextToken
  -- From here on `l₁` is the cursor behind the white space.
  generalize l.eatWhile Cursor.isWhitespace = l₁ at hs₁ hc₁ hr₁
  cases hrest : l₁.rest with
  | nil =>
    have heof : l₁.eof = true := (Cursor.eof_iff l₁).mpr hrest
    rw [hrest] at hr₁
    rw [Munch.Rules.next_of_nil (R := lexRules) hr₁.symm]
    refine ⟨l₁, by simp only [heof, ↓reduceIte, Except.pure_eq_ok], hs₁, ?_⟩
    rw [hc₁, List.takeWhile_eq_self_iff.mpr (List.dropWhile_eq_nil_iff.mp hr₁.symm)]
  | cons c cs =>
    have heof : l₁.eof = false := by
      rw [← Bool.not_eq_true, Cursor.eof_iff, hrest]
      exact List.cons_ne_nil c cs
    -- The first character of the token is read, and decides its kind.
    have hchar : l₁.nextCharPnc = .ok (c, { l₁ with curr := l₁.curr + 1, prev := c }) := by
      rw [Cursor.nextCharPnc, heof, Cursor.nextChar_of_rest hrest]
      rfl
    have hrest₂ : Cursor.rest { l₁ with curr := l₁.curr + 1, prev := c } = cs :=
      Cursor.rest_succ hrest rfl rfl
    have hkind := tokenKindOf_spec
      (l := { l₁ with curr := l₁.curr + 1, prev := c }) (c := c) rfl
    rw [hrest] at hr₁
    simp only [heof, Bool.false_eq_true, ↓reduceIte, hchar, Except.ok_bind']
    cases hstart : startKind c with
    | none =>
      rw [hstart] at hkind
      obtain ⟨a, hkind⟩ := hkind
      rw [Munch.Rules.next_of_stuck (R := lexRules) hr₁.symm hstart]
      exact ⟨a, by rw [hkind]; rfl⟩
    | some k =>
      rw [hstart] at hkind
      obtain ⟨l', hkind, hs', hc'⟩ := hkind
      rw [hrest₂] at hc'
      have hsource : l'.source = l.source := hs'.trans hs₁
      have hcurr : l'.curr = l₁.curr + (c :: cs.takeWhile (contKind k)).length := by
        rw [hc', List.length_cons]
        dsimp only
        omega
      -- The text that is looked up among the keywords is the text that was scanned.
      have htext : l'.sourceSubstring l₁.curr l'.curr = c :: cs.takeWhile (contKind k) := by
        have hsplit : l₁.rest =
            [] ++ ((c :: cs.takeWhile (contKind k)) ++ cs.dropWhile (contKind k)) := by
          rw [hrest, List.nil_append, List.cons_append, List.takeWhile_append_dropWhile]
        have hsame : l'.source = l₁.source := hs'
        rw [hcurr]
        exact Cursor.sourceSubstring_of_rest hsame hsplit
      rw [Munch.Rules.next_of_start (R := lexRules) hr₁.symm hstart]
      refine ⟨l', ?_, hsource, ?_⟩
      · rw [hkind]
        simp only [Except.ok_bind', Except.pure_eq_ok, Cursor.pos, htext]
        rw [hcurr, Nat.add_sub_cancel_left, hc₁]
        rfl
      · rw [hcurr, hc₁, List.length_append, Nat.add_assoc]
        rfl

/-- What a successful call returned: Eof when only whitespace was left, and otherwise the
    token that the scanner finds. -/
theorem nextToken_ok {l l' : Lexer} {tok : Token} (h : l.nextToken = .ok (tok, l')) :
    l'.source = l.source ∧
      ((lexRules.IsGap l.rest ∧ tok = Token.gen .eof 0 0 ∧ l'.curr = l.curr + l.rest.length ∧
          l'.rest = []) ∨
        ∃ k g text rest, lexRules.next l.rest = .token k g text rest ∧
          tok = Token.gen (keywordKind k text) (l.curr + g.length) text.length ∧
          l'.curr = l.curr + (g ++ text).length ∧ l'.rest = rest) := by
  have hspec := nextToken_spec l
  -- `nextToken_spec` gives the result of the call, which is the one at hand.
  cases hnext : lexRules.next l.rest with
  | done =>
    rw [hnext] at hspec
    obtain ⟨m, hok, hs, hc⟩ := hspec
    rw [h] at hok
    obtain ⟨rfl, rfl⟩ := Prod.mk.inj (Except.ok.inj hok)
    refine ⟨hs, Or.inl ⟨Munch.Rules.next_eq_done.mp hnext, rfl, hc, ?_⟩⟩
    exact Cursor.rest_of_append (List.append_nil _).symm hs hc
  | stuck =>
    rw [hnext] at hspec
    obtain ⟨a, herr⟩ := hspec
    rw [h] at herr
    exact nomatch herr
  | token k g text rest =>
    rw [hnext] at hspec
    obtain ⟨m, hok, hs, hc⟩ := hspec
    rw [h] at hok
    obtain ⟨rfl, rfl⟩ := Prod.mk.inj (Except.ok.inj hok)
    refine ⟨hs, Or.inr ⟨k, g, text, rest, rfl, rfl, hc, ?_⟩⟩
    have hparts := (Munch.Rules.next_eq_token.mp hnext).1
    rw [← List.append_assoc] at hparts
    exact Cursor.rest_of_append hparts hs hc

/-- A call that finds a token returns it. -/
theorem nextToken_of_token {l : Lexer} {k : TokenKind} {g text rest : ByteVec}
    (h : lexRules.next l.rest = .token k g text rest) :
    ∃ l', l.nextToken =
        .ok (Token.gen (keywordKind k text) (l.curr + g.length) text.length, l') ∧
      l'.source = l.source ∧ l'.curr = l.curr + (g ++ text).length ∧ l'.rest = rest := by
  have hspec := nextToken_spec l
  rw [h] at hspec
  obtain ⟨l', hok, hs, hc⟩ := hspec
  have hparts := (Munch.Rules.next_eq_token.mp h).1
  rw [← List.append_assoc] at hparts
  exact ⟨l', hok, hs, hc, Cursor.rest_of_append hparts hs hc⟩

/-- A call with only whitespace left returns Eof. -/
theorem nextToken_of_gap {l : Lexer} (h : lexRules.IsGap l.rest) :
    ∃ l', l.nextToken = .ok (Token.gen .eof 0 0, l') ∧ l'.source = l.source ∧
      l'.curr = l.curr + l.rest.length ∧ l'.rest = [] := by
  have hspec := nextToken_spec l
  rw [Munch.Rules.next_eq_done.mpr h] at hspec
  obtain ⟨l', hok, hs, hc⟩ := hspec
  exact ⟨l', hok, hs, hc, Cursor.rest_of_append (List.append_nil _).symm hs hc⟩

/-- At the end of the source a call returns Eof and does not move the cursor. -/
theorem nextToken_of_nil {l : Lexer} (h : l.rest = []) :
    l.nextToken = .ok (Token.gen .eof 0 0, l) := by
  have hpeek : l.peekChar = none := by
    rw [Cursor.peekChar_eq_head?, h]
    rfl
  have heat : l.eatWhile Cursor.isWhitespace = l := by
    rw [Cursor.eatWhile]
    split
    · next hsome =>
      rw [hpeek] at hsome
      cases hsome
    · rfl
  rw [nextToken]
  simp only [heat, (Cursor.eof_iff l).mpr h, ↓reduceIte]
  rfl

/-! ## Runs -/

/-- At the end of the source every later call does so. -/
theorem calls_of_nil {l : Lexer} (h : l.rest = []) (m : Nat) :
    Run.calls nextToken m l = .ok (List.replicate m (Token.gen .eof 0 0), l) := by
  induction m with
  | zero => rfl
  | succ m ih => exact Run.calls_succ_eq_ok.mpr ⟨_, l, _, nextToken_of_nil h, ih, rfl⟩

/-- The gap, the class and the text of each token that a scan finds. -/
abbrev ScanSteps := List (ByteVec × TokenKind × ByteVec)

/-- The tokens of a scan that starts at an offset. -/
def tokensAt (offset : Nat) : ScanSteps → List Token
  | [] => []
  | (g, k, text) :: steps =>
    Token.gen (keywordKind k text) (offset + g.length) text.length ::
      tokensAt (offset + (g ++ text).length) steps

/-- A run that does not abort is a scan, followed by Eof tokens once only whitespace is left. -/
theorem calls_nextToken {n : Nat} {l l' : Lexer} {toks : List Token}
    (h : Run.calls nextToken n l = .ok (toks, l')) :
    l'.source = l.source ∧
      ∃ steps m rest, n = steps.length + m ∧
        toks = tokensAt l.curr steps ++ List.replicate m (Token.gen .eof 0 0) ∧
        Munch.Rules.Scans lexRules l.rest steps rest ∧
        ((m = 0 ∧ l'.curr = l.curr + (Munch.Rules.covered steps).length) ∨
          (lexRules.IsGap rest ∧ l'.curr = l.curr + l.rest.length)) := by
  -- Induction on the number of calls: a token in front of the run is a step in front of the
  -- scan, and an Eof ends it.
  induction n generalizing l toks with
  | zero =>
    simp only [Run.calls_zero, Except.ok.injEq, Prod.mk.injEq] at h
    obtain ⟨rfl, rfl⟩ := h
    exact ⟨rfl, [], 0, l.rest, rfl, rfl, .nil _, Or.inl ⟨rfl, rfl⟩⟩
  | succ n ih =>
    obtain ⟨tok, l₁, toks', hcall, hrun, rfl⟩ := Run.calls_succ_eq_ok.mp h
    obtain ⟨hs, steps, m, rest, hn, htoks, hscan, hend⟩ := ih hrun
    obtain ⟨hs₁, hcase⟩ := nextToken_ok hcall
    refine ⟨hs.trans hs₁, ?_⟩
    rcases hcase with ⟨hgap, rfl, hc₁, hr₁⟩ | ⟨k, g, text, rest₁, hnext, rfl, hc₁, hr₁⟩
    · -- After an Eof nothing is left, so the rest of the run is Eof tokens only.
      rw [hr₁] at hscan hend
      have hnil := hscan.eq_append
      have hsteps : steps = [] := by
        cases hscan with
        | nil => rfl
        | cons hnext' _ => exact nomatch hnext'
      subst hsteps
      refine ⟨[], m + 1, l.rest, by simp only [List.length_nil] at hn ⊢; omega, ?_, .nil _,
        Or.inr ⟨hgap, ?_⟩⟩
      · rw [htoks]
        rfl
      · rcases hend with ⟨_, hc⟩ | ⟨_, hc⟩
        · simp only [Munch.Rules.covered, List.flatMap_nil, List.length_nil] at hc
          omega
        · simp only [List.length_nil] at hc
          omega
    · rw [hr₁] at hscan hend
      -- The cursor has moved by what the token and the later steps cover.
      have hparts := (Munch.Rules.next_eq_token.mp hnext).1
      refine ⟨(g, k, text) :: steps, m, rest, by rw [List.length_cons]; omega, ?_,
        .cons hnext hscan, ?_⟩
      · rw [htoks, hc₁]
        rfl
      · rcases hend with ⟨hm, hc⟩ | ⟨hgap, hc⟩
        · refine Or.inl ⟨hm, ?_⟩
          simp only [Munch.Rules.covered, List.flatMap_cons, List.length_append] at hc hc₁ ⊢
          omega
        · refine Or.inr ⟨hgap, ?_⟩
          rw [hparts]
          simp only [List.length_append] at hc hc₁ ⊢
          omega

/-- Every scan is what the lexer does. -/
theorem calls_of_scans {l : Lexer} {steps : ScanSteps} {rest : ByteVec}
    (h : Munch.Rules.Scans lexRules l.rest steps rest) :
    ∃ l', Run.calls nextToken steps.length l = .ok (tokensAt l.curr steps, l') ∧
      l'.source = l.source ∧ l'.rest = rest := by
  induction steps generalizing l with
  | nil =>
    cases h
    exact ⟨l, rfl, rfl, rfl⟩
  | cons s steps ih =>
    cases h with
    | cons hnext hscan =>
      obtain ⟨l₁, hcall, hs₁, hc₁, hr₁⟩ := nextToken_of_token hnext
      obtain ⟨l', hrun, hs', hr'⟩ := ih (hr₁ ▸ hscan)
      refine ⟨l', Run.calls_succ_eq_ok.mpr ⟨_, l₁, _, hcall, hrun, ?_⟩, hs'.trans hs₁, hr'⟩
      rw [tokensAt, hc₁]

end Lexer

/-! ## Token texts -/

/-- What the text of a token of each kind looks like. A number is a row of digits and an
    identifier a letter with letters, digits and underscores behind it (`isNumber_iff`,
    `isIdentStart_iff`, `isIdentContinue_iff`). -/
def TokenKind.Matches : TokenKind → ByteVec → Prop
  | .leftParen, text => text = str "("
  | .rightParen, text => text = str ")"
  | .leftBrace, text => text = str "\x7b"
  | .rightBrace, text => text = str "\x7d"
  | .semiColon, text => text = str ";"
  | .comma, text => text = str ","
  | .fn, text => text = str "fn"
  | .number, text => text ≠ [] ∧ ∀ c ∈ text, Cursor.isNumber c = true
  | .identifier, text =>
    (∃ c cs, text = c :: cs ∧ Cursor.isIdentStart c = true ∧
      ∀ x ∈ cs, Cursor.isIdentContinue x = true) ∧ text ≠ str "fn"
  | .invalid, _ | .eof, _ => False

/-- The class that a kind is scanned as, before the keywords are looked up. -/
def TokenKind.scanned : TokenKind → TokenKind
  | .fn => .identifier
  | kind => kind

theorem startKind_eq_number (c : U8) :
    startKind c = some .number ↔ Cursor.isNumber c = true := by
  revert c
  decide +kernel

theorem startKind_eq_identifier (c : U8) :
    startKind c = some .identifier ↔ Cursor.isIdentStart c = true := by
  revert c
  decide +kernel

/-- No character starts a keyword, an Eof or an invalid token. -/
theorem startKind_ne (c : U8) :
    startKind c ≠ some .fn ∧ startKind c ≠ some .eof ∧ startKind c ≠ some .invalid := by
  revert c
  decide +kernel

/-- The keyword lookup on an identifier. -/
theorem keywordKind_identifier (text : ByteVec) :
    Lexer.keywordKind .identifier text = if text = str "fn" then .fn else .identifier := by
  rw [Lexer.keywordKind, if_pos rfl, StringMap.find, Lexer.keywords, List.lookup_cons,
    List.lookup_nil]
  by_cases h : text = str "fn"
  · simp [h]
  · rw [if_neg h, beq_eq_false_iff_ne.mpr h]
    rfl

theorem keywordKind_of_ne {k : TokenKind} (h : k ≠ .identifier) (text : ByteVec) :
    Lexer.keywordKind k text = k := by
  rw [Lexer.keywordKind, if_neg h]

/-- A one character token is its character. -/
private theorem singleton_of_isToken {k : TokenKind} {text : ByteVec} {ch : Char}
    (h : lexRules.IsToken k text) (hcont : contKind k = fun _ => false)
    (hstart : ∀ c, startKind c = some k → c = chr ch) : text = [chr ch] := by
  obtain ⟨c, cs, rfl, hc, hcs⟩ := h
  -- Nothing continues a one character token.
  have hnil : cs = [] := by
    cases cs with
    | nil => rfl
    | cons x xs =>
      have hx : contKind k x = true := hcs x List.mem_cons_self
      rw [hcont] at hx
      exact nomatch hx
  rw [hnil, hstart c hc]

/-- The text of a scanned token matches the kind that the lexer gives it. -/
theorem isToken_matches {k : TokenKind} {text : ByteVec} (h : lexRules.IsToken k text) :
    (Lexer.keywordKind k text).Matches text := by
  cases k with
  | identifier =>
    obtain ⟨c, cs, rfl, hc, hcs⟩ := h
    rw [keywordKind_identifier]
    split
    · next hfn => exact hfn
    · next hfn => exact ⟨⟨c, cs, rfl, (startKind_eq_identifier c).mp hc, hcs⟩, hfn⟩
  | number =>
    obtain ⟨c, cs, rfl, hc, hcs⟩ := h
    refine ⟨List.cons_ne_nil c cs, fun x hx => ?_⟩
    rcases List.mem_cons.mp hx with rfl | hx
    · exact (startKind_eq_number x).mp hc
    · exact hcs x hx
  | fn | eof | invalid =>
    obtain ⟨c, _, _, hc, _⟩ := h
    obtain ⟨hfn, heof, hinv⟩ := startKind_ne c
    first | exact absurd hc hfn | exact absurd hc heof | exact absurd hc hinv
  | leftParen | rightParen | leftBrace | rightBrace | semiColon | comma =>
    exact singleton_of_isToken h rfl (by decide +kernel)

/-- A text that matches a kind is scanned as a token of that kind. -/
theorem matches_isToken {kind : TokenKind} {text : ByteVec} (h : kind.Matches text) :
    lexRules.IsToken kind.scanned text ∧ Lexer.keywordKind kind.scanned text = kind := by
  have hword : ∀ c cs, text = c :: cs → Cursor.isIdentStart c = true →
      (∀ x ∈ cs, Cursor.isIdentContinue x = true) → lexRules.IsToken .identifier text :=
    fun c cs htext hc hcs => ⟨c, cs, htext, (startKind_eq_identifier c).mpr hc, hcs⟩
  cases kind with
  | identifier =>
    obtain ⟨⟨c, cs, htext, hc, hcs⟩, hfn⟩ := h
    refine ⟨hword c cs htext hc hcs, ?_⟩
    show Lexer.keywordKind .identifier text = .identifier
    rw [keywordKind_identifier, if_neg hfn]
  | fn =>
    -- The keyword is scanned as the identifier it spells.
    have htext : text = str "fn" := h
    refine ⟨hword (chr 'f') [chr 'n'] htext (by decide) (by decide), ?_⟩
    show Lexer.keywordKind .identifier text = .fn
    rw [keywordKind_identifier, if_pos htext]
  | number =>
    obtain ⟨hne, hall⟩ := h
    cases text with
    | nil => exact absurd rfl hne
    | cons c cs =>
      exact ⟨⟨c, cs, rfl, (startKind_eq_number c).mpr (hall c List.mem_cons_self),
        fun x hx => hall x (List.mem_cons_of_mem c hx)⟩, keywordKind_of_ne (by decide) _⟩
  | eof | invalid => exact absurd h (by simp [TokenKind.Matches])
  | leftParen | rightParen | leftBrace | rightBrace | semiColon | comma =>
    refine ⟨⟨_, [], h, by decide +kernel, by simp⟩, keywordKind_of_ne (by decide) _⟩

end Fiskas
