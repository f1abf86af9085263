import Fiskas.Spec.LexerScan

/-!
# The tokens of a source text

What a run of `next_token` says about the source, and what a source says about the run.

`calls_lossless` reads a run that did not abort: its tokens cut the source up to the cursor
into spans and white space, every span is a word of its kind and none could be longer.
`Layout` goes the other way: a list of token texts with white space around them, wide enough
where two neighbours would run into each other. Lexing the text of a layout gives back its
tokens (`lexed_layout`).

## Key results

- `calls_lossless`: tokenisation is lossless and maximal
- `lexed_layout_text`: lexing a layout, and any two layouts of the same tokens
-/

namespace Fiskas

/-- A run of white space. -/
def IsWs (g : ByteVec) : Prop := ∀ c ∈ g, Cursor.isWhitespace c = true

instance (g : ByteVec) : Decidable (IsWs g) := inferInstanceAs (Decidable (∀ c ∈ g, _))

/-- White space is made of line feeds, blanks, tabulators and carriage returns. -/
theorem isWs_iff {g : ByteVec} : IsWs g ↔ ∀ c ∈ g, c ∈ str "\n \t\r" :=
  forall₂_congr fun _ _ => Cursor.isWhitespace_iff

/-- The text of a token: `source_substring(tok.offset, tok.offset + tok.len)`. -/
def Token.text (source : ByteVec) (t : Token) : ByteVec :=
  Cursor.sourceSubstring { source } t.offset (t.offset + t.len)

theorem Token.text_eq (source : ByteVec) (t : Token) :
    t.text source = (source.drop t.offset).take t.len := by
  rw [Token.text, Cursor.sourceSubstring, Nat.add_sub_cancel_left]

/-- A token that spans a known part of the source has that part as its text. -/
theorem Token.text_gen (kind : TokenKind) (before text after : ByteVec) :
    (Token.gen kind before.length text.length).text (before ++ (text ++ after)) = text := by
  rw [Token.text_eq, Token.gen, List.drop_left, List.take_left]

/-! ## Tokens of a scan -/

/-- The class of a token is found again from its kind. -/
theorem scanned_keywordKind {k : TokenKind} {text : ByteVec} (h : lexRules.IsToken k text) :
    (Lexer.keywordKind k text).scanned = k := by
  by_cases hk : k = .identifier
  · subst hk
    rw [keywordKind_identifier]
    split <;> rfl
  · rw [keywordKind_of_ne hk]
    obtain ⟨c, _, _, hc, _⟩ := h
    have hfn : k ≠ .fn := fun hk => (startKind_ne c).1 (hk ▸ hc)
    cases k with
    | fn => exact absurd rfl hfn
    | _ => rfl

theorem keywordKind_ne_eof {k : TokenKind} {text : ByteVec} (h : lexRules.IsToken k text) :
    Lexer.keywordKind k text ≠ .eof := by
  intro heof
  have := isToken_matches h
  rw [heof] at this
  exact this

namespace Lexer

open Munch.Rules

/-- Every token of a scan stands at a place of the source where its text is a word of its
    class that the source does not continue. -/
private theorem mem_tokensAt {xs rest : ByteVec} {steps : ScanSteps}
    (h : Scans lexRules xs steps rest) (front : ByteVec) {t : Token}
    (ht : t ∈ tokensAt front.length steps) :
    ∃ before k text after, front ++ xs = before ++ (text ++ after) ∧
      front.length ≤ before.length ∧
      before.length + text.length ≤ front.length + (covered steps).length ∧
      t = Token.gen (keywordKind k text) before.length text.length ∧
      lexRules.IsToken k text ∧ lexRules.Stops k after := by
  -- Induction on the scan; `front` is the part of the source before it.
  induction h generalizing front with
  | nil => exact absurd ht List.not_mem_nil
  | @cons xs g text rest last k steps hnext _ ih =>
    obtain ⟨hparts, _, htoken, hstop⟩ := next_eq_token.mp hnext
    have hcov : (covered ((g, k, text) :: steps)).length =
        g.length + text.length + (covered steps).length := by
      rw [covered, List.flatMap_cons, List.length_append, List.length_append]
      rfl
    rw [tokensAt, List.mem_cons] at ht
    rcases ht with rfl | ht
    · refine ⟨front ++ g, k, text, rest, ?_, ?_, ?_, ?_, htoken, hstop⟩
      · rw [hparts, List.append_assoc]
      · simp only [List.length_append]; omega
      · simp only [List.length_append]; omega
      · rw [List.length_append]
    · -- The later tokens are those of a scan behind this one.
      rw [← List.length_append] at ht
      obtain ⟨before, k', text', after, heq, hlow, hhigh, hrest⟩ := ih (front ++ (g ++ text)) ht
      simp only [List.length_append] at hlow hhigh
      refine ⟨before, k', text', after, ?_, by omega, by omega, hrest⟩
      rw [← heq, hparts]
      simp only [List.append_assoc]

/-- The kinds and texts of the tokens of a scan. -/
private theorem map_tokensAt {xs rest : ByteVec} {steps : ScanSteps}
    (h : Scans lexRules xs steps rest) (front : ByteVec) :
    (tokensAt front.length steps).map (fun t => (t.kind, t.text (front ++ xs))) =
      steps.map fun s => (keywordKind s.2.1 s.2.2, s.2.2) := by
  induction h generalizing front with
  | nil => rfl
  | @cons xs g text rest last k steps hnext _ ih =>
    obtain ⟨hparts, _, _, _⟩ := next_eq_token.mp hnext
    have hsource : front ++ xs = (front ++ g) ++ (text ++ rest) := by
      rw [hparts, List.append_assoc]
    -- For the later tokens, this token and its gap are part of the front.
    have hlater : front ++ xs = (front ++ (g ++ text)) ++ rest := by
      rw [hsource]
      simp only [List.append_assoc]
    have ih := ih (front ++ (g ++ text))
    rw [← hlater, List.length_append] at ih
    rw [tokensAt, List.map_cons, List.map_cons, ih, ← List.length_append]
    congr 1
    rw [hsource, Token.text_gen]
    rfl

/-- The tokens of a scan follow one another without overlap. -/
private theorem pairwise_tokensAt {xs rest : ByteVec} {steps : ScanSteps}
    (h : Scans lexRules xs steps rest) (front : ByteVec) :
    (tokensAt front.length steps).Pairwise fun a b =>
      a.offset < b.offset ∧ a.offset + a.len ≤ b.offset := by
  induction h generalizing front with
  | nil => exact List.Pairwise.nil
  | @cons xs g text rest last k steps hnext hscan ih =>
    obtain ⟨_, _, ⟨c, cs, htext, _, _⟩, _⟩ := next_eq_token.mp hnext
    rw [tokensAt]
    refine List.Pairwise.cons ?_ ?_
    · intro b hb
      rw [← List.length_append] at hb
      obtain ⟨before, k', text', after, _, hlow, _, rfl, _, _⟩ := mem_tokensAt hscan _ hb
      simp only [List.length_append, Token.gen] at hlow ⊢
      -- A token is not empty, so the next one starts at a larger offset.
      have hpos : 0 < text.length := by rw [htext, List.length_cons]; omega
      omega
    · rw [← List.length_append]
      exact ih (front ++ (g ++ text))

/-- No token of a scan is an Eof. -/
theorem ne_eof_of_mem_tokensAt {xs rest : ByteVec} {steps : ScanSteps}
    (h : Scans lexRules xs steps rest) (front : ByteVec) {t : Token}
    (ht : t ∈ tokensAt front.length steps) : t.kind ≠ .eof := by
  obtain ⟨_, k, text, _, _, _, _, rfl, htoken, _⟩ := mem_tokensAt h front ht
  exact keywordKind_ne_eof htoken

/-- The tokens other than Eof are those of the scan. -/
private theorem filter_tokensAt {xs rest : ByteVec} {steps : ScanSteps}
    (h : Scans lexRules xs steps rest) (front : ByteVec) (m : Nat) :
    (tokensAt front.length steps ++ List.replicate m (Token.gen .eof 0 0)).filter
      (fun t => t.kind ≠ .eof) = tokensAt front.length steps := by
  -- The filter keeps every token of the scan and drops every Eof behind it.
  have hkeep : ∀ t ∈ tokensAt front.length steps, decide (t.kind ≠ .eof) = true :=
    fun t ht => decide_eq_true (ne_eof_of_mem_tokensAt h front ht)
  rw [List.filter_append, List.filter_eq_self.mpr hkeep]
  have hdrop : (List.replicate m (Token.gen .eof 0 0)).filter (fun t => t.kind ≠ .eof) = [] := by
    rw [List.filter_eq_nil_iff]
    intro t ht
    rw [List.eq_of_mem_replicate ht]
    decide
  rw [hdrop, List.append_nil]

/-- The gaps of a scan are white space. -/
private theorem gaps_of_scans {xs rest : ByteVec} {steps : ScanSteps}
    (h : Scans lexRules xs steps rest) : ∀ s ∈ steps, IsWs s.1 := by
  induction h with
  | nil => exact fun s hs => absurd hs List.not_mem_nil
  | cons hnext _ ih =>
    intro s hs
    rcases List.mem_cons.mp hs with rfl | hs
    · exact (next_eq_token.mp hnext).2.1
    · exact ih s hs

/-! ## Lossless tokenisation -/

/-- The tokens cut the source up to the offset `curr` into words and white space. -/
structure Lossless (source : ByteVec) (curr : Nat) (toks : List Token) : Prop where
  nonempty : ∀ t ∈ toks, 0 < t.len
  inBounds : curr ≤ source.length ∧ ∀ t ∈ toks, t.offset + t.len ≤ curr
  increasing : toks.Pairwise fun a b => a.offset < b.offset ∧ a.offset + a.len ≤ b.offset
  covers : ∃ gaps last, gaps.length = toks.length ∧ (∀ g ∈ gaps, IsWs g) ∧ IsWs last ∧
    source.take curr = (List.zipWith (· ++ ·) gaps (toks.map (Token.text source))).flatten ++ last
  spelled : ∀ t ∈ toks, t.kind.Matches (t.text source)
  maximal_word : ∀ t ∈ toks, t.kind = .identifier ∨ t.kind = .fn →
    ∀ c, source[t.offset + t.len]? = some c → Cursor.isIdentContinue c = false
  maximal_number : ∀ t ∈ toks, t.kind = .number →
    ∀ c, source[t.offset + t.len]? = some c → Cursor.isNumber c = false

/-- The source does not continue a token of a scan. -/
private theorem maximal_tokensAt {xs rest : ByteVec} {steps : ScanSteps}
    (h : Scans lexRules xs steps rest) {t : Token} (ht : t ∈ tokensAt 0 steps) {c : U8}
    (hc : xs[t.offset + t.len]? = some c) : contKind t.kind.scanned c = false := by
  obtain ⟨before, k, text, after, hsource, _, _, rfl, htoken, hstop⟩ := mem_tokensAt h [] ht
  -- The character behind the token is the first one of `after`.
  have hend : xs = (before ++ text) ++ after := by
    rw [List.append_assoc, ← hsource]
    rfl
  have hhead : after.head? = some c := by
    rw [hend, Token.gen, ← List.length_append, List.getElem?_append_right (le_refl _),
      Nat.sub_self] at hc
    rw [List.head?_eq_getElem?]
    exact hc
  show contKind (keywordKind k text).scanned c = false
  rw [scanned_keywordKind htoken]
  exact hstop c hhead

/-- A scan from the start of a source is lossless. -/
private theorem lossless_of_scans {source rest : ByteVec} {steps : ScanSteps} {curr : Nat}
    {last : ByteVec} (h : Scans lexRules source steps rest) (hlast : IsWs last)
    (hcurr : curr = (covered steps ++ last).length)
    (hsource : source.take curr = covered steps ++ last) (hle : curr ≤ source.length) :
    Lossless source curr (tokensAt 0 steps) := by
  have hmem := fun t (ht : t ∈ tokensAt 0 steps) => mem_tokensAt h [] ht
  rw [List.length_append] at hcurr
  refine
    { nonempty := fun t ht => ?_
      inBounds := ⟨hle, fun t ht => ?_⟩
      increasing := pairwise_tokensAt h []
      covers := ⟨steps.map (·.1), last, ?_, ?_, hlast, ?_⟩
      spelled := fun t ht => ?_
      maximal_word := fun t ht hkind c hc => ?_
      maximal_number := fun t ht hkind c hc => ?_ }
  · obtain ⟨_, k, text, _, _, _, _, rfl, ⟨c, cs, rfl, _, _⟩, _⟩ := hmem t ht
    exact Nat.succ_pos _
  · obtain ⟨before, k, text, _, _, _, hhigh, rfl, _, _⟩ := hmem t ht
    simp only [List.length_nil] at hhigh
    simp only [Token.gen]
    omega
  · have := congrArg List.length (map_tokensAt h [])
    simpa using this.symm
  · intro g hg
    obtain ⟨s, hs, rfl⟩ := List.mem_map.mp hg
    exact gaps_of_scans h s hs
  · have htexts : (tokensAt 0 steps).map (Token.text source) = steps.map (·.2.2) := by
      have := congrArg (List.map Prod.snd) (map_tokensAt h [])
      simpa [Function.comp_def] using this
    rw [hsource, htexts, List.zipWith_map, List.zipWith_self]
    rfl
  · obtain ⟨before, k, text, after, heq, _, _, rfl, htoken, _⟩ := hmem t ht
    have htext : (Token.gen (keywordKind k text) before.length text.length).text source = text := by
      rw [show source = before ++ (text ++ after) from heq, Token.text_gen]
    rw [htext]
    exact isToken_matches htoken
  · have hstop := maximal_tokensAt h ht hc
    rcases hkind with hkind | hkind <;> rw [hkind] at hstop <;> exact hstop
  · have hstop := maximal_tokensAt h ht hc
    rw [hkind] at hstop
    exact hstop

/-- A call returns Eof only when white space is all that is left. -/
theorem isWs_of_eof {l l' : Lexer} {tok : Token} (h : l.nextToken = .ok (tok, l'))
    (heof : tok.kind = .eof) : IsWs l.rest := by
  obtain ⟨_, hcase⟩ := nextToken_ok h
  rcases hcase with ⟨hgap, _⟩ | ⟨k, g, text, rest, hnext, rfl, _⟩
  · exact hgap
  · exact absurd heof (keywordKind_ne_eof (next_eq_token.mp hnext).2.2.1)

/-- Every run of `next_token` that does not abort is lossless: its tokens other than Eof are
    the words of the source up to the cursor, and it returns Eof only before white space. -/
theorem calls_lossless {source : ByteVec} {n : Nat} {toks : List Token} {l' : Lexer}
    (h : Run.calls nextToken n { source } = .ok (toks, l')) :
    l'.source = source ∧
      Lossless source l'.curr (toks.filter fun t => t.kind ≠ .eof) ∧
      ∀ i tok, toks[i]? = some tok → tok.kind = .eof →
        ∃ before l, Run.calls nextToken i { source } = .ok (before, l) ∧ IsWs l.rest := by
  obtain ⟨hs, steps, m, rest, _, rfl, hscan, hend⟩ := calls_nextToken h
  refine ⟨hs, ?_, ?_⟩
  · have hsource : source = covered steps ++ rest := hscan.eq_append
    have hfilter : (tokensAt 0 steps ++ List.replicate m (Token.gen .eof 0 0)).filter
        (fun t => t.kind ≠ .eof) = tokensAt 0 steps := filter_tokensAt hscan [] m
    show Lossless source l'.curr ((tokensAt 0 steps ++ _).filter _)
    rw [hfilter]
    -- Either the run stopped behind its last token, or it went on to the end of the source.
    rcases hend with ⟨_, hc⟩ | ⟨hgap, hc⟩
    · rw [Nat.zero_add] at hc
      have hnil : IsWs [] := fun c hc => absurd hc List.not_mem_nil
      refine lossless_of_scans hscan hnil (by simp [hc]) ?_ ?_
      · rw [hc, List.append_nil]
        exact hsource ▸ List.take_left
      · rw [hc, hsource, List.length_append]
        omega
    · rw [Nat.zero_add] at hc
      have hall : l'.curr = source.length := hc
      refine lossless_of_scans hscan hgap (by rw [hall, ← hsource]) ?_ (by omega)
      rw [hall, List.take_length]
      exact hsource
  · intro i tok hi heof
    have hlt : i < n := by
      rw [← Run.calls_length h]
      exact (List.getElem?_eq_some_iff.mp hi).1
    -- The run is `i` calls, the call that returned this Eof, and the others.
    obtain ⟨d, rfl⟩ : ∃ d, n = i + (d + 1) := ⟨n - i - 1, by omega⟩
    obtain ⟨l, before, after, hbefore, hafter, htoks⟩ := Run.calls_add_eq_ok.mp h
    obtain ⟨tok', l₁, later, hcall, _, rfl⟩ := Run.calls_succ_eq_ok.mp hafter
    have htok : tok' = tok := by
      have hlen := Run.calls_length hbefore
      rw [htoks, List.getElem?_append_right (by omega), hlen, Nat.sub_self] at hi
      exact Option.some.inj hi
    exact ⟨before, l, hbefore, isWs_of_eof hcall (htok ▸ heof)⟩

/-- Three calls on a source with a keyword, an identifier and white space at both ends. -/
theorem calls_lossless_fn :
    Lossless (str " fn f9\n") 7
      [Token.gen .fn 1 2, Token.gen .identifier 4 2] :=
  have hrun : Run.calls nextToken 3 { source := str " fn f9\n" } =
      .ok ([Token.gen .fn 1 2, Token.gen .identifier 4 2, Token.gen .eof 0 0],
        { source := str " fn f9\n", curr := 7, prev := chr '\n' }) := by decide +kernel
  (calls_lossless hrun).2.1


/-! ## Layouts -/

/-- A token of a text that is yet to be written: white space, and then a word of a kind. -/
structure Word where
  gap : ByteVec
  kind : TokenKind
  text : ByteVec
  gap_ws : IsWs gap
  spelled : kind.Matches text

/-- May a word of the second kind directly follow a word of the first? An identifier or
    keyword would take in a word or number behind it, and a number a number. -/
def mayTouch (a b : TokenKind) : Prop :=
  ¬ ((a = .identifier ∨ a = .fn) ∧ (b = .identifier ∨ b = .fn ∨ b = .number)) ∧
  ¬ (a = .number ∧ b = .number)

/-- Words with white space before, between and after them, and some of it wherever two words
    would otherwise run into each other. -/
structure Layout where
  words : List Word
  last : ByteVec
  last_ws : IsWs last
  separated : words.IsChain fun a b => b.gap = [] → mayTouch a.kind b.kind

namespace Layout

/-- The source text of a layout. -/
def source (L : Layout) : ByteVec := (L.words.flatMap fun w => w.gap ++ w.text) ++ L.last

/-- The kinds and texts of a layout, without its white space. -/
def tokens (L : Layout) : List (TokenKind × ByteVec) := L.words.map fun w => (w.kind, w.text)

end Layout

/-- The kinds and texts of the tokens that `n` calls of `next_token` return. -/
def lexed (n : Nat) (source : ByteVec) : Except Abort (List (TokenKind × ByteVec)) := do
  let (toks, l) ← Run.calls nextToken n { source }
  return toks.map fun t => (t.kind, l.sourceSubstring t.offset (t.offset + t.len))

/-- The scan that a layout is read back as. -/
private def Layout.steps (L : Layout) : ScanSteps :=
  L.words.map fun w => (w.gap, w.kind.scanned, w.text)

/-- Only white space, signs and the underscore start no word, and of these only the underscore
    continues one. -/
private theorem start_of_isIdentContinue (c : U8) (h : Cursor.isIdentContinue c = true) :
    startKind c = none ∨ startKind c = some .identifier ∨ startKind c = some .number := by
  revert c
  decide +kernel

/-- A word does not run into a word that it may touch. -/
private theorem stops_of_mayTouch {a b : TokenKind} {text : ByteVec} (h : mayTouch a b)
    (hb : b.Matches text) : lexRules.Stops a.scanned text := by
  obtain ⟨⟨c, cs, rfl, hstart, _⟩, _⟩ := matches_isToken hb
  replace hstart : startKind c = some b.scanned := hstart
  intro x hx
  obtain rfl : c = x := by simpa using hx
  show contKind a.scanned c = false
  -- If the first character of the second word continued the first, their kinds would be
  -- among those that `mayTouch` excludes.
  by_contra hcont
  rw [Bool.not_eq_false] at hcont
  cases a with
  | number =>
    have hb' : b.scanned = .number := by
      rw [(startKind_eq_number c).mpr hcont] at hstart
      exact (Option.some.inj hstart).symm
    cases b <;> first | exact h.2 ⟨rfl, rfl⟩ | exact absurd hb' (by decide)
  | identifier | fn =>
    rcases start_of_isIdentContinue c hcont with hc | hc | hc <;> rw [hc] at hstart
    · exact nomatch hstart
    · have hb' := Option.some.inj hstart
      cases b <;> first | exact h.1 (by decide) | exact absurd hb' (by decide)
    · have hb' := Option.some.inj hstart
      cases b <;> first | exact h.1 (by decide) | exact absurd hb' (by decide)
  | invalid | eof | leftParen | rightParen | leftBrace | rightBrace | semiColon | comma =>
    exact nomatch hcont

/-- The words of a layout are a layout of the scanner. -/
private theorem isLayout_steps (L : Layout) : lexRules.IsLayout L.steps := by
  refine ⟨fun s hs => ?_, ?_⟩
  · obtain ⟨w, _, rfl⟩ := List.mem_map.mp hs
    exact ⟨w.gap_ws, (matches_isToken w.spelled).1⟩
  · rw [Layout.steps, List.isChain_map]
    exact L.separated.imp fun a b hsep hgap => stops_of_mayTouch (hsep hgap) b.spelled

/-- The scan that a layout is read back as. -/
private theorem scans_layout (L : Layout) : Scans lexRules L.source L.steps L.last := by
  have hcov : covered L.steps = L.words.flatMap fun w => w.gap ++ w.text := by
    rw [covered, Layout.steps, List.flatMap_map]
  rw [Layout.source, ← hcov]
  exact scans_of_layout (isLayout_steps L) L.last_ws

/-- Once only white space is left, every call returns Eof. -/
private theorem calls_of_isWs (m : Nat) {l : Lexer} (h : IsWs l.rest) :
    ∃ l', Run.calls nextToken m l = .ok (List.replicate m (Token.gen .eof 0 0), l') ∧
      l'.source = l.source := by
  induction m generalizing l with
  | zero => exact ⟨l, rfl, rfl⟩
  | succ m ih =>
    obtain ⟨l₁, hcall, hs₁, _, hr₁⟩ := nextToken_of_gap h
    have hnil : IsWs l₁.rest := by
      rw [hr₁]
      exact fun c hc => absurd hc List.not_mem_nil
    obtain ⟨l', hrun, hs'⟩ := ih hnil
    exact ⟨l', Run.calls_succ_eq_ok.mpr ⟨_, l₁, _, hcall, hrun, rfl⟩, hs'.trans hs₁⟩

/-- A run over the text of a layout returns its words, and Eof from then on. -/
private theorem calls_layout (L : Layout) (m : Nat) :
    ∃ l', Run.calls nextToken (L.words.length + m) { source := L.source } =
        .ok (tokensAt 0 L.steps ++ List.replicate m (Token.gen .eof 0 0), l') ∧
      l'.source = L.source := by
  have hscan := scans_layout L
  obtain ⟨l₁, hrun, hs₁, hr₁⟩ := calls_of_scans (l := { source := L.source }) hscan
  have hgap : IsWs l₁.rest := hr₁ ▸ L.last_ws
  obtain ⟨l', heofs, hs'⟩ := calls_of_isWs m hgap
  have hlen : L.steps.length = L.words.length := List.length_map _
  rw [hlen] at hrun
  exact ⟨l', Run.calls_add_eq_ok.mpr ⟨l₁, _, _, hrun, heofs, rfl⟩, hs'.trans hs₁⟩

/-- A run is the start of any longer run. -/
private theorem calls_take {n m : Nat} {l l'' : Lexer} {toks : List Token}
    (h : Run.calls nextToken (n + m) l = .ok (toks, l'')) :
    ∃ l', Run.calls nextToken n l = .ok (toks.take n, l') ∧ l''.source = l'.source := by
  obtain ⟨l', as₁, as₂, h₁, h₂, rfl⟩ := Run.calls_add_eq_ok.mp h
  refine ⟨l', ?_, (calls_nextToken h₂).1⟩
  rw [← Run.calls_length h₁, List.take_left, Run.calls_length h₁]
  exact h₁

/-- What any number of calls over the text of a layout returns. -/
theorem lexed_layout (L : Layout) (n : Nat) :
    lexed n L.source = .ok ((L.tokens ++ List.replicate n (TokenKind.eof, [])).take n) := by
  obtain ⟨l'', hrun, hs''⟩ := calls_layout L n
  rw [Nat.add_comm] at hrun
  obtain ⟨l', hrun', hs'⟩ := calls_take hrun
  -- The text of a token does not depend on where the cursor is.
  have htext : ∀ t : Token, l'.sourceSubstring t.offset (t.offset + t.len) = t.text L.source := by
    intro t
    rw [Token.text, Cursor.sourceSubstring, Cursor.sourceSubstring, ← hs', hs'']
  have hwords : (tokensAt 0 L.steps).map (fun t => (t.kind, t.text L.source)) = L.tokens := by
    have hmap := map_tokensAt (scans_layout L) []
    rw [Layout.steps, List.map_map] at hmap
    refine hmap.trans (List.map_congr_left fun w _ => ?_)
    show (keywordKind w.kind.scanned w.text, w.text) = (w.kind, w.text)
    rw [(matches_isToken w.spelled).2]
  have heof : (Token.gen .eof 0 0).text L.source = [] := by
    rw [Token.text_eq]
    rfl
  rw [lexed, hrun', Except.ok_bind']
  simp only [htext, Except.pure_eq_ok, List.map_take, List.map_append, hwords,
    List.map_replicate, heof]
  rfl

/-- Lexing the text of a layout returns its words, each with its kind and text, and then Eof;
    so two layouts of the same words lex alike, however often `next_token` is called. -/
theorem lexed_layout_text (L : Layout) :
    lexed (L.words.length + 1) L.source = .ok (L.tokens ++ [(.eof, [])]) ∧
      ∀ L' : Layout, L'.tokens = L.tokens → ∀ n, lexed n L'.source = lexed n L.source := by
  refine ⟨?_, fun L' htokens n => ?_⟩
  · have hlen : L.tokens.length = L.words.length := List.length_map _
    have heof : List.replicate (L.words.length + 1) (TokenKind.eof, ([] : ByteVec)) =
        [(.eof, [])] ++ List.replicate L.words.length (.eof, []) := rfl
    rw [lexed_layout, heof, ← List.append_assoc]
    exact congrArg Except.ok (List.take_left' (by simp [hlen]))
  · rw [lexed_layout, lexed_layout, htokens]

/-- A number and an identifier may touch, and white space between them changes nothing. -/
theorem lexed_layout_text_touching :
    lexed 3 (str "1a") = .ok [(.number, str "1"), (.identifier, str "a"), (.eof, [])] ∧
      lexed 3 (str " 1\ta") = lexed 3 (str "1a") :=
  have hnumber : TokenKind.number.Matches (str "1") := ⟨by decide, by decide⟩
  have hident : TokenKind.identifier.Matches (str "a") :=
    ⟨⟨chr 'a', [], rfl, by decide, by decide⟩, by decide⟩
  let tight : Layout :=
    { words := [⟨[], .number, str "1", by decide, hnumber⟩,
        ⟨[], .identifier, str "a", by decide, hident⟩]
      last := []
      last_ws := by decide
      separated := List.isChain_cons_cons.mpr
        ⟨fun _ => by simp [mayTouch], List.isChain_singleton _⟩ }
  let wide : Layout :=
    { words := [⟨str " ", .number, str "1", by decide, hnumber⟩,
        ⟨str "\t", .identifier, str "a", by decide, hident⟩]
      last := []
      last_ws := by decide
      separated := List.isChain_cons_cons.mpr
        ⟨fun h => absurd h (List.cons_ne_nil _ _), List.isChain_singleton _⟩ }
  ⟨(lexed_layout_text tight).1, (lexed_layout_text tight).2 wide rfl 3⟩

end Lexer

end Fiskas
