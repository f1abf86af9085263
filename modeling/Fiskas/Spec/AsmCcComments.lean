import Fiskas.Spec.AsmCcLexer

/-!
# Comments of the first assembler are white space

A comment starts with its sign, wherever a token may start, and ends with its line. No token
contains the sign, so comments are found without a lexer: `blank` writes every one of them as
blanks. The lexer of the first assembler cannot tell the two sources apart: however calls of
`peek_token` and `next_token` follow one another, they deliver the same tokens with the same
texts and offsets, and they abort with the same message.

## Key results

- `Blanked.fetchToken`: one call of `fetch_token` on both sources
- `run_blank`: any sequence of calls on both sources
-/

namespace Fiskas.AsmCc

/-! ## Blanking comments -/

/-- The source with every comment written as blanks, up to the end of its line. The flag says
    whether the source starts inside of a comment. -/
def blank : Bool → ByteVec → ByteVec
  | _, [] => []
  | false, c :: cs =>
    if Lexer.isCommentStart c then chr ' ' :: blank true cs else c :: blank false cs
  | true, c :: cs =>
    if Lexer.isNotNewline c then chr ' ' :: blank true cs else c :: blank false cs

namespace Lexer

@[simp] theorem blank_nil (inside : Bool) : blank inside [] = [] := by
  cases inside <;> rfl

theorem blank_cons_of_ne {c : U8} (h : isCommentStart c = false) (cs : ByteVec) :
    blank false (c :: cs) = c :: blank false cs := by
  rw [blank, h]
  rfl

theorem blank_cons_of_comment {c : U8} (h : isCommentStart c = true) (cs : ByteVec) :
    blank false (c :: cs) = chr ' ' :: blank true cs := by
  rw [blank, h]
  rfl

/-- In front of the first comment nothing changes. -/
theorem blank_append {xs : ByteVec} (h : ∀ c ∈ xs, isCommentStart c = false) (ys : ByteVec) :
    blank false (xs ++ ys) = xs ++ blank false ys := by
  induction xs with
  | nil => rfl
  | cons c xs ih =>
    have hhead := h c List.mem_cons_self
    have ih := ih fun x hx => h x (List.mem_cons_of_mem c hx)
    rw [List.cons_append, blank_cons_of_ne hhead, ih]
    rfl

/-- A comment becomes blanks up to the end of its line. -/
theorem blank_comment (cs : ByteVec) :
    blank true cs = List.replicate (cs.takeWhile isNotNewline).length (chr ' ') ++
      blank false (cs.dropWhile isNotNewline) := by
  induction cs with
  | nil => rfl
  | cons c cs ih =>
    by_cases h : isNotNewline c = true
    · rw [blank, if_pos h, ih, List.takeWhile_cons_of_pos h, List.dropWhile_cons_of_pos h]
      rfl
    · -- The newline is left as it is.
      have hnewline : c = chr '\n' := by simpa [isNotNewline] using h
      rw [blank, if_neg h, List.takeWhile_cons_of_neg h, List.dropWhile_cons_of_neg h, hnewline,
        blank_cons_of_ne (by decide)]
      rfl

/-- No comment sign is left. -/
theorem isCommentStart_of_mem_blank {inside : Bool} {source : ByteVec} {c : U8}
    (h : c ∈ blank inside source) : isCommentStart c = false := by
  induction source generalizing inside with
  | nil =>
    rw [blank_nil] at h
    cases h
  | cons x xs ih =>
    -- Inside of a comment or not, the first character is no sign, and the others are not either.
    have hhead : ∀ y, isCommentStart y = false → c ∈ y :: blank inside xs ∨
        c ∈ y :: blank (!inside) xs → isCommentStart c = false := by
      intro y hy hc
      rw [List.mem_cons, List.mem_cons] at hc
      rcases hc with (rfl | hc) | rfl | hc
      · exact hy
      · exact ih hc
      · exact hy
      · exact ih hc
    cases inside with
    | false =>
      by_cases hx : isCommentStart x = true
      · rw [blank_cons_of_comment hx] at h
        exact hhead _ (by decide) (.inr h)
      · have hx : isCommentStart x = false := (Bool.not_eq_true _).mp hx
        rw [blank_cons_of_ne hx] at h
        exact hhead x hx (.inl h)
    | true =>
      rw [blank] at h
      by_cases hx : isNotNewline x = true
      · rw [if_pos hx] at h
        exact hhead _ (by decide) (.inl h)
      · have hnewline : x = chr '\n' := by simpa [isNotNewline] using hx
        rw [if_neg hx] at h
        exact hhead x (by rw [hnewline]; decide) (.inr h)

/-- A run of characters that neither the sign nor a blank continues is the same in both
    sources. -/
theorem blank_run {p : U8 → Bool} (hsign : p (chr '/') = false) (hblank : p (chr ' ') = false)
    (cs : ByteVec) :
    (blank false cs).takeWhile p = cs.takeWhile p ∧
      (blank false cs).dropWhile p = blank false (cs.dropWhile p) := by
  induction cs with
  | nil => exact ⟨rfl, rfl⟩
  | cons c cs ih =>
    by_cases hc : isCommentStart c = true
    · have heq : c = chr '/' := by simpa [isCommentStart] using hc
      have hp : p c = false := heq ▸ hsign
      rw [blank_cons_of_comment hc, List.takeWhile_cons, List.dropWhile_cons, List.takeWhile_cons,
        List.dropWhile_cons, hblank, hp, ← blank_cons_of_comment hc]
      exact ⟨rfl, rfl⟩
    · have hc : isCommentStart c = false := (Bool.not_eq_true _).mp hc
      rw [blank_cons_of_ne hc, List.takeWhile_cons, List.dropWhile_cons, List.takeWhile_cons,
        List.dropWhile_cons]
      cases p c with
      | true => exact ⟨congrArg (c :: ·) ih.1, ih.2⟩
      | false => exact ⟨rfl, (blank_cons_of_ne hc cs).symm⟩

/-! ## The same place in both sources -/

/-- A lexer of a source and one of the blanked source at the same place, outside of comments and
    with the same tokens in their queues. -/
structure Blanked (source : ByteVec) (l l' : Lexer) : Prop where
  fileContent : l.fileContent = source
  blanked : l'.fileContent = blank false source
  curr : l'.curr = l.curr
  lookaheadToks : l'.lookaheadToks = l.lookaheadToks
  rest : l'.rest = blank false l.rest

/-- Two results are the same abort, or the same value with lexers at the same place. -/
def SameResult {α : Type} (source : ByteVec) :
    Except String (α × Lexer) → Except String (α × Lexer) → Prop
  | .ok (a, l), .ok (a', l') => a' = a ∧ Blanked source l l'
  | .error msg, .error msg' => msg' = msg
  | _, _ => False

/-- What goes on in the same way keeps results the same. -/
theorem SameResult.bind {α β : Type} {source : ByteVec} {r r' : Except String (α × Lexer)}
    {f : α × Lexer → Except String (β × Lexer)} (h : SameResult source r r')
    (hf : ∀ a l l', Blanked source l l' → SameResult source (f (a, l)) (f (a, l'))) :
    SameResult source (r >>= f) (r' >>= f) := by
  match r, r', h with
  | .ok (a, l), .ok (_, l'), ⟨rfl, h⟩ => exact hf a l l' h
  | .error msg, .error _, rfl => exact rfl

/-- Of two results that are the same, one is a value when the other is, and an abort when the
    other is. -/
theorem SameResult.exists_iff {α : Type} {source : ByteVec} {r r' : Except String (α × Lexer)}
    (h : SameResult source r r') :
    (∀ a, (∃ l, r = .ok (a, l)) ↔ ∃ l', r' = .ok (a, l')) ∧
      ((∃ msg, r = .error msg) ↔ ∃ msg, r' = .error msg) := by
  match r, r', h with
  | .ok (a, l), .ok (_, l'), ⟨rfl, h⟩ => simp
  | .error msg, .error _, rfl => simp

variable {source : ByteVec} {l l' : Lexer}

/-- Both lexers go on by as many characters, to a place outside of comments. -/
theorem Blanked.advance (h : Blanked source l l') {n : Nat}
    (hdrop : (blank false l.rest).drop n = blank false (l.rest.drop n)) :
    Blanked source { l with curr := l.curr + n } { l' with curr := l'.curr + n } where
  fileContent := h.fileContent
  blanked := h.blanked
  curr := congrArg (· + n) h.curr
  lookaheadToks := h.lookaheadToks
  rest := by
    have hmoved : ∀ o : Lexer, Lexer.rest { o with curr := o.curr + n } = o.rest.drop n :=
      fun o => (List.drop_drop ..).symm
    rw [hmoved, hmoved, h.rest, hdrop]

/-! ## One call -/

/-- Behind a first character that is no comment sign, both lexers take the same word. -/
private theorem Blanked.word (h : Blanked source l l') {c : U8} {cs : ByteVec}
    (hrest : l.rest = c :: cs) (hc : isCommentStart c = false) {p : U8 → Bool}
    (hsign : p (chr '/') = false) (hblank : p (chr ' ') = false) :
    (blank false cs).takeWhile p = cs.takeWhile p ∧
      Blanked source { l with curr := l.curr + (c :: cs.takeWhile p).length }
        { l' with curr := l'.curr + (c :: cs.takeWhile p).length } := by
  obtain ⟨htake, hdrop⟩ := blank_run hsign hblank cs
  refine ⟨htake, h.advance ?_⟩
  rw [hrest, blank_cons_of_ne hc, List.length_cons, List.drop_succ_cons, List.drop_succ_cons,
    ← htake, List.drop_length_takeWhile, hdrop, htake, List.drop_length_takeWhile]

/-- The token that starts with `c` is the same in both sources. -/
private theorem Blanked.tokenFrom (h : Blanked source l l') {c : U8} {cs : ByteVec}
    (hrest : l.rest = c :: cs) (hc : isCommentStart c = false) :
    SameResult source (tokenFrom { l with curr := l.curr + 1 } c)
      (tokenFrom { l' with curr := l'.curr + 1 } c) := by
  have hrest' : l'.rest = c :: blank false cs := by rw [h.rest, hrest, blank_cons_of_ne hc]
  have hone : ∀ kind, SameResult source (oneCharToken { l with curr := l.curr + 1 } kind c)
      (oneCharToken { l' with curr := l'.curr + 1 } kind c) := by
    intro kind
    refine ⟨by simp only [currentOffset, h.curr], h.advance ?_⟩
    rw [hrest, blank_cons_of_ne hc]
    rfl
  unfold Lexer.tokenFrom
  -- Both switches take the same case, that of `c`.
  by_cases h₁ : c = chr '('
  · rw [if_pos h₁, if_pos h₁]
    exact hone _
  by_cases h₂ : c = chr ')'
  · rw [if_neg h₁, if_pos h₂, if_neg h₁, if_pos h₂]
    exact hone _
  by_cases h₃ : c = chr '{'
  · rw [if_neg h₁, if_neg h₂, if_pos h₃, if_neg h₁, if_neg h₂, if_pos h₃]
    exact hone _
  by_cases h₄ : c = chr '}'
  · rw [if_neg h₁, if_neg h₂, if_neg h₃, if_pos h₄, if_neg h₁, if_neg h₂, if_neg h₃, if_pos h₄]
    exact hone _
  rw [if_neg h₁, if_neg h₂, if_neg h₃, if_neg h₄, if_neg h₁, if_neg h₂, if_neg h₃, if_neg h₄]
  by_cases h₅ : c = chr ';'
  · rw [if_pos h₅, if_pos h₅]
    exact hone _
  by_cases h₆ : c = chr ','
  · rw [if_neg h₅, if_pos h₆, if_neg h₅, if_pos h₆]
    exact hone _
  rw [if_neg h₅, if_neg h₆, if_neg h₅, if_neg h₆]
  by_cases hident : isIdentifierStart c = true
  · -- The same word is consumed, since neither a sign nor a blank continues it.
    obtain ⟨hword, hblanked⟩ := h.word hrest hc (p := canContinueIdentifier) rfl rfl
    obtain ⟨htake, htext⟩ := consumeWhile_word hrest canContinueIdentifier
    obtain ⟨htake', htext'⟩ := consumeWhile_word hrest' canContinueIdentifier
    rw [hword] at htake' htext'
    rw [if_pos hident, if_pos hident]
    dsimp only [currentOffset]
    rw [htake, htake', Nat.add_sub_cancel, Nat.add_sub_cancel, htext, htext', h.curr]
    exact ⟨rfl, h.curr ▸ hblanked⟩
  rw [if_neg hident, if_neg hident]
  by_cases hnum : isDecimalDigitStart c = true
  · obtain ⟨hword, hblanked⟩ := h.word hrest hc (p := isDecimalDigit) rfl rfl
    obtain ⟨htake, htext⟩ := consumeWhile_word hrest isDecimalDigit
    obtain ⟨htake', htext'⟩ := consumeWhile_word hrest' isDecimalDigit
    rw [hword] at htake' htext'
    rw [if_pos hnum, if_pos hnum]
    dsimp only [currentOffset]
    rw [htake, htake', Nat.add_sub_cancel, Nat.add_sub_cancel, htext, htext', h.curr]
    exact ⟨rfl, h.curr ▸ hblanked⟩
  · rw [if_neg hnum, if_neg hnum]
    exact rfl

/-- White space in front of a token makes no difference to `fetch_token`. -/
theorem fetchToken_skip {g ys : ByteVec} (hrest : l.rest = g ++ ys)
    (hg : ∀ c ∈ g, isWhitespace c = true) :
    fetchToken { l with curr := l.curr + g.length } = l.fetchToken := by
  have hmoved : Lexer.rest { l with curr := l.curr + g.length } = ys := by
    rw [rest, ← List.drop_drop]
    show l.rest.drop g.length = ys
    rw [hrest, List.drop_left]
  have hskip : consumeWhile isWhitespace { l with curr := l.curr + g.length } =
      l.consumeWhile isWhitespace := by
    rw [consumeWhile_eq, consumeWhile_eq, hmoved, hrest, List.takeWhile_append_of_pos hg,
      List.length_append]
    dsimp only
    rw [Nat.add_assoc]
  rw [fetchToken_eq, fetchToken_eq l, hskip]

/-- Both lexers skip the white space in front of a token, and then the first one is at the end or
    at a character that is no white space. -/
private theorem Blanked.skip (h : Blanked source l l') :
    ∃ l₂, Blanked source (l.consumeWhile isWhitespace) l₂ ∧ l'.fetchToken = l₂.fetchToken ∧
      ∀ c, (l.consumeWhile isWhitespace).peekChar = some c → isWhitespace c = false := by
  have hsplit := List.takeWhile_append_dropWhile (p := isWhitespace) (l := l.rest)
  have hws : ∀ c ∈ l.rest.takeWhile isWhitespace, isWhitespace c = true :=
    fun c hc => List.mem_takeWhile_imp hc
  have hsign : ∀ c ∈ l.rest.takeWhile isWhitespace, isCommentStart c = false := by
    intro c hc
    rw [← Bool.not_eq_true]
    intro hcomment
    have heq : c = chr '/' := by simpa [isCommentStart] using hcomment
    have := hws c hc
    rw [heq] at this
    exact absurd this (by decide)
  -- The white space is the same in both sources.
  have hblank := blank_append hsign (l.rest.dropWhile isWhitespace)
  rw [hsplit] at hblank
  rw [consumeWhile_eq]
  refine ⟨_, h.advance ?_, ?_, ?_⟩
  · rw [hblank, List.drop_left, List.drop_length_takeWhile]
  · exact (fetchToken_skip (h.rest.trans hblank) hws).symm
  · intro c hpeek
    have hrest : Lexer.rest { l with curr := l.curr + (l.rest.takeWhile isWhitespace).length } =
        l.rest.dropWhile isWhitespace := by
      rw [Lexer.rest, ← List.drop_drop]
      exact List.drop_length_takeWhile _ _
    rw [peekChar_eq_head?, hrest] at hpeek
    have := List.head?_dropWhile_not isWhitespace l.rest
    rw [hpeek] at this
    exact this

/-- Where the next character is no white space, `fetch_token` looks at it at once. -/
private theorem consumeWhile_of_peekChar (hws : ∀ c, l.peekChar = some c → isWhitespace c = false) :
    l.consumeWhile isWhitespace = l := by
  rw [consumeWhile]
  split
  · next c hpeek => rw [if_neg (by rw [hws c hpeek]; decide)]
  · rfl

/-- A comment of the source is white space of the blanked one. -/
private theorem Blanked.comment (h : Blanked source l l') {c : U8} (hpeek : l.peekChar = some c)
    (hc : isCommentStart c = true) :
    ∃ l₂, Blanked source (l.consumeWhile isNotNewline) l₂ ∧ l'.fetchToken = l₂.fetchToken := by
  rw [peekChar_eq_head?, List.head?_eq_some_iff] at hpeek
  obtain ⟨cs, hrest⟩ := hpeek
  have hnot : isNotNewline c = true := by
    have heq : c = chr '/' := by simpa [isCommentStart] using hc
    rw [heq]
    decide
  -- The sign and the rest of its line are blanks.
  have hblank : blank false l.rest =
      List.replicate (l.rest.takeWhile isNotNewline).length (chr ' ') ++
        blank false (l.rest.dropWhile isNotNewline) := by
    rw [hrest, blank_cons_of_comment hc, blank_comment, List.takeWhile_cons_of_pos hnot,
      List.dropWhile_cons_of_pos hnot]
    rfl
  have hlen : (List.replicate (l.rest.takeWhile isNotNewline).length (chr ' ')).length =
      (l.rest.takeWhile isNotNewline).length := List.length_replicate
  rw [consumeWhile_eq]
  refine ⟨_, h.advance ?_, ?_⟩
  · rw [hblank, List.drop_left' hlen, List.drop_length_takeWhile]
  · have hskip := fetchToken_skip (h.rest.trans hblank) fun c hc => by
      rw [List.eq_of_mem_replicate hc]
      decide
    rw [hlen] at hskip
    exact hskip.symm

/-- One call of `fetch_token` on both sources. -/
theorem Blanked.fetchToken (h : Blanked source l l') :
    SameResult source l.fetchToken l'.fetchToken := by
  -- Induction on the comments in front of the token.
  fun_induction Lexer.fetchToken l generalizing l' with
  | case1 l l₁ =>
    -- The source ends.
    rename_i hpeek
    obtain ⟨l₂, hl₂, heq, hws⟩ := h.skip
    have hpeek' : l₂.peekChar = none := by
      rw [peekChar_eq_head?, List.head?_eq_none_iff] at hpeek ⊢
      rw [hl₂.rest, hpeek]
      rfl
    rw [heq, fetchToken_eq, consumeWhile_of_peekChar (by simp [hpeek']), hpeek']
    exact ⟨by simp only [currentOffset, hl₂.curr, l₁], hl₂⟩
  | case2 l l₁ c hpeek hc =>
    -- A comment is skipped, and in the blanked source it is more white space.
    rename_i ih
    obtain ⟨l₂, hl₂, heq, hws⟩ := h.skip
    obtain ⟨l₃, hl₃, heq'⟩ := hl₂.comment hpeek hc
    rw [heq, heq']
    exact ih hl₃
  | case3 l l₁ c hpeek =>
    -- A token starts.
    rename_i hc
    obtain ⟨l₂, hl₂, heq, hws⟩ := h.skip
    have hc : isCommentStart c = false := (Bool.not_eq_true _).mp hc
    have hspace := hws c hpeek
    have hnext := nextChar_of_peekChar hpeek
    rw [peekChar_eq_head?, List.head?_eq_some_iff] at hpeek
    obtain ⟨cs, hrest⟩ := hpeek
    have hpeek' : l₂.peekChar = some c := by
      rw [peekChar_eq_head?, hl₂.rest, hrest, blank_cons_of_ne hc]
      rfl
    have hsame : l₂.consumeWhile isWhitespace = l₂ := by
      apply consumeWhile_of_peekChar
      intro d hd
      rw [hpeek'] at hd
      rw [← Option.some.inj hd]
      exact hspace
    rw [heq, fetchToken_eq, hsame, hpeek', hnext]
    dsimp only
    rw [hc, nextChar_of_peekChar hpeek']
    exact hl₂.tokenFrom hrest hc

/-! ## Sequences of calls -/

/-- A token is taken from the queues, or fetched from both sources. -/
theorem Blanked.nextToken (h : Blanked source l l') :
    SameResult source l.nextToken l'.nextToken := by
  unfold Lexer.nextToken
  rw [h.lookaheadToks]
  cases l.lookaheadToks with
  | nil => exact h.fetchToken
  | cons tok toks => exact ⟨rfl, ⟨h.fileContent, h.blanked, h.curr, rfl, h.rest⟩⟩

theorem Blanked.peekToken (h : Blanked source l l') :
    SameResult source l.peekToken l'.peekToken := by
  unfold Lexer.peekToken
  rw [h.lookaheadToks]
  cases l.lookaheadToks with
  | nil =>
    apply h.fetchToken.bind
    intro tok o o' ho
    exact ⟨rfl, ho.fileContent, ho.blanked, ho.curr, by rw [ho.lookaheadToks], ho.rest⟩
  | cons tok toks => exact ⟨rfl, h⟩

theorem Blanked.consumeTokPnc (h : Blanked source l l') (kind : TokenKind) :
    SameResult source (l.consumeTokPnc kind) (l'.consumeTokPnc kind) := by
  apply h.nextToken.bind
  intro tok o o' ho
  by_cases hkind : tok.kind = kind
  · dsimp only
    rw [if_neg (not_not.mpr hkind), if_neg (not_not.mpr hkind)]
    exact ⟨rfl, ho⟩
  · dsimp only
    rw [if_pos hkind, if_pos hkind]
    exact rfl

private theorem Blanked.call (h : Blanked source l l') (op : Op) :
    SameResult source (op.call l) (op.call l') := by
  cases op with
  | peek => exact h.peekToken.bind fun _ _ _ ho => ⟨rfl, ho⟩
  | next => exact h.nextToken.bind fun _ _ _ ho => ⟨rfl, ho⟩

/-- Any sequence of calls keeps both lexers at the same place. -/
theorem Blanked.run (h : Blanked source l l') (ops : List Op) :
    SameResult source (Lexer.run ops l) (Lexer.run ops l') := by
  induction ops generalizing l l' with
  | nil => exact ⟨rfl, h⟩
  | cons op ops ih =>
    apply (h.call op).bind
    intro toks o o' ho
    exact (ih ho).bind fun _ _ _ ho' => ⟨rfl, ho'⟩

/-- Both lexers start at the same place. -/
theorem blanked_start (source : ByteVec) :
    Blanked source { fileContent := source } { fileContent := blank false source } where
  fileContent := rfl
  blanked := rfl
  curr := rfl
  lookaheadToks := rfl
  rest := rfl

end Lexer

end Fiskas.AsmCc
