import Fiskas.Native.Parser
import Fiskas.Spec.LexerTokens

/-!
# What the parser consumes

`consume_pnc` and `consume` read tokens from the lexer, and what has been read is not given back.
`Reads` says which tokens were. When all of them have the kinds asked for, both functions return
and leave the parser right behind the last one. When some token has another kind, `consume` returns
false, and the parser stands right behind that token: it is back where it was only if nothing
was left of the source.

## Key results

- `consumePnc_eq_ok_iff`, `consume_true_iff`, `consume_false_iff`: what is read in each case
- `consume_outcome`: where the parser stands afterwards
-/

namespace Fiskas.Parser

/-! ## Reading tokens -/

/-- The parser reads some tokens and then is another one. -/
def Reads (p : Parser) (toks : List Token) (p' : Parser) : Prop :=
  Run.calls Lexer.nextToken toks.length p = .ok (toks, p')

/-- No calls leave the parser where it is. -/
theorem reads_nil {p p' : Parser} : p.Reads [] p' ↔ p' = p := by
  rw [Reads, List.length_nil, Run.calls_zero, Except.ok.injEq, Prod.mk.injEq,
    and_iff_right rfl, eq_comm]

/-- Reading tokens is one call and then the others. -/
theorem reads_cons {p p'' : Parser} {tok : Token} {toks : List Token} :
    p.Reads (tok :: toks) p'' ↔
      ∃ p' : Parser, p.nextToken = .ok (tok, p') ∧ p'.Reads toks p'' := by
  rw [Reads, List.length_cons, Run.calls_succ_eq_ok]
  constructor
  · rintro ⟨tok', p', toks', hcall, hrest, heq⟩
    obtain ⟨rfl, rfl⟩ := List.cons.inj heq
    exact ⟨p', hcall, hrest⟩
  · rintro ⟨p', hcall, hrest⟩
    exact ⟨tok, p', toks, hcall, hrest, rfl⟩

/-- The parser stands right behind a token. Eof has no place of its own: it is the end of the
    source. -/
def StandsBehind (p : Parser) (tok : Token) : Prop :=
  if tok.kind = .eof then p.rest = [] else p.curr = tok.offset + tok.len

theorem standsBehind_of_nextToken {p p' : Parser} {tok : Token}
    (h : p.nextToken = .ok (tok, p')) : p'.StandsBehind tok := by
  obtain ⟨_, ⟨_, rfl, _, hrest⟩ | ⟨k, g, text, rest, hnext, rfl, hcurr, _⟩⟩ := Lexer.nextToken_ok h
  · exact hrest
  · have hne : (Token.gen (Lexer.keywordKind k text) (p.curr + g.length) text.length).kind ≠ .eof :=
      keywordKind_ne_eof (Munch.Rules.next_eq_token.mp hnext).2.2.1
    rw [StandsBehind, if_neg hne, hcurr, List.length_append, ← Nat.add_assoc]
    rfl

/-- Having read some tokens, the parser stands right behind the last one. -/
theorem standsBehind_of_reads {p p' : Parser} {toks : List Token} (h : p.Reads toks p') :
    ∀ tok ∈ toks.getLast?, p'.StandsBehind tok := by
  induction toks generalizing p with
  | nil => exact fun _ hmem => nomatch hmem
  | cons tok toks ih =>
    obtain ⟨p₁, hcall, hrest⟩ := reads_cons.mp h
    cases toks with
    | nil =>
      intro tok' hmem
      obtain rfl := reads_nil.mp hrest
      obtain rfl := Option.some.inj hmem
      exact standsBehind_of_nextToken hcall
    | cons tok' toks =>
      rw [List.getLast?_cons_cons]
      exact ih hrest

/-- A token or an Eof is behind where the parser was, unless nothing was left of the source. -/
theorem curr_lt_of_nextToken {p p' : Parser} {tok : Token} (h : p.nextToken = .ok (tok, p'))
    (hrest : p.rest ≠ []) : p.curr < p'.curr := by
  obtain ⟨_, ⟨_, _, hcurr, _⟩ | ⟨k, g, text, rest, hnext, _, hcurr, _⟩⟩ := Lexer.nextToken_ok h
  · have := List.length_pos_iff.mpr hrest
    omega
  · obtain ⟨_, _, ⟨c, cs, rfl, _⟩, _⟩ := Munch.Rules.next_eq_token.mp hnext
    rw [List.length_append, List.length_cons] at hcurr
    omega

/-- At the end of the source the parser does not move. -/
theorem reads_of_end {p p' : Parser} {toks : List Token} (hrest : p.rest = [])
    (h : p.Reads toks p') : p' = p := by
  rw [Reads, Lexer.calls_of_nil hrest] at h
  exact (Prod.mk.inj (Except.ok.inj h)).2.symm

/-- The cursor never moves back. -/
theorem curr_le_of_reads {p p' : Parser} {toks : List Token} (h : p.Reads toks p') :
    p.curr ≤ p'.curr := by
  induction toks generalizing p with
  | nil => rw [reads_nil.mp h]
  | cons tok toks ih =>
    by_cases hrest : p.rest = []
    · rw [reads_of_end hrest h]
    · obtain ⟨p₁, hcall, hreads⟩ := reads_cons.mp h
      have := curr_lt_of_nextToken hcall hrest
      have := ih hreads
      omega

/-- Having read some tokens, the parser is where it was only if nothing was left of the source. -/
theorem curr_eq_of_reads {p p' : Parser} {toks : List Token} (h : p.Reads toks p')
    (hne : toks ≠ []) : p'.curr = p.curr ↔ p.rest = [] := by
  constructor
  · intro hcurr
    by_contra hrest
    obtain ⟨tok, toks, rfl⟩ := List.exists_cons_of_ne_nil hne
    obtain ⟨p₁, hcall, hreads⟩ := reads_cons.mp h
    have := curr_lt_of_nextToken hcall hrest
    have := curr_le_of_reads hreads
    omega
  · intro hrest
    rw [reads_of_end hrest h]

/-! ## consume_pnc -/

@[simp] theorem consumePnc_nil (p : Parser) : p.consumePnc [] = .ok p := rfl

/-- `consume_pnc` returns when its first token is there and it returns on the others. -/
theorem consumePnc_cons_eq_ok {p p'' : Parser} {kind : TokenKind} {kinds : List TokenKind} :
    p.consumePnc (kind :: kinds) = .ok p'' ↔
      ∃ tok, ∃ p' : Parser, p.nextToken = .ok (tok, p') ∧ tok.kind = kind ∧
        p'.consumePnc kinds = .ok p'' := by
  simp only [consumePnc, Except.bind_eq_ok, fiskaAssert_eq_ok, decide_eq_true_eq, Prod.exists]
  constructor
  · rintro ⟨tok, p', hcall, _, hkind, hrest⟩
    exact ⟨tok, p', hcall, hkind, hrest⟩
  · rintro ⟨tok, p', hcall, hkind, hrest⟩
    exact ⟨tok, p', hcall, (), hkind, hrest⟩

/-- `consume_pnc` returns when it reads tokens of the kinds asked for. -/
theorem consumePnc_eq_ok_iff {p p' : Parser} {kinds : List TokenKind} :
    p.consumePnc kinds = .ok p' ↔ ∃ toks, p.Reads toks p' ∧ toks.map (·.kind) = kinds := by
  induction kinds generalizing p with
  | nil =>
    simp only [consumePnc_nil, Except.ok.injEq, List.map_eq_nil_iff]
    constructor
    · rintro rfl
      exact ⟨[], reads_nil.mpr rfl, rfl⟩
    · rintro ⟨_, h, rfl⟩
      exact (reads_nil.mp h).symm
  | cons kind kinds ih =>
    rw [consumePnc_cons_eq_ok]
    constructor
    · rintro ⟨tok, p₁, hcall, rfl, hrest⟩
      obtain ⟨toks, hreads, rfl⟩ := ih.mp hrest
      exact ⟨tok :: toks, reads_cons.mpr ⟨p₁, hcall, hreads⟩, rfl⟩
    · rintro ⟨toks, hreads, hkinds⟩
      obtain ⟨tok, toks, rfl, rfl, rfl⟩ := List.map_eq_cons_iff.mp hkinds
      obtain ⟨p₁, hcall, hrest⟩ := reads_cons.mp hreads
      exact ⟨tok, p₁, hcall, rfl, ih.mpr ⟨toks, hrest, rfl⟩⟩

/-! ## consume -/

/-- `consume` goes on behind a token of the kind asked for, and stops behind any other. -/
theorem consume_cons_eq_ok {p p'' : Parser} {kind : TokenKind} {kinds : List TokenKind}
    {matched : Bool} :
    p.consume (kind :: kinds) = .ok (matched, p'') ↔
      ∃ tok, ∃ p' : Parser, p.nextToken = .ok (tok, p') ∧
        if tok.kind = kind then p'.consume kinds = .ok (matched, p'')
        else matched = false ∧ p'' = p' := by
  simp only [consume, Except.bind_eq_ok, Prod.exists]
  constructor
  · rintro ⟨tok, p', hcall, h⟩
    refine ⟨tok, p', hcall, ?_⟩
    split at h
    · next hkind => rwa [if_pos hkind]
    · next hkind =>
      obtain ⟨rfl, rfl⟩ := Prod.mk.inj (Except.ok.inj h)
      rw [if_neg hkind]
      exact ⟨rfl, rfl⟩
  · rintro ⟨tok, p', hcall, h⟩
    refine ⟨tok, p', hcall, ?_⟩
    split at h
    · next hkind => rwa [if_pos hkind]
    · next hkind =>
      obtain ⟨rfl, rfl⟩ := h
      rw [if_neg hkind]
      rfl

/-- `consume` returns true when `consume_pnc` returns, and leaves the parser where that does. -/
theorem consume_true_iff {p p' : Parser} {kinds : List TokenKind} :
    p.consume kinds = .ok (true, p') ↔ p.consumePnc kinds = .ok p' := by
  induction kinds generalizing p with
  | nil =>
    rw [consume, consumePnc_nil, Except.pure_eq_ok, Except.ok.injEq, Except.ok.injEq,
      Prod.mk.injEq, and_iff_right rfl]
  | cons kind kinds ih =>
    rw [consume_cons_eq_ok, consumePnc_cons_eq_ok]
    apply exists_congr
    intro tok
    apply exists_congr
    intro p₁
    by_cases hkind : tok.kind = kind
    · rw [if_pos hkind, ih, and_iff_right hkind]
    · simp [hkind]

/-- `consume` returns false when it reads tokens of the kinds asked for, and then one of another
    kind. -/
theorem consume_false_iff {p p' : Parser} {kinds : List TokenKind} :
    p.consume kinds = .ok (false, p') ↔ ∃ toks tok kind later,
      p.Reads (toks ++ [tok]) p' ∧ kinds = toks.map (·.kind) ++ kind :: later ∧
        tok.kind ≠ kind := by
  induction kinds generalizing p with
  | nil => simp [consume, Except.pure_eq_ok]
  | cons kind kinds ih =>
    rw [consume_cons_eq_ok]
    constructor
    · rintro ⟨tok, p₁, hcall, h⟩
      split at h
      · next hkind =>
        obtain ⟨toks, last, other, later, hreads, rfl, hne⟩ := ih.mp h
        refine ⟨tok :: toks, last, other, later, reads_cons.mpr ⟨p₁, hcall, hreads⟩, ?_, hne⟩
        rw [List.map_cons, hkind, List.cons_append]
      · next hkind =>
        obtain ⟨_, rfl⟩ := h
        exact ⟨[], tok, kind, kinds, reads_cons.mpr ⟨p', hcall, reads_nil.mpr rfl⟩, rfl, hkind⟩
    · rintro ⟨toks, last, other, later, hreads, hkinds, hne⟩
      cases toks with
      | nil =>
        obtain ⟨rfl, rfl⟩ := List.cons.inj hkinds
        obtain ⟨p₁, hcall, hrest⟩ := reads_cons.mp hreads
        obtain rfl := reads_nil.mp hrest
        exact ⟨last, p', hcall, by rw [if_neg hne]; exact ⟨rfl, rfl⟩⟩
      | cons tok toks =>
        obtain ⟨rfl, rfl⟩ := List.cons.inj hkinds
        obtain ⟨p₁, hcall, hrest⟩ := reads_cons.mp hreads
        refine ⟨tok, p₁, hcall, ?_⟩
        rw [if_pos rfl]
        exact ih.mpr ⟨toks, last, other, later, hrest, rfl, hne⟩

/-! ## Where the parser stands -/

/-- From wherever the parser stands: when `consume` returns true, it has read tokens of the kinds
    asked for, and stands right behind the last one, where `consume_pnc` leaves it. When it returns
    false, it has read tokens of the first kinds asked for and then one of another kind, and
    stands right behind that one; that is where it stood before only at the end of the source. -/
theorem consume_outcome (p p' : Parser) (kinds : List TokenKind) :
    (p.consume kinds = .ok (true, p') ↔ p.consumePnc kinds = .ok p') ∧
    (p.consume kinds = .ok (true, p') → ∃ toks, p.Reads toks p' ∧ toks.map (·.kind) = kinds ∧
      ∀ tok ∈ toks.getLast?, p'.StandsBehind tok) ∧
    (p.consume kinds = .ok (false, p') → ∃ toks tok kind later, p.Reads (toks ++ [tok]) p' ∧
      kinds = toks.map (·.kind) ++ kind :: later ∧ tok.kind ≠ kind ∧ p'.StandsBehind tok ∧
      (p'.curr = p.curr ↔ p.rest = [])) := by
  refine ⟨consume_true_iff, fun h => ?_, fun h => ?_⟩
  · obtain ⟨toks, hreads, hkinds⟩ := consumePnc_eq_ok_iff.mp (consume_true_iff.mp h)
    exact ⟨toks, hreads, hkinds, standsBehind_of_reads hreads⟩
  · obtain ⟨toks, tok, kind, later, hreads, hkinds, hne⟩ := consume_false_iff.mp h
    refine ⟨toks, tok, kind, later, hreads, hkinds, hne, ?_, ?_⟩
    · exact standsBehind_of_reads hreads tok List.getLast?_concat
    · exact curr_eq_of_reads hreads (List.concat_ne_nil tok toks)

/-- Asked for a number, the parser has read an identifier. -/
theorem consume_outcome_number :
    Parser.consume { source := str "a b" } [.number] =
        .ok (false, { source := str "a b", curr := 1, prev := chr 'a' }) ∧
      ∃ toks tok kind later,
        Parser.Reads { source := str "a b" } (toks ++ [tok])
          { source := str "a b", curr := 1, prev := chr 'a' } ∧
        [.number] = toks.map (·.kind) ++ kind :: later ∧ tok.kind ≠ kind ∧
        Parser.StandsBehind { source := str "a b", curr := 1, prev := chr 'a' } tok ∧
        (1 = 0 ↔ str "a b" = []) := by
  have hcall : Parser.consume { source := str "a b" } [.number] =
      .ok (false, { source := str "a b", curr := 1, prev := chr 'a' }) := by decide +kernel
  exact ⟨hcall, (consume_outcome { source := str "a b" } _ [.number]).2.2 hcall⟩

/-- A failed `consume` is not undone: at the start of `a b`, it leaves the cursor behind the `a`. -/
theorem not_consume_undone : ¬ ∀ (source : ByteVec) (front : List Token) (p p' : Parser)
    (kinds : List TokenKind), Parser.Reads { source } front p → kinds ≠ [] →
      p.consume kinds = .ok (false, p') →
      p'.curr = p.curr ∧ p'.nextToken.map Prod.fst = p.nextToken.map Prod.fst := by
  have hcall : Parser.consume { source := str "a b" } [.number] =
      .ok (false, { source := str "a b", curr := 1, prev := chr 'a' }) := by decide +kernel
  intro h
  have hcurr := (h _ [] { source := str "a b" } _ [.number] rfl (by simp) hcall).1
  cases hcurr

end Fiskas.Parser
