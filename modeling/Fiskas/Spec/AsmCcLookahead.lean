import Fiskas.Spec.AsmCcParser
import Fiskas.Spec.LexerLanguage

/-!
# Looking ahead in the first assembler

A token that `peek_token` fetched waits in the queue until `next_token` takes it. So calls of
the two deliver what calls of `fetch_token` alone would: `lookahead_transparent` gives the
result of every sequence of calls on every source, with the queue that it leaves and the message
of an abort. With it, the sources that the first lexer is meant for are those of the present one,
once comments and minus signs are written as blanks: `run_of_modern`.

## Key results

- `lookahead_transparent`: sequences of calls, as calls of `fetch_token` only
- `calls_of_scans`, `fetchToken_of_done`: the tokens of a scan, and what comes behind them
- `run_of_modern`: which sources are lexed to the end, and which are not
-/

namespace Fiskas.AsmCc

namespace Lexer

/-! ## The queue -/

/-- What a sequence of calls makes of the tokens that it fetches behind those in the queue: as
    many as it asks for are delivered, and the others wait in the queue. -/
def deliver (queue : List Token) (ops : List Op) (r : List Token × Lexer) : List Token × Lexer :=
  ((queue ++ r.1).take (ops.count .next),
    { r.2 with lookaheadToks := (queue ++ r.1).drop (ops.count .next) })

theorem deliver_peek (queue : List Token) (ops : List Op) (r : List Token × Lexer) :
    deliver queue (.peek :: ops) r = deliver queue ops r := by
  rw [deliver, List.count_cons_of_ne (by decide)]
  rfl

theorem deliver_next (tok : Token) (queue : List Token) (ops : List Op)
    (r : List Token × Lexer) :
    deliver (tok :: queue) (.next :: ops) r =
      (tok :: (deliver queue ops r).1, (deliver queue ops r).2) := by
  rw [deliver, List.count_cons_self]
  rfl

/-- A token that is fetched behind an empty queue counts as one of the queue. -/
theorem deliver_fetched (tok : Token) (ops : List Op) (toks : List Token) (l : Lexer) :
    deliver [] ops (tok :: toks, l) = deliver [tok] ops (toks, l) := rfl

/-- A sequence of calls behind its first one. -/
private theorem run_cons (op : Op) (ops : List Op) (o : Lexer) :
    run (op :: ops) o = op.call o >>= fun r =>
      (run ops r.2).map fun r' => (r.1 ++ r'.1, r'.2) := by
  rw [run]
  cases op.call o with
  | error e => rfl
  | ok r =>
    dsimp only [bind, Except.bind]
    cases run ops r.2 <;> rfl

/-- A sequence of calls fetches what the queue does not have, and aborts where that aborts. -/
private theorem run_eq_calls (ops : List Op) (o : Lexer) :
    run ops o = (Run.calls fetchToken (asked o.lookaheadToks.length ops)
      { o with lookaheadToks := [] }).map (deliver o.lookaheadToks ops) := by
  -- Induction on the calls; the queue decides whether the first one fetches a token.
  induction ops generalizing o with
  | nil =>
    rw [asked]
    show Except.ok ([], o) = Except.ok _
    rw [deliver, List.append_nil]
    rfl
  | cons op ops ih =>
    obtain ⟨fileContent, curr, queue⟩ := o
    rw [run_cons, call_eq]
    cases queue with
    | nil =>
      dsimp only
      cases hfetch : fetchToken { fileContent, curr, lookaheadToks := [] } with
      | error e =>
        -- Both sides abort with the same message.
        cases op <;> (rw [List.length_nil, asked, Run.calls, hfetch]; rfl)
      | ok r =>
        obtain ⟨tok, o'⟩ := r
        have hqueue : o'.lookaheadToks = [] := lookaheadToks_fetchToken hfetch
        obtain ⟨fileContent', curr', queue'⟩ := o'
        obtain rfl : queue' = [] := hqueue
        cases op with
        | peek =>
          -- The token that is fetched becomes the queue of the other calls.
          rw [List.length_nil, asked, Run.calls, hfetch]
          dsimp only [bind, Except.bind, pure, Except.pure]
          rw [ih, List.nil_append]
          dsimp only [List.length_singleton]
          cases Run.calls fetchToken (asked 1 ops) ⟨fileContent', curr', []⟩ with
          | error e => rfl
          | ok r =>
            dsimp only [Except.map]
            rw [deliver_peek, deliver_fetched]
            rfl
        | next =>
          -- It is delivered at once.
          rw [List.length_nil, asked, Run.calls, hfetch]
          dsimp only [bind, Except.bind, pure, Except.pure]
          rw [ih]
          dsimp only [List.length_nil]
          cases Run.calls fetchToken (asked 0 ops) ⟨fileContent', curr', []⟩ with
          | error e => rfl
          | ok r =>
            dsimp only [Except.map]
            rw [deliver_fetched, deliver_next]
            rfl
    | cons tok queue =>
      -- Nothing is fetched: the front of the queue is looked at or delivered.
      cases op with
      | peek =>
        dsimp only [bind, Except.bind, pure, Except.pure]
        rw [ih, List.length_cons, asked]
        dsimp only [List.length_cons]
        cases Run.calls fetchToken (asked (queue.length + 1) ops) ⟨fileContent, curr, []⟩ with
        | error e => rfl
        | ok r =>
          dsimp only [Except.map]
          rw [deliver_peek]
          rfl
      | next =>
        dsimp only [bind, Except.bind, pure, Except.pure]
        rw [ih, List.length_cons, asked]
        dsimp only
        cases Run.calls fetchToken (asked queue.length ops) ⟨fileContent, curr, []⟩ with
        | error e => rfl
        | ok r =>
          dsimp only [Except.map]
          rw [deliver_next]
          rfl

/-- However calls of `peek_token` and `next_token` follow one another on a source: they deliver
    the first tokens of calls of `fetch_token` only, as many as there are calls of `next_token`,
    keep the others in the queue, and abort with the message with which `fetch_token` does. -/
theorem lookahead_transparent (source : ByteVec) (ops : List Op) :
    run ops { fileContent := source } =
      (Run.calls fetchToken (asked 0 ops) { fileContent := source }).map fun r =>
        (r.1.take (ops.count .next), { r.2 with lookaheadToks := r.1.drop (ops.count .next) }) :=
  run_eq_calls ops { fileContent := source }

/-! ## The tokens of a scan -/

/-- A token of the scanner is not an Eof. -/
private theorem tokenKind_ne_eof {k : TokenKind} {c : U8} (h : startClass c = some k)
    (text : ByteVec) : tokenKind k text ≠ .eof := by
  have hnone : ∀ c, startClass c ≠ some .eof := by decide +kernel
  have hk : k ≠ .eof := by
    intro heq
    rw [heq] at h
    exact hnone c h
  unfold tokenKind
  split
  · rw [StringMap.find, keywords, List.lookup_cons, List.lookup_cons, List.lookup_cons,
      List.lookup_nil]
    cases text == str "fn" <;> cases text == str "mov" <;> cases text == str "return" <;> decide
  · exact hk

variable {l : Lexer}

/-- The source behind the characters that a lexer went on by. -/
private theorem rest_advance (n : Nat) : rest { l with curr := l.curr + n } = l.rest.drop n :=
  (List.drop_drop ..).symm

/-- A scan of a source without comments is a run of `fetch_token`, without an Eof. -/
theorem calls_of_scans {xs last : ByteVec} {steps : List (ByteVec × TokenKind × ByteVec)}
    (hscan : Munch.Rules.Scans rules xs steps last) (hrest : l.rest = xs)
    (hcomment : ∀ c ∈ xs, isCommentStart c = false) :
    ∃ toks l', Run.calls fetchToken steps.length l = .ok (toks, l') ∧ l'.rest = last ∧
      (∀ c ∈ last, isCommentStart c = false) ∧ ∀ tok ∈ toks, tok.kind ≠ .eof := by
  induction hscan generalizing l with
  | nil xs => exact ⟨[], l, rfl, hrest, hcomment, fun tok htok => absurd htok List.not_mem_nil⟩
  | @cons xs g text rest' _ k steps hnext _ ih =>
    have hcall := fetchToken_rules (l := l) (hrest ▸ hcomment)
    rw [hrest, hnext] at hcall
    obtain ⟨hparts, _, htoken, _⟩ := Munch.Rules.next_eq_token.mp hnext
    -- The next call starts behind the text of this token.
    have hrest' : Lexer.rest { l with curr := l.curr + (g ++ text).length } = rest' := by
      rw [rest_advance, hrest, hparts, ← List.append_assoc, List.drop_left]
    have hcomment' : ∀ c ∈ rest', isCommentStart c = false := by
      intro c hc
      apply hcomment
      rw [hparts, List.mem_append, List.mem_append]
      exact .inr (.inr hc)
    obtain ⟨toks, l', hrun, hlast, hnone, hne⟩ := ih hrest' hcomment'
    refine ⟨_ :: toks, l', Run.calls_succ_eq_ok.mpr ⟨_, _, toks, hcall, hrun, rfl⟩, hlast, hnone,
      ?_⟩
    intro tok htok
    cases List.mem_cons.mp htok with
    | inl heq =>
      obtain ⟨c, _, _, hstart, _⟩ := htoken
      rw [heq]
      exact tokenKind_ne_eof hstart text
    | inr hmem => exact hne tok hmem

/-- When only white space is left, every call returns an Eof. -/
theorem calls_of_done (hdone : rules.next l.rest = .done)
    (hcomment : ∀ c ∈ l.rest, isCommentStart c = false) (m : Nat) :
    ∃ toks l', Run.calls fetchToken m l = .ok (toks, l') ∧ ∀ tok ∈ toks, tok.kind = .eof := by
  induction m generalizing l with
  | zero => exact ⟨[], l, rfl, fun tok htok => absurd htok List.not_mem_nil⟩
  | succ m ih =>
    have hcall := fetchToken_rules hcomment
    rw [hdone] at hcall
    have hend : Lexer.rest { l with curr := l.curr + l.rest.length } = [] := by
      rw [rest_advance, List.drop_length]
    obtain ⟨toks, l', hrun, heof⟩ := ih (l := { l with curr := l.curr + l.rest.length })
      (hend ▸ rfl) (by simp [hend])
    refine ⟨_ :: toks, l', Run.calls_succ_eq_ok.mpr ⟨_, _, toks, hcall, hrun, rfl⟩, ?_⟩
    intro tok htok
    cases List.mem_cons.mp htok with
    | inl heq => rw [heq]
    | inr hmem => exact heof tok hmem

/-- In front of a character that no token starts with, a call aborts. -/
theorem fetchToken_of_stuck (hstuck : rules.next l.rest = .stuck)
    (hcomment : ∀ c ∈ l.rest, isCommentStart c = false) : ∃ msg, l.fetchToken = .error msg := by
  have hcall := fetchToken_rules hcomment
  rw [hstuck] at hcall
  exact hcall

/-! ## The language -/

/-- A minus sign written as a blank. -/
def unsigned (c : U8) : U8 := if c = chr '-' then chr ' ' else c

/-- The source as the present lexer is to read it: comments and minus signs are blanks. -/
def modern (source : ByteVec) : ByteVec := (blank false source).map unsigned

/-- What the test of the present lexer makes of each character, by its class in the first one. -/
private theorem mayFollow_unsigned (c : U8) :
    (isWhitespace c = true →
      mayFollow false (unsigned c) = true ∧ nextOpen false (unsigned c) = false) ∧
    (isDecimalDigit c = true →
      mayFollow false (unsigned c) = true ∧ nextOpen false (unsigned c) = false) ∧
    (startClass c ≠ none → mayFollow false (unsigned c) = true ∧
      nextOpen false (unsigned c) = decide (startClass c = some .identifier)) ∧
    (isWhitespace c = false → startClass c = none → mayFollow false (unsigned c) = false) ∧
    (canContinueIdentifier c = Cursor.isIdentContinue (unsigned c)) := by
  revert c
  decide +kernel

/-- Behind a word of the first lexer it plays no role for the test whether a letter came before. -/
private theorem stops_unsigned {xs : ByteVec} (h : rules.Stops .identifier xs) :
    lexRules.Stops .identifier (xs.map unsigned) := by
  intro c hc
  rw [List.head?_map, Option.mem_def, Option.map_eq_some_iff] at hc
  obtain ⟨d, hd, rfl⟩ := hc
  have hstop : canContinueIdentifier d = false := h d hd
  show Cursor.isIdentContinue (unsigned d) = false
  rw [← (mayFollow_unsigned d).2.2.2.2, hstop]

/-- The test passes over characters that may follow and that open nothing. -/
private theorem wellFormed_map_append {o : Bool} {front : ByteVec}
    (h : ∀ c ∈ front, mayFollow o (unsigned c) = true ∧ nextOpen o (unsigned c) = o)
    (back : ByteVec) :
    wellFormed o ((front ++ back).map unsigned) = wellFormed o (back.map unsigned) := by
  rw [List.map_append]
  apply wellFormed_append_of
  intro c hc
  obtain ⟨d, hd, rfl⟩ := List.mem_map.mp hc
  exact h d hd

/-- The test passes over white space. -/
private theorem wellFormed_map_gap {g : ByteVec} (h : rules.IsGap g) (xs : ByteVec) :
    wellFormed false ((g ++ xs).map unsigned) = wellFormed false (xs.map unsigned) :=
  wellFormed_map_append (fun c hc => (mayFollow_unsigned c).1 (h c hc)) xs

/-- The test passes over a token. -/
private theorem wellFormed_map_token {k : TokenKind} {text xs : ByteVec}
    (ht : rules.IsToken k text) (hstop : rules.Stops k xs) :
    wellFormed false ((text ++ xs).map unsigned) = wellFormed false (xs.map unsigned) := by
  obtain ⟨c, cs, rfl, hstart, hcs⟩ := ht
  have hstart : startClass c = some k := hstart
  obtain ⟨hmay, hopen⟩ := (mayFollow_unsigned c).2.2.1 (by rw [hstart]; exact Option.some_ne_none k)
  rw [List.cons_append, List.map_cons, wellFormed, hmay, hopen, hstart, Bool.true_and]
  cases k with
  | identifier =>
    rw [decide_eq_true rfl, wellFormed_map_append fun x hx => mayFollow_word _ ?_]
    · exact wellFormed_of_stops (stops_unsigned hstop)
    · rw [← (mayFollow_unsigned x).2.2.2.2]
      exact hcs x hx
  | number =>
    rw [decide_eq_false (by decide)]
    exact wellFormed_map_append (fun x hx => (mayFollow_unsigned x).2.1 (hcs x hx)) xs
  | _ =>
    -- All other tokens have one character.
    rw [decide_eq_false (by decide)]
    exact wellFormed_map_append (fun x hx => Bool.noConfusion (hcs x hx)) xs

/-- A scan of the first lexer leaves the test unchanged. -/
private theorem wellFormed_map_of_scans {xs last : ByteVec}
    {steps : List (ByteVec × TokenKind × ByteVec)}
    (h : Munch.Rules.Scans rules xs steps last) :
    wellFormed false (xs.map unsigned) = wellFormed false (last.map unsigned) := by
  induction h with
  | nil => rfl
  | cons hnext _ ih =>
    obtain ⟨hparts, hgap, htoken, hstop⟩ := Munch.Rules.next_eq_token.mp hnext
    rw [hparts, wellFormed_map_gap hgap, wellFormed_map_token htoken hstop, ih]

/-- The test passes when only white space is left, and fails when the scanner is stuck. -/
private theorem wellFormed_map_last {last : ByteVec} :
    (rules.next last = .done → wellFormed false (last.map unsigned) = true) ∧
      (rules.next last = .stuck → wellFormed false (last.map unsigned) = false) := by
  constructor
  · intro h
    have hgap := wellFormed_map_gap (Munch.Rules.next_eq_done.mp h) []
    rw [List.append_nil] at hgap
    exact hgap
  · intro h
    obtain ⟨g, c, cs, rfl, hgap, hc, hstart⟩ := Munch.Rules.exists_of_next_eq_stuck h
    rw [wellFormed_map_gap hgap, List.map_cons, wellFormed,
      (mayFollow_unsigned c).2.2.2.1 hc hstart, Bool.false_and]

/-! ## Runs on every source -/

@[simp] theorem length_blank (inside : Bool) (source : ByteVec) :
    (blank inside source).length = source.length := by
  induction source generalizing inside with
  | nil => rw [blank_nil]
  | cons c cs ih =>
    cases inside
    all_goals
      rw [blank]
      split
      all_goals rw [List.length_cons, List.length_cons, ih]

/-- Before any call, all of the source is left. -/
private theorem rest_start (source : ByteVec) : rest { fileContent := source } = source := rfl

/-- On a source without comments that passes the test, calls of `fetch_token` never abort, and
    the tokens behind as many as the source has characters are Eofs. -/
private theorem calls_of_wellFormed {source : ByteVec}
    (hcomment : ∀ c ∈ source, isCommentStart c = false)
    (h : wellFormed false (source.map unsigned) = true) (n : Nat) :
    ∃ toks l', Run.calls fetchToken n { fileContent := source } = .ok (toks, l') ∧
      ∀ tok ∈ toks.drop source.length, tok.kind = .eof := by
  obtain ⟨steps, last, hscan, hlast, hle⟩ := Munch.Rules.exists_scans (R := rules) source
  obtain ⟨toks, l₁, hrun, hrest, hnone, -⟩ := calls_of_scans hscan (rest_start source) hcomment
  have hdone : rules.next last = .done := by
    cases hlast with
    | inl hdone => exact hdone
    | inr hstuck =>
      rw [wellFormed_map_of_scans hscan, wellFormed_map_last.2 hstuck] at h
      cases h
  obtain ⟨eofs, l₂, hrun₂, heof⟩ := calls_of_done (hrest ▸ hdone) (hrest ▸ hnone) n
  have hall := Run.calls_add_eq_ok.mpr ⟨l₁, toks, eofs, hrun, hrun₂, rfl⟩
  -- The `n` calls are the first ones of these.
  rw [Nat.add_comm] at hall
  obtain ⟨l', ts, ts', hfirst, -, heq⟩ := Run.calls_add_eq_ok.mp hall
  refine ⟨ts, l', hfirst, fun tok htok => heof tok ?_⟩
  have hmem : tok ∈ (toks ++ eofs).drop source.length := by
    rw [heq, List.drop_append]
    exact List.mem_append_left _ htok
  rw [List.drop_append, Run.calls_length hrun, List.drop_eq_nil_of_le, List.nil_append] at hmem
  · exact List.mem_of_mem_drop hmem
  · rw [Run.calls_length hrun]
    exact hle

/-- On a source without comments that does not pass the test, no call of `fetch_token` returns an
    Eof, and one more call than the source has characters aborts. -/
private theorem calls_of_not_wellFormed {source : ByteVec}
    (hcomment : ∀ c ∈ source, isCommentStart c = false)
    (h : ¬ wellFormed false (source.map unsigned) = true) {n : Nat} :
    (source.length < n → ∃ e, Run.calls fetchToken n { fileContent := source } = .error e) ∧
      ∀ toks l', Run.calls fetchToken n { fileContent := source } = .ok (toks, l') →
        ∀ tok ∈ toks, tok.kind ≠ .eof := by
  obtain ⟨steps, last, hscan, hlast, hle⟩ := Munch.Rules.exists_scans (R := rules) source
  obtain ⟨toks, l₁, hrun, hrest, hnone, hne⟩ := calls_of_scans hscan (rest_start source) hcomment
  have hstuck : rules.next last = .stuck := by
    cases hlast with
    | inl hdone => exact absurd (wellFormed_map_of_scans hscan ▸ wellFormed_map_last.1 hdone) h
    | inr hstuck => exact hstuck
  obtain ⟨msg, herr⟩ := fetchToken_of_stuck (hrest ▸ hstuck) (hrest ▸ hnone)
  have habort := Run.calls_succ_of_error hrun herr
  -- A run that returns ends before the token at which the lexer aborts.
  have hshort : ∀ toks l', Run.calls fetchToken n { fileContent := source } = .ok (toks, l') →
      n ≤ steps.length := by
    intro toks l' hok
    apply Nat.le_of_not_lt
    intro hlt
    obtain ⟨d, rfl⟩ : ∃ d, n = steps.length + 1 + d := ⟨n - steps.length - 1, by omega⟩
    obtain ⟨_, _, _, hfirst, _, _⟩ := Run.calls_add_eq_ok.mp hok
    rw [habort] at hfirst
    cases hfirst
  constructor
  · intro hlt
    cases hcalls : Run.calls fetchToken n { fileContent := source } with
    | error e => exact ⟨e, rfl⟩
    | ok r =>
      have := hshort r.1 r.2 hcalls
      omega
  · intro toks' l' hok tok htok
    have hshort := hshort toks' l' hok
    obtain ⟨d, hd⟩ : ∃ d, steps.length = n + d := ⟨steps.length - n, by omega⟩
    rw [hd] at hrun
    obtain ⟨_, ts, ts', hfirst, _, rfl⟩ := Run.calls_add_eq_ok.mp hrun
    rw [hok] at hfirst
    cases hfirst
    exact hne tok (List.mem_append_left _ htok)

/-- Once comments and minus signs are blanks, the sources of the first lexer are those of the
    present one. On these no sequence of calls aborts, and what is delivered behind as many tokens
    as the source has characters are Eofs. On all others no sequence of calls delivers an Eof, and
    one that asks for more tokens than the source has characters aborts. -/
theorem run_of_modern (source : ByteVec) :
    (InLanguage (modern source) → ∀ ops, ∃ toks o,
      run ops { fileContent := source } = .ok (toks, o) ∧
        ∀ tok ∈ toks.drop source.length, tok.kind = .eof) ∧
    (¬ InLanguage (modern source) → ∀ ops,
      (source.length < asked 0 ops → ∃ e, run ops { fileContent := source } = .error e) ∧
        ∀ toks o, run ops { fileContent := source } = .ok (toks, o) →
          ∀ tok ∈ toks, tok.kind ≠ .eof) := by
  have hcomment : ∀ c ∈ blank false source, isCommentStart c = false :=
    fun c hc => isCommentStart_of_mem_blank hc
  rw [← wellFormed_iff_inLanguage, modern]
  constructor
  · intro h ops
    obtain ⟨toks, l', hcalls, heof⟩ := calls_of_wellFormed hcomment h (asked 0 ops)
    have hrun := run_eq_calls ops { fileContent := blank false source }
    rw [List.length_nil, hcalls] at hrun
    -- The source itself delivers the tokens of the blanked one.
    obtain ⟨o, hok⟩ := (((blanked_start source).run ops).exists_iff.1 _).mpr ⟨_, hrun⟩
    refine ⟨_, o, hok, fun tok htok => heof tok ?_⟩
    rw [List.nil_append, List.drop_take] at htok
    rw [length_blank]
    exact List.mem_of_mem_take htok
  · intro h ops
    have hsame := ((blanked_start source).run ops).exists_iff
    have hrun := run_eq_calls ops { fileContent := blank false source }
    rw [List.length_nil] at hrun
    obtain ⟨habort, hne⟩ := calls_of_not_wellFormed hcomment h (n := asked 0 ops)
    rw [length_blank] at habort
    constructor
    · intro hlt
      obtain ⟨e, herr⟩ := habort hlt
      rw [herr] at hrun
      exact hsame.2.mpr ⟨e, hrun⟩
    · intro toks o hok tok htok
      obtain ⟨o', hok'⟩ := (hsame.1 toks).mp ⟨o, hok⟩
      cases hcalls : Run.calls fetchToken (asked 0 ops) { fileContent := blank false source } with
      | error e =>
        rw [hcalls, hok'] at hrun
        cases hrun
      | ok r =>
        -- What is delivered was fetched.
        rw [hcalls, hok'] at hrun
        have htoks : toks = r.1.take (ops.count .next) :=
          congrArg Prod.fst (Except.ok.inj hrun)
        rw [htoks] at htok
        exact hne r.1 r.2 hcalls tok (List.mem_of_mem_take htok)

end Lexer

end Fiskas.AsmCc
