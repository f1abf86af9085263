import Fiskas.Spec.LexerTokens

/-!
# The language of the lexer

Which sources the lexer takes to the end, said without the lexer: every character is legal, and
in every run of letters, digits and underscores the first character that is not a digit is a
letter. `wellFormed` decides this in one pass, with one bit of memory; it follows the scanner
step by step, and it agrees with the description over all runs. The lexer reaches Eof on the
sources of this language, and aborts on the others, after at most one call more than the source
has characters.

## Key results

- `wellFormed_iff_inLanguage`: the one pass test decides the language
- `wellFormed_of_scans`: a scan leaves the test unchanged
- `lexes_iff_inLanguage`: the lexer accepts exactly the language, and always ends
-/

namespace Fiskas

open Munch.Rules

/-! ## The language -/

/-- White space, a one character token, or a letter, digit or underscore. -/
def isLegal (c : U8) : Bool :=
  c ∈ str " \t\n\r()\x7b\x7d,;" || Cursor.isIdentContinue c

/-- The legal characters, one by one. -/
theorem isLegal_iff {c : U8} : isLegal c = true ↔
    c ∈ str " \t\n\r()\x7b\x7d,;" ∨ c ∈ str "abcdefghijklmnopqrstuvwxyz" ∨
      c ∈ str "ABCDEFGHIJKLMNOPQRSTUVWXYZ" ∨ c ∈ str "0123456789" ∨ c = chr '_' := by
  rw [isLegal, Bool.or_eq_true, decide_eq_true_iff, Cursor.isIdentContinue_iff]

/-- A maximal run of letters, digits and underscores in `before ++ (run ++ after)`. -/
structure IsMaximalRun (before run after : ByteVec) : Prop where
  ne_nil : run ≠ []
  word : ∀ c ∈ run, Cursor.isIdentContinue c = true
  left : ∀ c ∈ before.getLast?, Cursor.isIdentContinue c = false
  right : ∀ c ∈ after.head?, Cursor.isIdentContinue c = false

/-- The sources that the lexer is meant for. -/
structure InLanguage (source : ByteVec) : Prop where
  legal : ∀ c ∈ source, isLegal c = true
  words : ∀ before run after, source = before ++ (run ++ after) → IsMaximalRun before run after →
    ∀ c, run.find? (fun c => !Cursor.isNumber c) = some c → Cursor.isIdentStart c = true

/-! ## A test in one pass -/

/-- Whether the run at the end of a text has a character other than a digit, after one more
    character. -/
def nextOpen (o : Bool) (c : U8) : Bool :=
  if Cursor.isNumber c then o else Cursor.isIdentContinue c

/-- An underscore has to stand behind a letter of the same run. -/
def mayFollow (o : Bool) (c : U8) : Bool := isLegal c && (c ≠ chr '_' || o)

/-- Every character may follow the ones before it. -/
def wellFormed : Bool → ByteVec → Bool
  | _, [] => true
  | o, c :: cs => mayFollow o c && wellFormed (nextOpen o c) cs

theorem wellFormed_append (o : Bool) (front back : ByteVec) :
    wellFormed o (front ++ back) =
      (wellFormed o front && wellFormed (front.foldl nextOpen o) back) := by
  induction front generalizing o with
  | nil => rfl
  | cons c cs ih =>
    rw [List.cons_append, wellFormed, wellFormed, ih, List.foldl_cons, Bool.and_assoc]

/-- The test looks at each character with what stands before it. -/
private theorem wellFormed_iff_forall (o : Bool) (xs : ByteVec) :
    wellFormed o xs = true ↔ ∀ front c back, xs = front ++ c :: back →
      mayFollow (front.foldl nextOpen o) c = true := by
  constructor
  · intro h front c back heq
    rw [heq, wellFormed_append, Bool.and_eq_true, wellFormed, Bool.and_eq_true] at h
    exact h.2.1
  · intro h
    induction xs generalizing o with
    | nil => rfl
    | cons c cs ih =>
      rw [wellFormed, Bool.and_eq_true]
      refine ⟨h [] c cs rfl, ih (nextOpen o c) fun front c' back heq => ?_⟩
      exact h (c :: front) c' back (by rw [heq, List.cons_append])

/-- Digits do not change what a run has so far. -/
private theorem foldl_nextOpen_digits (o : Bool) {digits : ByteVec}
    (h : ∀ c ∈ digits, Cursor.isNumber c = true) : digits.foldl nextOpen o = o := by
  induction digits with
  | nil => rfl
  | cons c cs ih =>
    rw [List.foldl_cons, nextOpen, if_pos (h c List.mem_cons_self)]
    exact ih fun x hx => h x (List.mem_cons_of_mem c hx)

/-- A digit continues a word. -/
private theorem isIdentContinue_of_isNumber {c : U8} (h : Cursor.isNumber c = true) :
    Cursor.isIdentContinue c = true := by
  rw [Cursor.isIdentContinue, h, Bool.or_true]

/-- Behind a character that is in no run, nothing is open. -/
private theorem foldl_nextOpen_of_last {before : ByteVec}
    (h : ∀ c ∈ before.getLast?, Cursor.isIdentContinue c = false) :
    before.foldl nextOpen false = false := by
  cases List.eq_nil_or_concat before with
  | inl hnil => rw [hnil]; rfl
  | inr hlast =>
    obtain ⟨front, c, rfl⟩ := hlast
    rw [List.concat_eq_append] at h ⊢
    have hc : Cursor.isIdentContinue c = false := h c (by rw [List.getLast?_concat]; rfl)
    have hnum : ¬ Cursor.isNumber c = true := by
      intro hnum
      rw [isIdentContinue_of_isNumber hnum] at hc
      exact Bool.noConfusion hc
    rw [List.foldl_concat, nextOpen, if_neg hnum, hc]

/-- When nothing is open, the text ends with digits behind a character that is in no run. -/
private theorem exists_digits_of_foldl {front : ByteVec}
    (h : front.foldl nextOpen false = false) : ∃ before digits, front = before ++ digits ∧
      (∀ c ∈ before.getLast?, Cursor.isIdentContinue c = false) ∧
      ∀ c ∈ digits, Cursor.isNumber c = true := by
  -- Induction from the end of the text: a digit joins the digits, any other character is the
  -- one in front of them.
  induction front using List.reverseRecOn with
  | nil => exact ⟨[], [], rfl, by simp, by simp⟩
  | append_singleton front c ih =>
    rw [List.foldl_concat, nextOpen] at h
    split at h
    · next hnum =>
      obtain ⟨before, digits, rfl, hbefore, hdigits⟩ := ih h
      refine ⟨before, digits ++ [c], List.append_assoc _ _ _, hbefore, fun x hx => ?_⟩
      cases List.mem_append.mp hx with
      | inl hx => exact hdigits x hx
      | inr hx => rw [List.mem_singleton.mp hx]; exact hnum
    · refine ⟨front ++ [c], [], (List.append_nil _).symm, fun x hx => ?_,
        fun x hx => absurd hx List.not_mem_nil⟩
      rw [List.getLast?_concat] at hx
      rw [← Option.some.inj hx]
      exact h

/-- A character of a run is legal, and a letter, a digit or an underscore. -/
theorem of_isIdentContinue (c : U8) (h : Cursor.isIdentContinue c = true) :
    isLegal c = true ∧ (Cursor.isIdentStart c = true ∨ c = chr '_' ∨ Cursor.isNumber c = true) := by
  constructor
  · rw [isLegal, h, Bool.or_true]
  · simpa [Cursor.isIdentContinue, or_assoc] using h

/-- An underscore is neither a letter nor a digit. -/
theorem underscore_spec : Cursor.isIdentContinue (chr '_') = true ∧
    Cursor.isIdentStart (chr '_') = false ∧ Cursor.isNumber (chr '_') = false := by decide

/-- The run that a character and the digits in front of it are in. -/
private theorem isMaximalRun_of_digits {before digits : ByteVec} {c : U8}
    (hbefore : ∀ c ∈ before.getLast?, Cursor.isIdentContinue c = false)
    (hdigits : ∀ c ∈ digits, Cursor.isNumber c = true) (hc : Cursor.isIdentContinue c = true)
    (back : ByteVec) :
    IsMaximalRun before (digits ++ c :: back.takeWhile Cursor.isIdentContinue)
      (back.dropWhile Cursor.isIdentContinue) where
  ne_nil := by simp
  word := by
    intro x hx
    rw [List.mem_append, List.mem_cons] at hx
    rcases hx with hx | rfl | hx
    · exact isIdentContinue_of_isNumber (hdigits x hx)
    · exact hc
    · exact List.mem_takeWhile_imp hx
  left := hbefore
  right := stops_dropWhile (R := lexRules) .identifier back

/-- A source passes the test when its runs are as the language has them. -/
private theorem wellFormed_of_inLanguage {source : ByteVec} (h : InLanguage source) :
    wellFormed false source = true := by
  rw [wellFormed_iff_forall]
  intro front c back heq
  have hlegal : isLegal c = true := h.legal c (by rw [heq]; simp)
  rw [mayFollow, hlegal, Bool.true_and]
  by_cases hc : c = chr '_'
  · cases hopen : front.foldl nextOpen false with
    | true => rw [Bool.or_true]
    | false =>
      -- An underscore behind digits only would be the first other character of its run.
      obtain ⟨before, digits, rfl, hbefore, hdigits⟩ := exists_digits_of_foldl hopen
      obtain ⟨hword, hstart, hnum⟩ := underscore_spec
      rw [← hc] at hword hstart hnum
      have hrun := isMaximalRun_of_digits hbefore hdigits hword back
      have hfirst : (digits ++ c :: back.takeWhile Cursor.isIdentContinue).find?
          (fun c => !Cursor.isNumber c) = some c := by
        rw [List.find?_eq_some_iff_append]
        exact ⟨by rw [hnum]; rfl, digits, _, rfl, fun x hx => by rw [hdigits x hx]; rfl⟩
      have hsplit : source = before ++ ((digits ++ c :: back.takeWhile Cursor.isIdentContinue) ++
          back.dropWhile Cursor.isIdentContinue) := by
        rw [heq, List.append_assoc, List.append_assoc, List.cons_append,
          List.takeWhile_append_dropWhile]
      have hletter := h.words before _ _ hsplit hrun c hfirst
      rw [hstart] at hletter
      exact Bool.noConfusion hletter
  · rw [decide_eq_true hc, Bool.true_or]

/-- In a source that passes the test, the runs are as the language has them. -/
private theorem inLanguage_of_wellFormed {source : ByteVec} (h : wellFormed false source = true) :
    InLanguage source := by
  rw [wellFormed_iff_forall] at h
  constructor
  · intro c hc
    obtain ⟨front, back, heq⟩ := List.append_of_mem hc
    have hmay := h front c back heq
    rw [mayFollow, Bool.and_eq_true] at hmay
    exact hmay.1
  · intro before run after heq hrun c hfirst
    obtain ⟨hnum, digits, back, rfl, hdigits⟩ := List.find?_eq_some_iff_append.mp hfirst
    have hword : Cursor.isIdentContinue c = true := hrun.word c (by simp)
    -- Only digits stand in front of this character in its run, so it is no underscore.
    have hopen : (before ++ digits).foldl nextOpen false = false := by
      rw [List.foldl_append, foldl_nextOpen_of_last hrun.left]
      exact foldl_nextOpen_digits false fun x hx => by simpa using hdigits x hx
    have hmay := h (before ++ digits) c (back ++ after) (by
      rw [heq, List.append_assoc, List.append_assoc, List.cons_append])
    rw [hopen, mayFollow, Bool.or_false, Bool.and_eq_true, decide_eq_true_eq] at hmay
    rcases (of_isIdentContinue c hword).2 with hletter | hc | hdigit
    · exact hletter
    · exact absurd hc hmay.2
    · rw [hdigit] at hnum
      exact Bool.noConfusion hnum

/-- The test in one pass decides the language. -/
theorem wellFormed_iff_inLanguage (source : ByteVec) :
    wellFormed false source = true ↔ InLanguage source :=
  ⟨inLanguage_of_wellFormed, wellFormed_of_inLanguage⟩

/-! ## The scanner and the test -/

/-- What the test makes of each character when nothing is open. -/
private theorem mayFollow_char (c : U8) :
    (Cursor.isWhitespace c = true → mayFollow false c = true ∧ nextOpen false c = false) ∧
    (Cursor.isNumber c = true → mayFollow false c = true ∧ nextOpen false c = false) ∧
    (startKind c ≠ none → mayFollow false c = true ∧
      nextOpen false c = decide (startKind c = some .identifier)) ∧
    (Cursor.isWhitespace c = false → startKind c = none → mayFollow false c = false) := by
  revert c
  decide +kernel

/-- Inside a word any of its characters may follow. -/
theorem mayFollow_word (c : U8) (h : Cursor.isIdentContinue c = true) :
    mayFollow true c = true ∧ nextOpen true c = true := by
  constructor
  · rw [mayFollow, (of_isIdentContinue c h).1, Bool.or_true, Bool.and_true]
  · rw [nextOpen, h]
    exact ite_self _

/-- Characters that may follow and leave the test as it was. -/
theorem wellFormed_append_of {o : Bool} {front : ByteVec}
    (h : ∀ c ∈ front, mayFollow o c = true ∧ nextOpen o c = o) (back : ByteVec) :
    wellFormed o (front ++ back) = wellFormed o back := by
  induction front with
  | nil => rfl
  | cons c cs ih =>
    obtain ⟨hmay, hopen⟩ := h c List.mem_cons_self
    rw [List.cons_append, wellFormed, hmay, hopen, Bool.true_and]
    exact ih fun x hx => h x (List.mem_cons_of_mem c hx)

/-- Outside of words it plays no role whether a letter came before. -/
theorem wellFormed_of_stops {rest : ByteVec} (h : lexRules.Stops .identifier rest) :
    wellFormed true rest = wellFormed false rest := by
  cases rest with
  | nil => rfl
  | cons c cs =>
    have hc : Cursor.isIdentContinue c = false := h c rfl
    have hnum : ¬ Cursor.isNumber c = true := by
      intro hnum
      rw [isIdentContinue_of_isNumber hnum] at hc
      exact Bool.noConfusion hc
    have hne : c ≠ chr '_' := by
      intro heq
      rw [heq, underscore_spec.1] at hc
      exact Bool.noConfusion hc
    rw [wellFormed, wellFormed, nextOpen, nextOpen, if_neg hnum, if_neg hnum, mayFollow, mayFollow,
      decide_eq_true hne, Bool.true_or, Bool.true_or]

/-- The test passes over a token. -/
private theorem wellFormed_token {k : TokenKind} {text rest : ByteVec}
    (ht : lexRules.IsToken k text) (hstop : lexRules.Stops k rest) :
    wellFormed false (text ++ rest) = wellFormed false rest := by
  obtain ⟨c, cs, rfl, hstart, hcs⟩ := ht
  have hstart : startKind c = some k := hstart
  obtain ⟨hmay, hopen⟩ := (mayFollow_char c).2.2.1 (by rw [hstart]; exact Option.some_ne_none k)
  rw [List.cons_append, wellFormed, hmay, hopen, hstart, Bool.true_and]
  cases k with
  | identifier =>
    rw [decide_eq_true rfl, wellFormed_append_of fun x hx => mayFollow_word x (hcs x hx)]
    exact wellFormed_of_stops hstop
  | number =>
    rw [decide_eq_false (by decide)]
    exact wellFormed_append_of (fun x hx => (mayFollow_char x).2.1 (hcs x hx)) rest
  | _ =>
    -- All other tokens have one character.
    rw [decide_eq_false (by decide)]
    exact wellFormed_append_of (fun x hx => Bool.noConfusion (hcs x hx)) rest

/-- The test passes over white space. -/
private theorem wellFormed_gap {g : ByteVec} (h : lexRules.IsGap g) (xs : ByteVec) :
    wellFormed false (g ++ xs) = wellFormed false xs :=
  wellFormed_append_of (fun c hc => (mayFollow_char c).1 (h c hc)) xs

/-- A scan leaves the test unchanged. -/
theorem wellFormed_of_scans {xs last : ByteVec} {steps : Lexer.ScanSteps}
    (h : Scans lexRules xs steps last) : wellFormed false xs = wellFormed false last := by
  induction h with
  | nil => rfl
  | cons hnext _ ih =>
    obtain ⟨hparts, hgap, htoken, hstop⟩ := next_eq_token.mp hnext
    rw [hparts, wellFormed_gap hgap, wellFormed_token htoken hstop, ih]

/-- The test passes when only white space is left, and fails when the scanner is stuck. -/
private theorem wellFormed_last {last : ByteVec} :
    (lexRules.next last = .done → wellFormed false last = true) ∧
      (lexRules.next last = .stuck → wellFormed false last = false) := by
  constructor
  · intro h
    have hgap := wellFormed_gap (next_eq_done.mp h) []
    rw [List.append_nil] at hgap
    exact hgap
  · intro h
    obtain ⟨g, c, cs, rfl, hgap, hc, hstart⟩ := exists_of_next_eq_stuck h
    rw [wellFormed_gap hgap, wellFormed, (mayFollow_char c).2.2.2 hc hstart, Bool.false_and]

/-! ## Runs of the lexer -/

namespace Lexer

/-- Some calls of `next_token`, one after another, do not abort and return an Eof. -/
def ReachesEof (source : ByteVec) : Prop :=
  ∃ n toks l', Run.calls nextToken n { source } = .ok (toks, l') ∧ ∃ tok ∈ toks, tok.kind = .eof

/-- An Eof is only returned when the rest of a scan is white space. -/
private theorem wellFormed_of_reachesEof {source : ByteVec} (h : ReachesEof source) :
    wellFormed false source = true := by
  obtain ⟨n, toks, l', hrun, tok, htok, heof⟩ := h
  obtain ⟨_, steps, m, rest, _, rfl, hscan, hend⟩ := calls_nextToken hrun
  have hsource : wellFormed false source = wellFormed false rest := wellFormed_of_scans hscan
  have hm : m ≠ 0 := by
    intro hm
    rw [hm, List.replicate_zero, List.append_nil] at htok
    exact ne_eof_of_mem_tokensAt hscan [] htok heof
  rw [hsource]
  cases hend with
  | inl hzero => exact absurd hzero.1 hm
  | inr hgap => exact wellFormed_last.1 (next_eq_done.mpr hgap.1)

/-- The scan of a source that ends with white space is a run that ends with Eof. -/
private theorem calls_of_done {source last : ByteVec} {steps : ScanSteps}
    (hscan : Scans lexRules source steps last) (hdone : lexRules.next last = .done) :
    ∃ toks l', Run.calls nextToken (steps.length + 1) { source } =
        .ok (toks ++ [Token.gen .eof 0 0], l') ∧
      ∀ m, Run.calls nextToken m l' = .ok (List.replicate m (Token.gen .eof 0 0), l') := by
  obtain ⟨l₁, hrun, _, hr₁⟩ := calls_of_scans (l := { source }) hscan
  obtain ⟨l', hcall, _, _, hr'⟩ := nextToken_of_gap (l := l₁) (hr₁ ▸ next_eq_done.mp hdone)
  refine ⟨_, l', Run.calls_add_eq_ok.mpr ⟨l₁, _, _, hrun, ?_, rfl⟩, calls_of_nil hr'⟩
  exact Run.calls_succ_eq_ok.mpr ⟨_, l', [], hcall, rfl, rfl⟩

/-- The scan of a source that gets stuck is a run that aborts. -/
private theorem calls_of_stuck {source last : ByteVec} {steps : ScanSteps}
    (hscan : Scans lexRules source steps last) (hstuck : lexRules.next last = .stuck) :
    ∃ a, Run.calls nextToken (steps.length + 1) { source } = .error a := by
  obtain ⟨l₁, hrun, _, hr₁⟩ := calls_of_scans (l := { source }) hscan
  have hspec := nextToken_spec l₁
  rw [hr₁, hstuck] at hspec
  obtain ⟨a, herr⟩ := hspec
  exact ⟨a, Run.calls_succ_of_error hrun herr⟩

/-- Repeated calls of `next_token` reach Eof exactly on the sources of the language. On these
    they do so within one call more than the source has characters, and every later call returns
    Eof again and leaves the lexer as it is. On all others they abort within as many calls. -/
theorem lexes_iff_inLanguage (source : ByteVec) :
    (ReachesEof source ↔ InLanguage source) ∧
      ((InLanguage source ∧ ∃ n toks l', n ≤ source.length + 1 ∧
          Run.calls nextToken n { source } = .ok (toks ++ [Token.gen .eof 0 0], l') ∧
          ∀ m, Run.calls nextToken m l' = .ok (List.replicate m (Token.gen .eof 0 0), l')) ∨
        (¬ InLanguage source ∧ ∃ n a, n ≤ source.length + 1 ∧
          Run.calls nextToken n { source } = .error a)) := by
  obtain ⟨steps, last, hscan, hlast, hle⟩ := exists_scans (R := lexRules) source
  have hsource : wellFormed false source = wellFormed false last := wellFormed_of_scans hscan
  rw [← wellFormed_iff_inLanguage, hsource]
  cases hlast with
  | inl hdone =>
    have hok := wellFormed_last.1 hdone
    obtain ⟨toks, l', hrun, hlater⟩ := calls_of_done hscan hdone
    have hreach : ReachesEof source := ⟨_, _, l', hrun, Token.gen .eof 0 0, by simp, rfl⟩
    exact ⟨iff_of_true hreach hok, .inl ⟨hok, _, toks, l', by omega, hrun, hlater⟩⟩
  | inr hstuck =>
    have hno : ¬ wellFormed false last = true := by
      rw [wellFormed_last.2 hstuck]
      exact Bool.false_ne_true
    obtain ⟨a, herr⟩ := calls_of_stuck hscan hstuck
    refine ⟨iff_of_false (fun h => hno ?_) hno, .inr ⟨hno, _, a, by omega, herr⟩⟩
    rw [← hsource]
    exact wellFormed_of_reachesEof h

end Lexer

end Fiskas
