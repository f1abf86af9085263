import Mathlib.Data.List.Chain
import Mathlib.Data.List.TakeWhile

/-!
# Scanning by maximal munch

A scanner that skips gap characters, picks a token class by the first other character and
extends the token as long as its class continues. The alphabet, the classes and the three
character tests are arbitrary.

`next_eq_token` is the rule everything else uses: a step delivers a token exactly when the
text is a gap, a text of that class and a rest that does not continue it. `Scans` strings
steps together, and `scans_of_layout` reads back any text that was laid out with gaps wide
enough to keep neighbouring tokens apart.
-/

namespace Munch

variable {α κ : Type}

/-- The character tests of a scanner. -/
structure Rules (α κ : Type) where
  /-- Characters between tokens. -/
  gap : α → Bool
  /-- The class of the tokens that start with a character. -/
  start : α → Option κ
  /-- Does a character continue a token of a class? -/
  cont : κ → α → Bool
  start_of_gap : ∀ c, gap c = true → start c = none
  cont_of_gap : ∀ k c, gap c = true → cont k c = false

/-- The outcome of one step. -/
inductive Step (α κ : Type) where
  /-- Only gap characters were left. -/
  | done
  /-- The next character starts no token. -/
  | stuck
  | token (k : κ) (gap text rest : List α)

namespace Rules

variable (R : Rules α κ)

/-- A run of gap characters. -/
def IsGap (g : List α) : Prop := ∀ c ∈ g, R.gap c = true

/-- A text of class `k`. -/
def IsToken (k : κ) (text : List α) : Prop :=
  ∃ c cs, text = c :: cs ∧ R.start c = some k ∧ ∀ x ∈ cs, R.cont k x = true

/-- A token of class `k` ends before `rest`. -/
def Stops (k : κ) (rest : List α) : Prop := ∀ c ∈ rest.head?, R.cont k c = false

/-- One step of the scanner. -/
def next (xs : List α) : Step α κ :=
  match xs.dropWhile R.gap with
  | [] => .done
  | c :: cs =>
    match R.start c with
    | none => .stuck
    | some k =>
      .token k (xs.takeWhile R.gap) (c :: cs.takeWhile (R.cont k)) (cs.dropWhile (R.cont k))

variable {R}

theorem next_of_nil {xs : List α} (h : xs.dropWhile R.gap = []) : R.next xs = .done := by
  rw [next, h]

theorem next_of_stuck {xs cs : List α} {c : α} (h : xs.dropWhile R.gap = c :: cs)
    (hstart : R.start c = none) : R.next xs = .stuck := by
  rw [next, h]
  simp only [hstart]

theorem next_of_start {xs cs : List α} {c : α} {k : κ} (h : xs.dropWhile R.gap = c :: cs)
    (hstart : R.start c = some k) :
    R.next xs =
      .token k (xs.takeWhile R.gap) (c :: cs.takeWhile (R.cont k)) (cs.dropWhile (R.cont k)) := by
  rw [next, h]
  simp only [hstart]

theorem isGap_takeWhile (xs : List α) : R.IsGap (xs.takeWhile R.gap) :=
  fun _ hc => List.mem_takeWhile_imp hc

theorem stops_dropWhile (k : κ) (cs : List α) : R.Stops k (cs.dropWhile (R.cont k)) := by
  intro c hc
  have := List.head?_dropWhile_not (R.cont k) cs
  rw [Option.mem_def.mp hc] at this
  exact this

/-- A text that starts a token has no gap in front. -/
private theorem dropWhile_gap {k : κ} {g text : List α} (hg : R.IsGap g)
    (ht : R.IsToken k text) (rest : List α) :
    (g ++ (text ++ rest)).dropWhile R.gap = text ++ rest := by
  obtain ⟨c, cs, rfl, hstart, _⟩ := ht
  -- No gap character starts a token, so the gap ends where the text starts.
  have hc : R.gap c = false := by
    cases h : R.gap c with
    | false => rfl
    | true => rw [R.start_of_gap c h] at hstart; exact nomatch hstart
  rw [List.dropWhile_append_of_pos hg]
  simp [hc]

/-- The class, its text and its rest are found again behind any gap. -/
private theorem next_of_parts {k : κ} {g text rest : List α} (hg : R.IsGap g)
    (ht : R.IsToken k text) (hr : R.Stops k rest) :
    R.next (g ++ (text ++ rest)) = .token k g text rest := by
  have hdrop := dropWhile_gap hg ht rest
  -- What is taken is what is left when the dropped end is cut off.
  have htake : (g ++ (text ++ rest)).takeWhile R.gap = g := by
    have := List.takeWhile_append_dropWhile (p := R.gap) (l := g ++ (text ++ rest))
    rw [hdrop] at this
    exact List.append_cancel_right this
  obtain ⟨c, cs, rfl, hstart, hcont⟩ := ht
  -- The rest does not continue the class, so none of it is taken.
  have hrest : rest.takeWhile (R.cont k) = [] ∧ rest.dropWhile (R.cont k) = rest := by
    cases rest with
    | nil => exact ⟨rfl, rfl⟩
    | cons x xs => simp [hr x rfl]
  have hdrop' : (g ++ (c :: cs ++ rest)).dropWhile R.gap = c :: (cs ++ rest) := hdrop
  rw [next_of_start hdrop' hstart, htake, List.takeWhile_append_of_pos hcont,
    List.dropWhile_append_of_pos hcont, hrest.1, hrest.2, List.append_nil]

/-- A step delivers a token exactly when the text is a gap, a text of the class and a rest that
    does not continue it. -/
theorem next_eq_token {k : κ} {xs g text rest : List α} :
    R.next xs = .token k g text rest ↔
      xs = g ++ (text ++ rest) ∧ R.IsGap g ∧ R.IsToken k text ∧ R.Stops k rest := by
  constructor
  · intro h
    unfold next at h
    split at h
    · exact nomatch h
    · next c cs hdrop =>
      split at h
      · exact nomatch h
      · next k' hstart =>
        simp only [Step.token.injEq] at h
        obtain ⟨rfl, rfl, rfl, rfl⟩ := h
        refine ⟨?_, isGap_takeWhile xs, ⟨c, _, rfl, hstart, fun x hx =>
          List.mem_takeWhile_imp hx⟩, stops_dropWhile _ cs⟩
        rw [List.cons_append, List.takeWhile_append_dropWhile, ← hdrop,
          List.takeWhile_append_dropWhile]
  · rintro ⟨rfl, hg, ht, hr⟩
    exact next_of_parts hg ht hr

/-- A step ends the scan exactly when only a gap is left. -/
theorem next_eq_done {xs : List α} : R.next xs = .done ↔ R.IsGap xs := by
  unfold next
  constructor
  · intro h
    split at h
    · next hdrop => exact List.dropWhile_eq_nil_iff.mp hdrop
    · split at h <;> exact nomatch h
  · intro h
    rw [List.dropWhile_eq_nil_iff.mpr h]

/-- A step is stuck only behind a gap, before a character that starts no token. -/
theorem exists_of_next_eq_stuck {xs : List α} (h : R.next xs = .stuck) :
    ∃ g c cs, xs = g ++ c :: cs ∧ R.IsGap g ∧ R.gap c = false ∧ R.start c = none := by
  unfold next at h
  split at h
  · exact nomatch h
  · next c cs hdrop =>
    split at h
    · next hstart =>
      refine ⟨xs.takeWhile R.gap, c, cs, ?_, isGap_takeWhile xs, ?_, hstart⟩
      · rw [← hdrop, List.takeWhile_append_dropWhile]
      · have := List.head?_dropWhile_not R.gap xs
        rw [hdrop] at this
        exact this
    · exact nomatch h

/-! ## Scans -/

/-- Successive steps from `xs`: the gap, class and text of each token, and the text left. -/
inductive Scans (R : Rules α κ) : List α → List (List α × κ × List α) → List α → Prop where
  | nil (xs : List α) : Scans R xs [] xs
  | cons {xs g text rest last : List α} {k : κ} {steps : List (List α × κ × List α)}
      (hnext : R.next xs = .token k g text rest) (hrest : Scans R rest steps last) :
      Scans R xs ((g, k, text) :: steps) last

/-- The text that a list of steps covers. -/
def covered (steps : List (List α × κ × List α)) : List α :=
  steps.flatMap fun s => s.1 ++ s.2.2

/-- A scan covers the whole text before what it leaves. -/
theorem Scans.eq_append {xs last : List α} {steps : List (List α × κ × List α)}
    (h : Scans R xs steps last) : xs = covered steps ++ last := by
  induction h with
  | nil xs => rfl
  | cons hnext _ ih =>
    rw [(next_eq_token.mp hnext).1, ih]
    simp [covered, List.append_assoc]

/-- A step takes at least one character. -/
theorem length_lt_of_next {k : κ} {xs g text rest : List α}
    (h : R.next xs = .token k g text rest) : rest.length < xs.length := by
  obtain ⟨rfl, _, ⟨c, cs, rfl, _, _⟩, _⟩ := next_eq_token.mp h
  simp only [List.length_append, List.length_cons]
  omega

/-- Every text is scanned until only a gap is left or no token starts, in at most as many steps
    as it has characters. -/
theorem exists_scans (xs : List α) :
    ∃ steps last, Scans R xs steps last ∧ (R.next last = .done ∨ R.next last = .stuck) ∧
      steps.length ≤ xs.length := by
  -- Induction on the length of the text, which every step makes shorter.
  induction hn : xs.length using Nat.strong_induction_on generalizing xs with
  | _ n ih =>
    cases hnext : R.next xs with
    | done => exact ⟨[], xs, .nil xs, .inl hnext, Nat.zero_le _⟩
    | stuck => exact ⟨[], xs, .nil xs, .inr hnext, Nat.zero_le _⟩
    | token k g text rest =>
      have hlt := length_lt_of_next hnext
      obtain ⟨steps, last, hscan, hlast, hle⟩ := ih rest.length (hn ▸ hlt) rest rfl
      refine ⟨(g, k, text) :: steps, last, .cons hnext hscan, hlast, ?_⟩
      rw [List.length_cons]
      omega

/-- A gap stops every class. -/
theorem stops_of_gap {g : List α} (hg : R.IsGap g) (hne : g ≠ []) (k : κ) (rest : List α) :
    R.Stops k (g ++ rest) := by
  intro c hc
  cases g with
  | nil => exact absurd rfl hne
  | cons x xs =>
    obtain rfl : x = c := by simpa using hc
    exact R.cont_of_gap k x (hg x List.mem_cons_self)

/-- A laid out list of tokens: every text is of its class, every gap is a gap, and two tokens
    without a gap between them do not run into each other. -/
def IsLayout (R : Rules α κ) (steps : List (List α × κ × List α)) : Prop :=
  (∀ s ∈ steps, R.IsGap s.1 ∧ R.IsToken s.2.1 s.2.2) ∧
  steps.IsChain fun a b => b.1 = [] → R.Stops a.2.1 b.2.2

/-- Scanning a layout with a gap at its end gives back its tokens, each with its gap. -/
theorem scans_of_layout {steps : List (List α × κ × List α)} {last : List α}
    (h : R.IsLayout steps) (hlast : R.IsGap last) : Scans R (covered steps ++ last) steps last := by
  induction steps with
  | nil => exact .nil last
  | cons s steps ih =>
    obtain ⟨g, k, text⟩ := s
    obtain ⟨hall, hchain⟩ := h
    obtain ⟨hg, ht⟩ := hall _ List.mem_cons_self
    have ih := ih ⟨fun s hs => hall s (List.mem_cons_of_mem _ hs), hchain.tail⟩
    -- The text of the layout, cut behind its first token.
    have heq : covered ((g, k, text) :: steps) ++ last =
        g ++ (text ++ (covered steps ++ last)) := by simp [covered]
    refine .cons (next_eq_token.mpr ⟨heq, hg, ht, ?_⟩) ih
    -- What follows the first token: the gap at the end, or the next token with its gap.
    cases steps with
    | nil =>
      intro c hc
      exact R.cont_of_gap k c (hlast c (List.mem_of_mem_head? hc))
    | cons b steps =>
      obtain ⟨hgb, htb⟩ := hall b (by simp)
      obtain ⟨c, cs, htext, _, _⟩ := htb
      have hstop := (List.isChain_cons_cons.mp hchain).1
      -- Without a gap the layout itself says that the token stops; with one the gap stops it.
      by_cases hnil : b.1 = []
      · have := hstop hnil
        simpa [covered, hnil, htext, Stops] using this
      · have := stops_of_gap hgb hnil k (b.2.2 ++ (covered steps ++ last))
        simpa [covered] using this

end Rules

end Munch
