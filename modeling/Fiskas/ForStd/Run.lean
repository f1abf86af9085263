/-!
# Runs of a fallible stateful step

A C++ method that may abort and that moves the object it is called on is a function
`step : σ → Except ε (α × σ)`. This file develops `calls step n`, which is `n` successive
calls with their results collected, together with the rules every proof about such a run
uses: inversion of one call, and splitting a run in two.
-/

namespace Except

variable {ε α β : Type}

/-- A `do` block returns exactly when its first action and its continuation do. -/
theorem bind_eq_ok {x : Except ε α} {f : α → Except ε β} {b : β} :
    (x >>= f) = .ok b ↔ ∃ a, x = .ok a ∧ f a = .ok b := by
  cases x <;> simp [bind, Except.bind]

/-- `pure` is `ok`, in the spelling that `do` blocks unfold to. -/
theorem pure_eq_ok {a : α} : (pure a : Except ε α) = .ok a := rfl

/-- Continuing after a successful action. -/
theorem ok_bind' {a : α} {f : α → Except ε β} : (Except.ok a >>= f) = f a := rfl

end Except

namespace Fiskas.Run

variable {σ α ε : Type}

/-- The results of `n` successive calls of `step`, and the state they leave. -/
def calls (step : σ → Except ε (α × σ)) : Nat → σ → Except ε (List α × σ)
  | 0, s => .ok ([], s)
  | n + 1, s => do
    let (a, s') ← step s
    let (as, s'') ← calls step n s'
    return (a :: as, s'')

variable {step : σ → Except ε (α × σ)}

@[simp] theorem calls_zero (s : σ) : calls step 0 s = .ok ([], s) := rfl

/-- A run of `n + 1` calls is one call followed by a run of `n` calls. -/
theorem calls_succ_eq_ok {n : Nat} {s s'' : σ} {as : List α} :
    calls step (n + 1) s = .ok (as, s'') ↔
      ∃ a s' as', step s = .ok (a, s') ∧ calls step n s' = .ok (as', s'') ∧ as = a :: as' := by
  simp only [calls, Except.bind_eq_ok, Except.pure_eq_ok, Prod.exists, Except.ok.injEq,
    Prod.mk.injEq]
  constructor
  · rintro ⟨a, s', hstep, as', t, hrest, rfl, rfl⟩
    exact ⟨a, s', as', hstep, hrest, rfl⟩
  · rintro ⟨a, s', as', hstep, hrest, rfl⟩
    exact ⟨a, s', hstep, as', s'', hrest, rfl, rfl⟩

/-- A run ends with the first call that fails. -/
theorem calls_succ_of_error {n : Nat} {s s' : σ} {as : List α} {e : ε}
    (h : calls step n s = .ok (as, s')) (herr : step s' = .error e) :
    calls step (n + 1) s = .error e := by
  induction n generalizing s as with
  | zero =>
    simp only [calls_zero, Except.ok.injEq, Prod.mk.injEq] at h
    rw [calls, h.2, herr]
    rfl
  | succ n ih =>
    obtain ⟨a, t, as', hstep, hrest, _⟩ := calls_succ_eq_ok.mp h
    rw [calls, hstep, Except.ok_bind']
    dsimp only
    rw [ih hrest]
    rfl

/-- A run returns as many results as it makes calls. -/
theorem calls_length {n : Nat} {s s' : σ} {as : List α}
    (h : calls step n s = .ok (as, s')) : as.length = n := by
  induction n generalizing s as with
  | zero => simp only [calls_zero, Except.ok.injEq, Prod.mk.injEq] at h; simp [← h.1]
  | succ n ih =>
    obtain ⟨a, t, as', _, hrest, rfl⟩ := calls_succ_eq_ok.mp h
    rw [List.length_cons, ih hrest]

/-- A run of `m + n` calls splits after its first `m` calls. -/
theorem calls_add_eq_ok {m n : Nat} {s s'' : σ} {as : List α} :
    calls step (m + n) s = .ok (as, s'') ↔
      ∃ s' as₁ as₂, calls step m s = .ok (as₁, s') ∧ calls step n s' = .ok (as₂, s'') ∧
        as = as₁ ++ as₂ := by
  induction m generalizing s as with
  | zero =>
    rw [Nat.zero_add]
    constructor
    · intro h
      exact ⟨s, [], as, rfl, h, rfl⟩
    · rintro ⟨s', as₁, as₂, h₁, h₂, rfl⟩
      simp only [calls_zero, Except.ok.injEq, Prod.mk.injEq] at h₁
      obtain ⟨rfl, rfl⟩ := h₁
      exact h₂
  | succ m ih =>
    rw [Nat.add_right_comm, calls_succ_eq_ok]
    constructor
    · rintro ⟨a, t, as', hstep, hrest, rfl⟩
      obtain ⟨s', as₁, as₂, h₁, h₂, rfl⟩ := ih.mp hrest
      exact ⟨s', a :: as₁, as₂, calls_succ_eq_ok.mpr ⟨a, t, as₁, hstep, h₁, rfl⟩, h₂, rfl⟩
    · rintro ⟨s', as₁, as₂, h₁, h₂, rfl⟩
      obtain ⟨a, t, as', hstep, hrest, rfl⟩ := calls_succ_eq_ok.mp h₁
      exact ⟨a, t, as' ++ as₂, hstep, ih.mpr ⟨s', as', as₂, hrest, h₂, rfl⟩, rfl⟩

end Fiskas.Run
