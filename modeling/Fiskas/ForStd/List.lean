import Mathlib.Algebra.Ring.Nat
import Mathlib.Data.List.Forall2

/-!
# List lemmas for the standard library

Generic lemmas about concatenations of chunks of one length, and about lists that are related
element by element.
-/

namespace List

variable {α β : Type}

/-- Two concatenations of chunks of one positive length are equal exactly when the chunks are
    equal one by one. -/
theorem flatMap_eq_flatMap_iff {f : α → List β} {k : Nat} (hk : 0 < k)
    (hlen : ∀ a, (f a).length = k) {l l' : List α} :
    l.flatMap f = l'.flatMap f ↔ Forall₂ (fun a b => f a = f b) l l' := by
  -- A chunk is never empty, so the shorter list has the shorter concatenation.
  have hne : ∀ a, f a ≠ [] := fun a hnil => by
    have := hlen a
    rw [hnil, length_nil] at this
    omega
  induction l generalizing l' with
  | nil =>
    cases l' with
    | nil => simp
    | cons b l' => simp [hne b]
  | cons a l ih =>
    cases l' with
    | nil => simp [hne a]
    | cons b l' =>
      rw [flatMap_cons, flatMap_cons, forall₂_cons]
      constructor
      · intro h
        obtain ⟨hab, hrest⟩ := append_inj h (by rw [hlen, hlen])
        exact ⟨hab, ih.mp hrest⟩
      · rintro ⟨hab, hrest⟩
        rw [hab, ih.mpr hrest]

/-- As many elements as match in front are the ones that match. -/
theorem take_length_takeWhile (p : α → Bool) (l : List α) :
    l.take (l.takeWhile p).length = l.takeWhile p :=
  (prefix_iff_eq_take.mp <| takeWhile_prefix p).symm

/-- Behind the elements that match in front are the others. -/
theorem drop_length_takeWhile (p : α → Bool) (l : List α) :
    l.drop (l.takeWhile p).length = l.dropWhile p := by
  induction l with
  | nil => rfl
  | cons a l ih =>
    by_cases h : p a = true
    · rw [takeWhile_cons_of_pos h, dropWhile_cons_of_pos h]
      exact ih
    · rw [takeWhile_cons_of_neg h, dropWhile_cons_of_neg h]
      rfl

/-- Chunks of the same lengths have concatenations of the same length. -/
theorem length_flatten_map_congr {f g : α → List β} (h : ∀ a, (f a).length = (g a).length)
    (l : List α) : (l.map f).flatten.length = (l.map g).flatten.length := by
  induction l with
  | nil => rfl
  | cons a l ih =>
    rw [map_cons, map_cons, flatten_cons, flatten_cons, length_append, length_append, h, ih]

/-- A list is mapped to another one when its elements are, one by one. -/
theorem mapM_eq_some_of_forall₂ {f : α → Option β} {l : List α} {l' : List β}
    (h : Forall₂ (fun a b => f a = some b) l l') : l.mapM f = some l' := by
  induction h with
  | nil => rfl
  | cons hab _ ih =>
    rw [mapM_cons, hab, ih]
    rfl

/-- Two relations that hold element by element hold together. -/
theorem Forall₂.and {R S : α → β → Prop} {l : List α} {l' : List β} (hR : Forall₂ R l l')
    (hS : Forall₂ S l l') : Forall₂ (fun a b => R a b ∧ S a b) l l' := by
  induction hR with
  | nil => exact .nil
  | cons hab _ ih =>
    cases hS with
    | cons hab' hS' => exact .cons ⟨hab, hab'⟩ (ih hS')

/-- When a test recognises the elements that belong to `b`, it finds one. -/
theorem find?_of_forall₂ {R : α → β → Prop} {p : α → Bool} {l : List α} {l' : List β} {b : β}
    (h : Forall₂ R l l') (hb : b ∈ l') (hp : ∀ a c, R a c → (p a = true ↔ c = b)) :
    ∃ a, l.find? p = some a ∧ R a b := by
  induction h with
  | nil => exact absurd hb not_mem_nil
  | @cons a c l l' hac _ ih =>
    by_cases hc : c = b
    · subst hc
      exact ⟨a, find?_cons_of_pos ((hp a c hac).mpr rfl), hac⟩
    · have hmem : b ∈ l' := (mem_cons.mp hb).resolve_left (Ne.symm hc)
      -- The test fails on `a`, which belongs to another element, so the search goes on.
      have hneg : ¬ p a = true := fun hpa => hc ((hp a c hac).mp hpa)
      obtain ⟨a', hfind, ha'⟩ := ih hmem
      exact ⟨a', by rw [find?_cons_of_neg hneg, hfind], ha'⟩

/-- Tests that agree on related elements find them at the same place. -/
theorem findIdx?_of_forall₂ {R : α → β → Prop} {p : α → Bool} {q : β → Bool} {l : List α}
    {l' : List β} (h : Forall₂ R l l') (hpq : ∀ a b, R a b → p a = q b) :
    l.findIdx? p = l'.findIdx? q := by
  induction h with
  | nil => rfl
  | cons hab _ ih => rw [findIdx?_cons, findIdx?_cons, hpq _ _ hab, ih]

/-- The first element that passes a test is the one at the index that is found. -/
theorem find?_of_findIdx? {p : α → Bool} {l : List α} {i : Nat} {a : α}
    (hi : l.findIdx? p = some i) (ha : l[i]? = some a) : l.find? p = some a := by
  obtain ⟨hlt, hp, hfirst⟩ := findIdx?_eq_some_iff_getElem.mp hi
  obtain ⟨_, rfl⟩ := getElem?_eq_some_iff.mp ha
  exact find?_eq_some_iff_getElem.mpr ⟨hp, i, hlt, rfl, fun j hj => by simpa using hfirst j hj⟩

end List
