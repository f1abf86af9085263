import Fiskas.ForStd.List

/-!
# Lists that agree up to some positions

`AgreeOff P xs ys` says that two lists are equally long and have the same elements at all
positions but those with `P`. It is built up along the structure of the lists: equal parts
agree everywhere (`AgreeOff.refl`), parts of one length agree off all their positions
(`AgreeOff.of_length`), and concatenations of parts agree off the moved positions
(`AgreeOff.append`, `AgreeOff.flatten`).
-/

variable {α : Type}

/-- Two lists of one length that have the same elements off the positions with `P`. -/
structure AgreeOff (P : Nat → Prop) (xs ys : List α) : Prop where
  length : xs.length = ys.length
  getElem? : ∀ i, ¬ P i → xs[i]? = ys[i]?

namespace AgreeOff

variable {P Q : Nat → Prop}

theorem refl (P : Nat → Prop) (xs : List α) : AgreeOff P xs xs := ⟨rfl, fun _ _ => rfl⟩

/-- Lists of one length agree off all their positions. -/
theorem of_length {xs ys : List α} (h : xs.length = ys.length) :
    AgreeOff (· < xs.length) xs ys where
  length := h
  getElem? := by
    intro i hi
    rw [List.getElem?_eq_none (by omega), List.getElem?_eq_none (by omega)]

/-- Behind other parts, the positions of a part are moved by their length. -/
theorem append {xs ys zs ws : List α} {R : Nat → Prop} (h₁ : AgreeOff P xs ys)
    (h₂ : AgreeOff Q zs ws) (hP : ∀ i, i < xs.length → P i → R i)
    (hQ : ∀ i, Q i → R (xs.length + i)) : AgreeOff R (xs ++ zs) (ys ++ ws) where
  length := by rw [List.length_append, List.length_append, h₁.length, h₂.length]
  getElem? := by
    intro i hi
    by_cases hlt : i < xs.length
    · rw [List.getElem?_append_left hlt, List.getElem?_append_left (h₁.length ▸ hlt)]
      exact h₁.getElem? i fun hPi => hi (hP i hlt hPi)
    · -- Position `i` lies in the second part.
      have hmoved : xs.length + (i - xs.length) = i := by omega
      rw [List.getElem?_append_right (by omega),
        List.getElem?_append_right (by rw [← h₁.length]; omega), ← h₁.length]
      exact h₂.getElem? _ fun hQi => hi (hmoved ▸ hQ _ hQi)

/-- Parts of one length `len` that agree off the same positions are put one behind another. -/
theorem flatten {parts parts' : List (List α)} {len : Nat}
    (hlen : ∀ part ∈ parts, part.length = len)
    (h : List.Forall₂ (AgreeOff P) parts parts') :
    AgreeOff (fun i => P (i % len)) parts.flatten parts'.flatten := by
  induction h with
  | nil => exact .refl _ []
  | @cons part part' parts parts' hpart _ ih =>
    have hfirst := hlen part List.mem_cons_self
    have ih := ih fun p hp => hlen p (List.mem_cons_of_mem part hp)
    rw [List.flatten_cons, List.flatten_cons]
    apply hpart.append ih
    · intro i hi hP
      rwa [Nat.mod_eq_of_lt (hfirst ▸ hi)]
    · intro i hP
      rwa [hfirst, Nat.add_mod_left]

end AgreeOff
