import Mathlib.Algebra.BigOperators.Group.List.Basic
import Mathlib.Algebra.Ring.Nat
import Mathlib.Data.List.Count
import Mathlib.Data.List.Nodup

/-!
# Counting matches

Every slot of a list is matched by the keys equal to it. `matches` counts the pairs of a key and a
slot, whichever of the two lists is gone through first (`matchCount_comm`).

As many pairs as slots do not mean that every slot is matched: `matchCount_add_unmatched` says
that the slots without a key are made up for by the slots with several ones.
-/

namespace Matching

variable {κ : Type} [DecidableEq κ]

/-- The number of pairs of a key and a slot that it matches. -/
def matchCount (keys slots : List κ) : Nat := (keys.map fun k => slots.count k).sum

/-- The number of slots that no key matches. -/
def unmatched (keys slots : List κ) : Nat := slots.countP fun s => s ∉ keys

/-- The number of pairs beyond the first one of each slot. -/
def surplus (keys slots : List κ) : Nat := (slots.map fun s => keys.count s - 1).sum

/-- One more slot has one more pair with each key that is equal to it. -/
theorem matchCount_cons_right (keys slots : List κ) (s : κ) :
    matchCount keys (s :: slots) = keys.count s + matchCount keys slots := by
  induction keys with
  | nil => rfl
  | cons k keys ih =>
    rw [matchCount] at ih
    rw [matchCount, matchCount, List.map_cons, List.sum_cons, ih, List.map_cons, List.sum_cons,
      List.count_cons, List.count_cons, matchCount, Bool.beq_comm]
    omega

/-- The pairs can be counted slot by slot. -/
theorem matchCount_comm (keys slots : List κ) : matchCount keys slots = matchCount slots keys := by
  induction keys with
  | nil =>
    rw [matchCount, matchCount]
    simp
  | cons k keys ih =>
    rw [matchCount_cons_right, ← ih]
    rfl

/-- The slots without a key and the pairs are as many as the slots and the repeated pairs. -/
theorem matchCount_add_unmatched (keys slots : List κ) :
    matchCount keys slots + unmatched keys slots = slots.length + surplus keys slots := by
  rw [matchCount_comm]
  induction slots with
  | nil => rfl
  | cons s slots ih =>
    rw [matchCount, unmatched, surplus] at ih ⊢
    rw [List.map_cons, List.sum_cons, List.countP_cons, List.length_cons, List.map_cons,
      List.sum_cons]
    by_cases hs : s ∈ keys
    · have := List.count_pos_iff.mpr hs
      simp only [hs, not_true_eq_false, decide_false, Bool.false_eq_true, ↓reduceIte]
      omega
    · have := List.count_eq_zero.mpr hs
      simp only [hs, not_false_eq_true, decide_true, ↓reduceIte]
      omega

/-- No slot is unmatched when every slot is one of the keys. -/
theorem unmatched_eq_zero {keys slots : List κ} :
    unmatched keys slots = 0 ↔ ∀ s ∈ slots, s ∈ keys := by
  simp [unmatched, List.countP_eq_zero]

theorem unmatched_le (keys slots : List κ) : unmatched keys slots ≤ slots.length :=
  List.countP_le_length

/-- Different keys match no slot twice. -/
theorem surplus_of_nodup {keys : List κ} (h : keys.Nodup) (slots : List κ) :
    surplus keys slots = 0 := by
  rw [surplus]
  apply List.sum_eq_zero
  intro n hn
  obtain ⟨s, _, rfl⟩ := List.mem_map.mp hn
  have := List.nodup_iff_count_le_one.mp h s
  omega

end Matching
