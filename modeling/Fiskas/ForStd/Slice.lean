import Mathlib.Data.List.Chain
import Fiskas.ForStd.List

/-!
# Parts of a list

`IsAt xs pos part` says that `part` stands in `xs` at position `pos`, and `slice` cuts parts
out by position and length. The two are one notion (`slice_eq_some`), and parts of parts are
found by adding positions (`IsAt.trans`).

`layout start parts` lists the positions and lengths of parts that stand one behind another
from `start` on. `isChain_layout`, `layout_end` and `slice_layout` say that they tile their
concatenation, and `cut` takes a list of equally long parts apart again.
-/

namespace Slice

variable {α : Type}

/-! ## Parts and slices -/

/-- `part` stands in `xs` at position `pos`. -/
def IsAt (xs : List α) (pos : Nat) (part : List α) : Prop :=
  ∃ front back, xs = front ++ (part ++ back) ∧ front.length = pos

/-- The elements at the positions from `pos` up to `pos + len`, if there are so many. -/
def slice (xs : List α) (pos len : Nat) : Option (List α) :=
  if pos + len ≤ xs.length then some ((xs.drop pos).take len) else none

/-- A slice is the part of its length at its position. -/
theorem slice_eq_some {xs part : List α} {pos len : Nat} :
    slice xs pos len = some part ↔ IsAt xs pos part ∧ part.length = len := by
  unfold slice
  constructor
  · intro h
    split at h
    · next hle =>
      obtain rfl := Option.some.inj h
      -- The slice stands between what is before `pos` and what is behind its end.
      have htake : (xs.take pos).length = pos := by
        rw [List.length_take]
        omega
      refine ⟨⟨xs.take pos, (xs.drop pos).drop len, ?_, htake⟩, ?_⟩
      · rw [List.take_append_drop, List.take_append_drop]
      · rw [List.length_take, List.length_drop]
        omega
    · exact nomatch h
  · rintro ⟨⟨front, back, rfl, rfl⟩, rfl⟩
    rw [if_pos (by simp only [List.length_append]; omega), List.drop_left, List.take_left]

namespace IsAt

theorem intro (front part back : List α) : IsAt (front ++ (part ++ back)) front.length part :=
  ⟨front, back, rfl, rfl⟩

theorem refl (xs : List α) : IsAt xs 0 xs := ⟨[], [], by simp, rfl⟩

theorem slice {xs part : List α} {pos : Nat} (h : IsAt xs pos part) :
    Slice.slice xs pos part.length = some part := slice_eq_some.mpr ⟨h, rfl⟩

theorem le {xs part : List α} {pos : Nat} (h : IsAt xs pos part) :
    pos + part.length ≤ xs.length := by
  obtain ⟨front, back, rfl, rfl⟩ := h
  simp only [List.length_append]
  omega

/-- The elements of a part are elements of the list. -/
theorem getElem? {xs part : List α} {pos i : Nat} (h : IsAt xs pos part) (hi : i < part.length) :
    xs[pos + i]? = part[i]? := by
  obtain ⟨front, back, rfl, rfl⟩ := h
  rw [List.getElem?_append_right (Nat.le_add_right _ _), Nat.add_sub_cancel_left,
    List.getElem?_append_left hi]

/-- The part of a part, at the sum of the positions. -/
theorem trans {xs part sub : List α} {pos off : Nat} (h₁ : IsAt xs pos part)
    (h₂ : IsAt part off sub) : IsAt xs (pos + off) sub := by
  obtain ⟨front, back, rfl, rfl⟩ := h₁
  obtain ⟨front', back', rfl, rfl⟩ := h₂
  exact ⟨front ++ front', back' ++ back, by simp only [List.append_assoc],
    List.length_append⟩

/-- What is put in front moves the parts of a list by its length. -/
theorem append_left {xs part : List α} {pos : Nat} (h : IsAt xs pos part) (ys : List α) :
    IsAt (ys ++ xs) (ys.length + pos) part := by
  obtain ⟨front, back, rfl, rfl⟩ := h
  exact ⟨ys ++ front, back, by simp only [List.append_assoc], List.length_append⟩

/-- What is put behind leaves the parts of a list where they are. -/
theorem append_right {xs part : List α} {pos : Nat} (h : IsAt xs pos part) (ys : List α) :
    IsAt (xs ++ ys) pos part := by
  obtain ⟨front, back, rfl, rfl⟩ := h
  exact ⟨front, back ++ ys, by simp only [List.append_assoc], rfl⟩

end IsAt

/-! ## Consecutive parts -/

/-- The positions and lengths of parts that stand one behind another from `start` on. -/
def layout (start : Nat) : List (List α) → List (Nat × Nat)
  | [] => []
  | part :: parts => (start, part.length) :: layout (start + part.length) parts

/-- Each part starts where the one before it ends. -/
theorem isChain_layout (start : Nat) (parts : List (List α)) :
    (layout start parts).IsChain fun a b => b.1 = a.1 + a.2 := by
  induction parts generalizing start with
  | nil => exact List.isChain_nil
  | cons part parts ih =>
    cases parts with
    | nil => exact List.isChain_singleton _
    | cons next parts => exact List.isChain_cons_cons.mpr ⟨rfl, ih (start + part.length)⟩

/-- The last part ends where the concatenation of the parts ends. -/
theorem layout_end {start : Nat} {parts : List (List α)} {a : Nat × Nat}
    (h : (layout start parts).getLast? = some a) :
    a.1 + a.2 = start + parts.flatten.length := by
  induction parts generalizing start with
  | nil => exact nomatch h
  | cons part parts ih =>
    cases parts with
    | nil =>
      obtain rfl : (start, part.length) = a := by simpa [layout] using h
      simp
    | cons next parts =>
      rw [layout, layout, List.getLast?_cons_cons] at h
      have := ih h
      simp only [List.flatten_cons, List.length_append] at this ⊢
      omega

/-- The concatenation of the parts, behind `front`, holds each of them at its place. -/
theorem isAt_layout (front back : List α) (parts : List (List α)) :
    List.Forall₂ (fun a part => IsAt (front ++ (parts.flatten ++ back)) a.1 part ∧
      part.length = a.2) (layout front.length parts) parts := by
  induction parts generalizing front with
  | nil => exact .nil
  | cons part parts ih =>
    rw [layout, List.flatten_cons, List.append_assoc]
    refine .cons ⟨.intro front part _, rfl⟩ ?_
    -- The later parts stand behind `front ++ part`.
    have ih := ih (front ++ part)
    rwa [List.length_append, List.append_assoc] at ih

/-! ## Equally long parts -/

/-- Take a list apart into parts of length `len`. -/
def cut (xs : List α) (len : Nat) : Option (List (List α)) :=
  (List.range (xs.length / len)).mapM fun i => slice xs (i * len) len

/-- Each part stands in a concatenation behind the parts before it. -/
theorem isAt_flatten {parts : List (List α)} {part : List α} {i : Nat}
    (h : parts[i]? = some part) : IsAt parts.flatten (parts.take i).flatten.length part := by
  obtain ⟨hlt, rfl⟩ := List.getElem?_eq_some_iff.mp h
  refine ⟨(parts.take i).flatten, (parts.drop (i + 1)).flatten, ?_, rfl⟩
  rw [← List.flatten_cons, ← List.flatten_append, List.getElem_cons_drop,
    List.take_append_drop]

/-- The length of a concatenation of equally long parts. -/
theorem length_flatten_of_length {parts : List (List α)} {len : Nat}
    (h : ∀ part ∈ parts, part.length = len) : parts.flatten.length = parts.length * len := by
  rw [List.length_flatten, List.map_congr_left h, List.map_const', List.sum_replicate_nat]

/-- Equally long parts stand at the multiples of their length. -/
theorem isAt_flatten_of_length {parts : List (List α)} {len : Nat}
    (h : ∀ part ∈ parts, part.length = len) {part : List α} {i : Nat}
    (hi : parts[i]? = some part) : IsAt parts.flatten (i * len) part := by
  have hlt : i < parts.length := (List.getElem?_eq_some_iff.mp hi).1
  -- The parts before part `i` take up `i * len`.
  have htake : ∀ part ∈ parts.take i, part.length = len :=
    fun part hp => h part (List.mem_of_mem_take hp)
  have hat := isAt_flatten hi
  rwa [length_flatten_of_length htake, List.length_take, Nat.min_eq_left hlt.le] at hat

/-- Equally long parts are found again in their concatenation. -/
theorem cut_flatten {parts : List (List α)} {len : Nat} (hpos : 0 < len)
    (h : ∀ part ∈ parts, part.length = len) : cut parts.flatten len = some parts := by
  rw [cut, length_flatten_of_length h, Nat.mul_div_cancel _ hpos]
  apply List.mapM_eq_some_of_forall₂
  rw [List.forall₂_iff_get]
  refine ⟨List.length_range, fun i _ hi => ?_⟩
  have hat := isAt_flatten_of_length h (List.getElem?_eq_getElem hi)
  rw [List.get_eq_getElem, List.get_eq_getElem, List.getElem_range]
  exact slice_eq_some.mpr ⟨hat, h _ (List.getElem_mem hi)⟩

end Slice
