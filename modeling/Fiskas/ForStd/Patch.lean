import Mathlib.Data.List.Basic

/-!
# Patching a list

A patch writes elements over a list from a position on. It must fit, that is, lie within the
list. A run of patches succeeds exactly when all of them fit, and then every position holds what
the last patch that reaches it has written there, or its old element when none does.

## Key results

- `overwriteAll_of_fits`: what a run of patches leaves
- `overwriteAll_eq_iff`: when two runs of patches leave the same
- `overwrite_append`: a patch that replaces one part of a list
-/

/-- Elements to write, and where the first of them goes. -/
structure Patch (α : Type) where
  pos : Nat
  part : List α
deriving DecidableEq, Repr

namespace Patch

variable {α : Type}

/-! ## One patch -/

/-- Write elements over a list from a position on, one by one. -/
def overwrite : List α → Nat → List α → Option (List α)
  | xs, _, [] => some xs
  | xs, pos, a :: part =>
    if pos < xs.length then overwrite (xs.set pos a) (pos + 1) part else none

/-- The patch lies within a list of length `n`. -/
def Fits (n : Nat) (p : Patch α) : Prop := p.part = [] ∨ p.pos + p.part.length ≤ n

instance [DecidableEq α] (n : Nat) (p : Patch α) : Decidable (p.Fits n) :=
  inferInstanceAs (Decidable (_ ∨ _))

/-- What the patch writes at position `i`. -/
def at? (p : Patch α) (i : Nat) : Option α :=
  if p.pos ≤ i then p.part[i - p.pos]? else none

theorem fits_cons {n pos : Nat} {a : α} {part : List α} :
    Fits n ⟨pos, a :: part⟩ ↔ pos < n ∧ Fits n ⟨pos + 1, part⟩ := by
  unfold Fits
  cases part with
  | nil =>
    simp only [List.length_cons, List.length_nil, reduceCtorEq, false_or, true_or, and_true]
    omega
  | cons b part =>
    simp only [List.length_cons, reduceCtorEq, false_or]
    omega

/-- The first element of a patch is written at its position, the others are a patch of their
    own. -/
theorem at?_cons (pos : Nat) (a : α) (part : List α) (i : Nat) :
    at? ⟨pos, a :: part⟩ i = if i = pos then some a else at? ⟨pos + 1, part⟩ i := by
  simp only [at?]
  by_cases heq : i = pos
  · rw [heq, if_pos (Nat.le_refl pos), if_pos rfl, Nat.sub_self, List.getElem?_cons_zero]
  · rw [if_neg heq]
    by_cases hle : pos + 1 ≤ i
    · have hsucc : i - pos = i - (pos + 1) + 1 := by omega
      rw [if_pos (by omega), if_pos hle, hsucc, List.getElem?_cons_succ]
    · rw [if_neg (by omega), if_neg hle]

/-- A patch that fits keeps the length, and changes what it reaches. -/
theorem overwrite_of_fits {xs : List α} {p : Patch α} (h : p.Fits xs.length) :
    ∃ ys, overwrite xs p.pos p.part = some ys ∧ ys.length = xs.length ∧
      ∀ i, ys[i]? = (p.at? i).or xs[i]? := by
  obtain ⟨pos, part⟩ := p
  induction part generalizing xs pos with
  | nil =>
    refine ⟨xs, rfl, rfl, fun i => ?_⟩
    simp [at?]
  | cons a part ih =>
    obtain ⟨hlt, hrest⟩ := fits_cons.mp h
    have hlen : (xs.set pos a).length = xs.length := List.length_set
    rw [← hlen] at hrest
    obtain ⟨ys, hys, hyslen, hget⟩ := ih (pos + 1) hrest
    refine ⟨ys, ?_, hyslen.trans hlen, fun i => ?_⟩
    · rw [overwrite, if_pos hlt]
      exact hys
    · rw [hget, at?_cons]
      by_cases heq : i = pos
      · -- The rest of the patch lies behind the first element.
        have hnone : at? ⟨pos + 1, part⟩ i = none := if_neg (show ¬ pos + 1 ≤ i by omega)
        rw [hnone, if_pos heq, Option.none_or, Option.some_or, heq,
          List.getElem?_set_self hlt]
      · rw [if_neg heq, List.getElem?_set_ne (Ne.symm heq)]

/-- A patch that does not fit fails. -/
theorem overwrite_of_not_fits {xs : List α} {p : Patch α} (h : ¬ p.Fits xs.length) :
    overwrite xs p.pos p.part = none := by
  obtain ⟨pos, part⟩ := p
  induction part generalizing xs pos with
  | nil => exact absurd (Or.inl rfl) h
  | cons a part ih =>
    rw [overwrite]
    split
    · next hlt =>
      apply ih
      rw [List.length_set]
      exact fun hfits => h (fits_cons.mpr ⟨hlt, hfits⟩)
    · rfl

/-- Patching keeps the length. -/
theorem length_overwrite {xs ys part : List α} {pos : Nat}
    (h : overwrite xs pos part = some ys) : ys.length = xs.length := by
  by_cases hfits : Fits xs.length ⟨pos, part⟩
  · obtain ⟨zs, hzs, hlen, -⟩ := overwrite_of_fits hfits
    rwa [Option.some.inj (hzs.symm.trans h)] at hlen
  · rw [overwrite_of_not_fits hfits] at h
    cases h

/-- A patch as long as a part of the list, at its position, replaces it. -/
theorem overwrite_append (front old new back : List α) (hlen : new.length = old.length) :
    overwrite (front ++ (old ++ back)) front.length new = some (front ++ (new ++ back)) := by
  induction new generalizing front old with
  | nil =>
    rw [List.length_nil, eq_comm, List.length_eq_zero_iff] at hlen
    rw [hlen, overwrite]
  | cons a new ih =>
    obtain ⟨b, old, rfl⟩ := List.exists_cons_of_length_eq_add_one hlen.symm
    rw [List.length_cons, List.length_cons, Nat.add_right_cancel_iff] at hlen
    have hlt : front.length < (front ++ (b :: old ++ back)).length := by
      simp only [List.length_append, List.length_cons]
      omega
    -- Behind the first element the rest of the patch replaces the rest of the part.
    have hset : (front ++ (b :: old ++ back)).set front.length a =
        (front ++ [a]) ++ (old ++ back) := by
      rw [List.set_append_right _ _ (Nat.le_refl _), Nat.sub_self]
      simp
    have hnext : front.length + 1 = (front ++ [a]).length := by simp
    rw [overwrite, if_pos hlt, hset, hnext, ih _ old hlen]
    simp

/-! ## Runs of patches -/

/-- One patch after the other. -/
def overwriteAll (xs : List α) (ps : List (Patch α)) : Option (List α) :=
  ps.foldlM (fun xs p => overwrite xs p.pos p.part) xs

theorem overwriteAll_append (xs : List α) (ps qs : List (Patch α)) :
    overwriteAll xs (ps ++ qs) = overwriteAll xs ps >>= fun ys => overwriteAll ys qs :=
  List.foldlM_append

/-- A loop that makes the patches of some elements. -/
theorem overwriteAll_filterMap {β : Type} (f : β → Option (Patch α)) (bs : List β) (xs : List α) :
    overwriteAll xs (bs.filterMap f) =
      bs.foldlM (fun xs b => (f b).elim (some xs) fun p => overwrite xs p.pos p.part) xs := by
  induction bs generalizing xs with
  | nil => rfl
  | cons b bs ih =>
    rw [List.foldlM_cons]
    cases hb : f b with
    | none =>
      rw [List.filterMap_cons_none hb]
      exact ih xs
    | some p =>
      rw [List.filterMap_cons_some hb, overwriteAll, List.foldlM_cons]
      exact congrArg _ (funext ih)

/-- A loop that makes a row of patches for every element. -/
theorem overwriteAll_flatMap {β : Type} (f : β → List (Patch α)) (bs : List β) (xs : List α) :
    overwriteAll xs (bs.flatMap f) = bs.foldlM (fun xs b => overwriteAll xs (f b)) xs := by
  induction bs generalizing xs with
  | nil => rfl
  | cons b bs ih =>
    rw [List.flatMap_cons, overwriteAll_append, List.foldlM_cons]
    exact congrArg _ (funext ih)

/-- What the last patch that reaches position `i` writes there. -/
def lastAt (ps : List (Patch α)) (i : Nat) : Option α := ps.reverse.findSome? (·.at? i)

theorem lastAt_cons (p : Patch α) (ps : List (Patch α)) (i : Nat) :
    lastAt (p :: ps) i = (lastAt ps i).or (p.at? i) := by
  rw [lastAt, List.reverse_cons, List.findSome?_append]
  simp [lastAt]

theorem lastAt_append (ps qs : List (Patch α)) (i : Nat) :
    lastAt (ps ++ qs) i = (lastAt qs i).or (lastAt ps i) := by
  rw [lastAt, List.reverse_append, List.findSome?_append]
  rfl

theorem exists_of_lastAt {ps : List (Patch α)} {i : Nat} {a : α} (h : lastAt ps i = some a) :
    ∃ p ∈ ps, p.at? i = some a := by
  obtain ⟨p, hp, hat⟩ := List.exists_of_findSome?_eq_some h
  exact ⟨p, List.mem_reverse.mp hp, hat⟩

/-- Patches that do not reach a position write nothing there. -/
theorem lastAt_eq_none {ps : List (Patch α)} {i : Nat} (h : ∀ p ∈ ps, p.at? i = none) :
    lastAt ps i = none :=
  List.findSome?_eq_none_iff.mpr fun p hp => h p (List.mem_reverse.mp hp)

/-- Where nothing is written, no patch reaches. -/
theorem at?_of_lastAt_eq_none {ps : List (Patch α)} {i : Nat} (h : lastAt ps i = none) :
    ∀ p ∈ ps, p.at? i = none :=
  fun p hp => List.findSome?_eq_none_iff.mp h p (List.mem_reverse.mpr hp)

/-- The patch moved by `k` positions. -/
def shift (k : Nat) (p : Patch α) : Patch α := { p with pos := k + p.pos }

theorem at?_shift (k : Nat) (p : Patch α) (i : Nat) : (p.shift k).at? (k + i) = p.at? i := by
  simp only [at?, shift, Nat.add_le_add_iff_left, Nat.add_sub_add_left]

/-- Moving patches moves what they write. -/
theorem lastAt_shift (k : Nat) (ps : List (Patch α)) (i : Nat) :
    lastAt (ps.map (shift k)) (k + i) = lastAt ps i := by
  induction ps with
  | nil => rfl
  | cons p ps ih => rw [List.map_cons, lastAt_cons, lastAt_cons, at?_shift, ih]

/-- Patches that all fit keep the length, and every position holds what the last of them that
    reaches it has written there. -/
theorem overwriteAll_of_fits {xs : List α} {ps : List (Patch α)}
    (h : ∀ p ∈ ps, p.Fits xs.length) :
    ∃ ys, overwriteAll xs ps = some ys ∧ ys.length = xs.length ∧
      ∀ i, ys[i]? = (lastAt ps i).or xs[i]? := by
  induction ps generalizing xs with
  | nil => exact ⟨xs, rfl, rfl, fun i => rfl⟩
  | cons p ps ih =>
    obtain ⟨ys, hys, hyslen, hget⟩ := overwrite_of_fits (h p List.mem_cons_self)
    have hrest : ∀ q ∈ ps, q.Fits ys.length := by
      intro q hq
      rw [hyslen]
      exact h q (List.mem_cons_of_mem p hq)
    obtain ⟨zs, hzs, hzslen, hget'⟩ := ih hrest
    refine ⟨zs, ?_, hzslen.trans hyslen, fun i => ?_⟩
    · rw [overwriteAll, List.foldlM_cons, hys]
      exact hzs
    · rw [hget', hget, lastAt_cons, Option.or_assoc]

/-- One patch that does not fit makes the run fail. -/
theorem overwriteAll_of_not_fits {xs : List α} {ps : List (Patch α)}
    (h : ¬ ∀ p ∈ ps, p.Fits xs.length) : overwriteAll xs ps = none := by
  induction ps generalizing xs with
  | nil => exact absurd (fun p hp => nomatch hp) h
  | cons p ps ih =>
    rw [overwriteAll, List.foldlM_cons]
    by_cases hp : p.Fits xs.length
    · obtain ⟨ys, hys, hyslen, -⟩ := overwrite_of_fits hp
      rw [hys]
      apply ih
      rw [hyslen]
      exact fun hall => h (List.forall_mem_cons.mpr ⟨hp, hall⟩)
    · rw [overwrite_of_not_fits hp]
      rfl

/-- Lists of one length that differ only where a patch reaches are patched to the same list. -/
theorem overwriteAll_congr {xs ys : List α} {ps : List (Patch α)} (hlen : xs.length = ys.length)
    (h : ∀ i, lastAt ps i = none → xs[i]? = ys[i]?) : overwriteAll xs ps = overwriteAll ys ps := by
  by_cases hfits : ∀ p ∈ ps, p.Fits xs.length
  · obtain ⟨xs', hxs, -, hgetx⟩ := overwriteAll_of_fits hfits
    rw [hlen] at hfits
    obtain ⟨ys', hys, -, hgety⟩ := overwriteAll_of_fits hfits
    rw [hxs, hys]
    congr 1
    apply List.ext_getElem?
    intro i
    rw [hgetx, hgety]
    cases hlast : lastAt ps i with
    | none => rw [h i hlast]
    | some a => rfl
  · rw [overwriteAll_of_not_fits hfits]
    rw [hlen] at hfits
    rw [overwriteAll_of_not_fits hfits]

/-- Both or neither of two runs of patches fit and, if they do, the last patches that reach a
    position leave the same element there. -/
def LeaveSame (xs : List α) (ps qs : List (Patch α)) : Prop :=
  ((∀ p ∈ ps, p.Fits xs.length) ↔ ∀ q ∈ qs, q.Fits xs.length) ∧
  ((∀ p ∈ ps, p.Fits xs.length) →
    ∀ i < xs.length, (lastAt ps i).or xs[i]? = (lastAt qs i).or xs[i]?)

theorem LeaveSame.refl (xs : List α) (ps : List (Patch α)) : LeaveSame xs ps ps :=
  ⟨Iff.rfl, fun _ _ _ => rfl⟩

/-- The run of patches alone decides what two runs leave. -/
theorem overwriteAll_eq_iff {xs : List α} {ps qs : List (Patch α)} :
    overwriteAll xs ps = overwriteAll xs qs ↔ LeaveSame xs ps qs := by
  by_cases hps : ∀ p ∈ ps, p.Fits xs.length
  · obtain ⟨ys, hys, hyslen, hget⟩ := overwriteAll_of_fits hps
    by_cases hqs : ∀ q ∈ qs, q.Fits xs.length
    · obtain ⟨zs, hzs, hzslen, hget'⟩ := overwriteAll_of_fits hqs
      rw [hys, hzs, Option.some.injEq]
      constructor
      · rintro rfl
        exact ⟨iff_of_true hps hqs, fun _ i _ => by rw [← hget, hget']⟩
      · rintro ⟨-, hsame⟩
        apply List.ext_getElem?
        intro i
        by_cases hi : i < xs.length
        · rw [hget, hget', hsame hps i hi]
        · rw [List.getElem?_eq_none (by omega), List.getElem?_eq_none (by omega)]
    · rw [hys, overwriteAll_of_not_fits hqs]
      exact iff_of_false (by simp) fun h => hqs (h.1.mp hps)
  · rw [overwriteAll_of_not_fits hps]
    by_cases hqs : ∀ q ∈ qs, q.Fits xs.length
    · obtain ⟨zs, hzs, -⟩ := overwriteAll_of_fits hqs
      rw [hzs]
      exact iff_of_false (by simp) fun h => hps (h.1.mpr hqs)
    · rw [overwriteAll_of_not_fits hqs]
      exact iff_of_true rfl ⟨iff_of_false hps hqs, fun h => absurd h hps⟩

end Patch
