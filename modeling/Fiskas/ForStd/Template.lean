import Mathlib.Data.List.Nodup
import Fiskas.ForStd.Patch
import Fiskas.ForStd.Slice

/-!
# Templates

A template is a row of pieces, some of which have a label under which they are filled in later.
`render` puts the contents of the pieces together, and `marks` lists the labels with the
positions at which their pieces stand.

When no label occurs twice, writing over the rendered template at the first mark with a label is
the same as filling the piece with that label (`patchFirst_render`), so a run of such writes
fills the template piece by piece (`patchFirst_run`). Writing at all marks with a label fills all
pieces with it, whether labels occur twice or not (`overwriteAll_run`).
-/

/-- A part of a template: its content, and the label under which that is replaced. -/
structure Piece (L α : Type) where
  label : Option L
  content : List α
deriving DecidableEq, Repr

namespace Piece

variable {L α : Type} [DecidableEq L]

/-- Replace the content of the piece if it has the label. -/
def fill (p : Piece L α) (l : L) (content : List α) : Piece L α :=
  if p.label = some l then { p with content } else p

/-- Fill in one content after the other. -/
def fillAll (p : Piece L α) (fills : List (L × List α)) : Piece L α :=
  fills.foldl (fun p f => p.fill f.1 f.2) p

@[simp] theorem label_fill (p : Piece L α) (l : L) (content : List α) :
    (p.fill l content).label = p.label := by
  rw [fill]
  split <;> rfl

/-- A piece without a label stays as it is. -/
theorem fillAll_none (content : List α) (fills : List (L × List α)) :
    (Piece.mk none content).fillAll fills = ⟨none, content⟩ := by
  induction fills with
  | nil => rfl
  | cons f fills ih =>
    rw [fillAll, List.foldl_cons, fill, if_neg (by simp)]
    exact ih

/-- A piece whose label is not filled in stays as it is. -/
theorem fillAll_of_not_mem {l : L} {fills : List (L × List α)}
    (h : l ∉ fills.map Prod.fst) (old : List α) :
    (Piece.mk (some l) old).fillAll fills = ⟨some l, old⟩ := by
  induction fills with
  | nil => rfl
  | cons f fills ih =>
    rw [List.map_cons, List.mem_cons, not_or] at h
    rw [fillAll, List.foldl_cons, fill, if_neg (by simpa using h.1)]
    exact ih h.2

/-- A piece whose label is filled in once has that content. -/
theorem fillAll_of_mem {l : L} {new : List α} {fills : List (L × List α)}
    (hnodup : (fills.map Prod.fst).Nodup) (h : (l, new) ∈ fills) (old : List α) :
    (Piece.mk (some l) old).fillAll fills = ⟨some l, new⟩ := by
  induction fills with
  | nil => exact absurd h List.not_mem_nil
  | cons f fills ih =>
    rw [List.map_cons, List.nodup_cons] at hnodup
    rw [fillAll, List.foldl_cons, fill]
    cases List.mem_cons.mp h with
    | inl heq =>
      rw [← heq] at hnodup ⊢
      rw [if_pos rfl]
      exact fillAll_of_not_mem hnodup.1 new
    | inr hmem =>
      -- The first fill has another label.
      have hne : l ≠ f.1 := fun heq =>
        hnodup.1 (heq ▸ List.mem_map_of_mem (f := Prod.fst) hmem)
      rw [if_neg (by simpa using hne)]
      exact ih hnodup.2 hmem

/-- A piece with a label has the last content that is filled in under it. -/
theorem fillAll_some (l : L) (old : List α) (fills : List (L × List α)) :
    (Piece.mk (some l) old).fillAll fills =
      ⟨some l, (fills.reverse.find? fun f => f.1 = l).elim old Prod.snd⟩ := by
  induction fills generalizing old with
  | nil => rfl
  | cons f fills ih =>
    rw [fillAll, List.foldl_cons, fill, List.reverse_cons, List.find?_append]
    by_cases hlabel : l = f.1
    · rw [if_pos (congrArg some hlabel)]
      refine (ih f.2).trans ?_
      cases fills.reverse.find? fun f => decide (f.1 = l) <;> simp [hlabel]
    · rw [if_neg (by simpa using hlabel)]
      refine (ih old).trans ?_
      simp [Ne.symm hlabel]

/-- The order in which contents are filled in under different labels plays no role. -/
theorem fillAll_perm {fills fills' : List (L × List α)} (hperm : fills.Perm fills')
    (hnodup : (fills.map Prod.fst).Nodup) (p : Piece L α) :
    p.fillAll fills = p.fillAll fills' := by
  obtain ⟨label, content⟩ := p
  cases label with
  | none => rw [fillAll_none, fillAll_none]
  | some l =>
    have hnodup' : (fills'.map Prod.fst).Nodup := (hperm.map Prod.fst).nodup_iff.mp hnodup
    by_cases hl : l ∈ fills.map Prod.fst
    · obtain ⟨⟨_, new⟩, hnew, rfl⟩ := List.mem_map.mp hl
      rw [fillAll_of_mem hnodup hnew, fillAll_of_mem hnodup' (hperm.mem_iff.mp hnew)]
    · have hl' : l ∉ fills'.map Prod.fst := fun h => hl ((hperm.map Prod.fst).mem_iff.mpr h)
      rw [fillAll_of_not_mem hl, fillAll_of_not_mem hl']

end Piece

namespace Template

open Slice

variable {L α : Type}

/-! ## Contents and marks -/

/-- The contents of the pieces, one behind the other. -/
def render (t : List (Piece L α)) : List α := (t.map Piece.content).flatten

/-- The labels with the positions of their pieces, when the template stands at `start`. -/
def marks (start : Nat) : List (Piece L α) → List (Nat × L)
  | [] => []
  | p :: t => (p.label.map (Prod.mk start)).toList ++ marks (start + p.content.length) t

/-- The labels of a template. -/
def labels (t : List (Piece L α)) : List L := t.filterMap Piece.label

@[simp] theorem render_nil : render ([] : List (Piece L α)) = [] := rfl

@[simp] theorem render_cons (p : Piece L α) (t : List (Piece L α)) :
    render (p :: t) = p.content ++ render t := by
  rw [render, List.map_cons, List.flatten_cons]
  rfl

@[simp] theorem render_append (t u : List (Piece L α)) :
    render (t ++ u) = render t ++ render u := by
  rw [render, List.map_append, List.flatten_append]
  rfl

theorem render_flatten (ts : List (List (Piece L α))) :
    render ts.flatten = (ts.map render).flatten := by
  rw [render, List.map_flatten, List.flatten_flatten, List.map_map]
  rfl

/-- The marks of a template behind another one. -/
theorem marks_append (start : Nat) (t u : List (Piece L α)) :
    marks start (t ++ u) = marks start t ++ marks (start + (render t).length) u := by
  induction t generalizing start with
  | nil => rfl
  | cons p t ih =>
    rw [List.cons_append, marks, marks, ih, render_cons, List.length_append, List.append_assoc,
      Nat.add_assoc]

/-- Moving a template moves its marks. -/
theorem marks_add (k start : Nat) (t : List (Piece L α)) :
    marks (k + start) t = (marks start t).map fun m => (k + m.1, m.2) := by
  induction t generalizing start with
  | nil => rfl
  | cons p t ih =>
    rw [marks, marks, List.map_append, Nat.add_assoc, ih]
    cases p.label <;> rfl

/-- A mark belongs to a piece with its label, whose content stands at its position. -/
theorem exists_of_mem_marks {start : Nat} {t : List (Piece L α)} {m : Nat × L}
    (h : m ∈ marks start t) : ∃ p ∈ t, p.label = some m.2 ∧
      ∃ off, m.1 = start + off ∧ IsAt (render t) off p.content := by
  induction t generalizing start with
  | nil => exact absurd h List.not_mem_nil
  | cons p t ih =>
    cases List.mem_append.mp h with
    | inl hhead =>
      obtain ⟨l, hl, rfl⟩ := Option.map_eq_some_iff.mp (Option.mem_toList.mp hhead)
      refine ⟨p, List.mem_cons_self, hl, 0, rfl, ?_⟩
      rw [render_cons]
      exact (IsAt.refl p.content).append_right (render t)
    | inr htail =>
      obtain ⟨q, hq, hlabel, off, hpos, hat⟩ := ih htail
      refine ⟨q, List.mem_cons_of_mem p hq, hlabel, p.content.length + off, ?_, ?_⟩
      · rw [hpos, Nat.add_assoc]
      · rw [render_cons]
        exact hat.append_left p.content

/-- A mark lies within the template. -/
theorem le_of_mem_marks {start : Nat} {t : List (Piece L α)} {m : Nat × L}
    (h : m ∈ marks start t) : m.1 ≤ start + (render t).length := by
  obtain ⟨p, -, -, off, hpos, hat⟩ := exists_of_mem_marks h
  have := hat.le
  omega

theorem labels_cons (p : Piece L α) (t : List (Piece L α)) :
    labels (p :: t) = p.label.toList ++ labels t := by
  rw [labels, List.filterMap_cons]
  cases p.label <;> rfl

theorem labels_append (t u : List (Piece L α)) : labels (t ++ u) = labels t ++ labels u :=
  List.filterMap_append

theorem mem_labels {t : List (Piece L α)} {l : L} :
    l ∈ labels t ↔ ∃ p ∈ t, p.label = some l := List.mem_filterMap

/-- The marks of a template have its labels. -/
theorem map_snd_marks (start : Nat) (t : List (Piece L α)) :
    (marks start t).map Prod.snd = labels t := by
  induction t generalizing start with
  | nil => rfl
  | cons p t ih =>
    rw [marks, List.map_append, ih, labels_cons]
    cases p.label <;> rfl

variable [DecidableEq L]

/-! ## First labels -/

/-- Every label is kept where it occurs first, unless it was seen before. -/
def firsts (seen : List L) : List (Piece L α) → List (Piece L α)
  | [] => []
  | p :: t => ⟨p.label.filter (· ∉ seen), p.content⟩ :: firsts (seen ++ p.label.toList) t

/-- The contents do not change. -/
@[simp] theorem render_firsts (seen : List L) (t : List (Piece L α)) :
    render (firsts seen t) = render t := by
  induction t generalizing seen with
  | nil => rfl
  | cons p t ih => rw [firsts, render_cons, render_cons, ih]

theorem firsts_append (seen : List L) (t u : List (Piece L α)) :
    firsts seen (t ++ u) = firsts seen t ++ firsts (seen ++ labels t) u := by
  induction t generalizing seen with
  | nil =>
    rw [labels, List.filterMap_nil, List.append_nil]
    rfl
  | cons p t ih =>
    rw [List.cons_append, firsts, firsts, ih, labels_cons, List.append_assoc, List.cons_append]

/-- The labels that are kept are those that occur and were not seen before. -/
theorem mem_labels_firsts {seen : List L} {t : List (Piece L α)} {l : L} :
    l ∈ labels (firsts seen t) ↔ l ∈ labels t ∧ l ∉ seen := by
  induction t generalizing seen with
  | nil => simp [firsts, labels]
  | cons p t ih =>
    rw [firsts, labels_cons, labels_cons, List.mem_append, List.mem_append, ih]
    cases p.label with
    | none => simp
    | some l' =>
      -- The first piece keeps its label unless that was seen before.
      by_cases hl' : l' ∈ seen
      · have hfilter : (some l').filter (fun l => decide (l ∉ seen)) = none := by simp [hl']
        have hne : l ∉ seen → l ≠ l' := fun h heq => h (heq ▸ hl')
        rw [hfilter]
        constructor
        · rintro (h | ⟨h, hnot⟩)
          · cases h
          · exact ⟨.inr h, fun hs => hnot (List.mem_append_left _ hs)⟩
        · rintro ⟨h | h, hs⟩
          · exact absurd (List.mem_singleton.mp h) (hne hs)
          · refine .inr ⟨h, fun hmem => ?_⟩
            exact (List.mem_append.mp hmem).elim hs fun h => hne hs (List.mem_singleton.mp h)
      · have hfilter : (some l').filter (fun l => decide (l ∉ seen)) = some l' := by simp [hl']
        rw [hfilter]
        by_cases heq : l = l'
        · rw [heq]
          have hmem := List.mem_singleton_self l'
          exact iff_of_true (.inl hmem) ⟨.inl hmem, hl'⟩
        · simp [heq]

/-- A template without a label that occurs twice or was seen before keeps its labels. -/
theorem firsts_of_nodup {seen : List L} {t : List (Piece L α)} (h : (seen ++ labels t).Nodup) :
    firsts seen t = t := by
  induction t generalizing seen with
  | nil => rfl
  | cons p t ih =>
    rw [labels_cons, ← List.append_assoc] at h
    rw [firsts, ih h]
    obtain ⟨label, content⟩ := p
    cases label with
    | none => rfl
    | some l =>
      have hl : l ∉ seen := fun hmem =>
        (List.nodup_append.mp (List.nodup_append.mp h).1).2.2 l hmem l (List.mem_singleton_self l)
          rfl
      simp [hl]

/-- No label is kept twice. -/
theorem nodup_labels_firsts (seen : List L) (t : List (Piece L α)) :
    (labels (firsts seen t)).Nodup := by
  induction t generalizing seen with
  | nil => exact List.nodup_nil
  | cons p t ih =>
    have ih := ih (seen ++ p.label.toList)
    rw [firsts, labels_cons]
    cases hlabel : p.label.filter (fun l => decide (l ∉ seen)) with
    | none => exact ih
    | some l =>
      rw [Option.filter_eq_some_iff] at hlabel
      refine List.nodup_cons.mpr ⟨fun hmem => ?_, ih⟩
      exact (mem_labels_firsts.mp hmem).2 (List.mem_append_right seen (by simp [hlabel.1]))

/-! ## Filling -/

theorem labels_fill (t : List (Piece L α)) (l : L) (content : List α) :
    labels (t.map fun p => p.fill l content) = labels t := by
  rw [labels, labels, List.filterMap_map]
  exact List.filterMap_congr fun p _ => p.label_fill l content

/-- A label that does not occur fills nothing. -/
theorem fill_of_not_mem {t : List (Piece L α)} {l : L} (h : l ∉ labels t) (content : List α) :
    t.map (fun p => p.fill l content) = t := by
  have hkeep : ∀ p ∈ t, p.fill l content = id p :=
    fun p hp => if_neg fun hlabel => h (mem_labels.mpr ⟨p, hp, hlabel⟩)
  rw [List.map_congr_left hkeep, List.map_id]

/-- The content has the length of every piece with the label. -/
def SameLength (t : List (Piece L α)) (l : L) (content : List α) : Prop :=
  ∀ p ∈ t, p.label = some l → content.length = p.content.length

/-- Keeping only first labels leaves the lengths as they are. -/
theorem SameLength.firsts {t : List (Piece L α)} {l : L} {content : List α}
    (h : SameLength t l content) (seen : List L) : SameLength (firsts seen t) l content := by
  induction t generalizing seen with
  | nil => exact fun p hp => absurd hp List.not_mem_nil
  | cons q t ih =>
    intro p hp hlabel
    cases List.mem_cons.mp hp with
    | inl heq =>
      rw [heq] at hlabel ⊢
      exact h q List.mem_cons_self (Option.filter_eq_some_iff.mp hlabel).1
    | inr hmem =>
      exact ih (fun p hp => h p (List.mem_cons_of_mem q hp)) _ p hmem hlabel

theorem length_content_fill {t : List (Piece L α)} {l : L} {content : List α}
    (h : SameLength t l content) {p : Piece L α} (hp : p ∈ t) :
    (p.fill l content).content.length = p.content.length := by
  rw [Piece.fill]
  split
  · next hlabel => exact h p hp hlabel
  · rfl

/-- Contents of the same lengths leave the lengths as they are. -/
theorem SameLength.fill {t : List (Piece L α)} {l l' : L} {content content' : List α}
    (h : SameLength t l' content') (hfill : SameLength t l content) :
    SameLength (t.map fun p => p.fill l content) l' content' := by
  intro q hq hlabel
  obtain ⟨p, hp, rfl⟩ := List.mem_map.mp hq
  rw [Piece.label_fill] at hlabel
  rw [length_content_fill hfill hp]
  exact h p hp hlabel

/-- Contents of the same lengths leave the marks where they are. -/
theorem marks_fill {t : List (Piece L α)} {l : L} {content : List α}
    (h : SameLength t l content) (start : Nat) :
    marks start (t.map fun p => p.fill l content) = marks start t := by
  induction t generalizing start with
  | nil => rfl
  | cons p t ih =>
    rw [List.map_cons, marks, marks, Piece.label_fill,
      length_content_fill h List.mem_cons_self,
      ih fun q hq => h q (List.mem_cons_of_mem p hq)]

/-! ## Patching -/

/-- Write over the elements at the first mark with a label. -/
def patchFirst (ms : List (Nat × L)) (xs : List α) (f : L × List α) : Option (List α) := do
  let m ← ms.find? fun m => m.2 = f.1
  Patch.overwrite xs m.1 f.2

/-- Behind `front`, writing at the first mark with a label fills the piece with that label. -/
theorem patchFirst_render (front : List α) {t : List (Piece L α)} {l : L} {content : List α}
    (hnodup : (labels t).Nodup) (hmem : l ∈ labels t) (hlen : SameLength t l content) :
    patchFirst (marks front.length t) (front ++ render t) (l, content) =
      some (front ++ render (t.map fun p => p.fill l content)) := by
  induction t generalizing front with
  | nil => exact absurd hmem List.not_mem_nil
  | cons p t ih =>
    by_cases hlabel : p.label = some l
    · -- The piece is the first one; no later piece has its label.
      have hrest : l ∉ labels t := by
        rw [labels, List.filterMap_cons_some hlabel] at hnodup
        exact (List.nodup_cons.mp hnodup).1
      have hcontent := hlen p List.mem_cons_self hlabel
      have hfind : (marks front.length (p :: t)).find? (fun m => m.2 = l) =
          some (front.length, l) := by
        rw [marks, hlabel]
        exact List.find?_cons_of_pos (by simp)
      rw [patchFirst, hfind, List.map_cons, fill_of_not_mem hrest, Piece.fill, if_pos hlabel,
        render_cons, render_cons]
      exact Patch.overwrite_append front p.content content (render t) hcontent
    · -- The piece has another label or none, so its mark is passed by.
      have hmem' : l ∈ labels t := by
        obtain ⟨q, hq, hql⟩ := mem_labels.mp hmem
        have hqt : q ∈ t := (List.mem_cons.mp hq).resolve_left fun heq => hlabel (heq ▸ hql)
        exact mem_labels.mpr ⟨q, hqt, hql⟩
      have hnodup' : (labels t).Nodup := by
        cases hp : p.label with
        | none => rwa [labels, List.filterMap_cons_none hp] at hnodup
        | some l' =>
          rw [labels, List.filterMap_cons_some hp] at hnodup
          exact (List.nodup_cons.mp hnodup).2
      have hskip : (marks front.length (p :: t)).find? (fun m => m.2 = l) =
          (marks (front ++ p.content).length t).find? (fun m => m.2 = l) := by
        rw [marks, List.length_append]
        cases hp : p.label with
        | none => rfl
        | some l' =>
          have hne : l' ≠ l := fun heq => hlabel (heq ▸ hp)
          exact List.find?_cons_of_neg (by simpa using hne)
      have ih := ih (front ++ p.content) hnodup' hmem'
        fun q hq => hlen q (List.mem_cons_of_mem p hq)
      rw [patchFirst] at ih ⊢
      rw [hskip, List.map_cons, Piece.fill, if_neg hlabel, render_cons, render_cons,
        ← List.append_assoc, ← List.append_assoc]
      exact ih

/-- Writes at the first marks with their labels, one after the other, fill the pieces of a
    template with distinct labels. -/
theorem patchFirst_run {t : List (Piece L α)} {fills : List (L × List α)}
    (hnodup : (labels t).Nodup) (hmem : ∀ f ∈ fills, f.1 ∈ labels t)
    (hlen : ∀ f ∈ fills, SameLength t f.1 f.2) :
    fills.foldlM (patchFirst (marks 0 t)) (render t) =
      some (render (t.map fun p => p.fillAll fills)) := by
  induction fills generalizing t with
  | nil =>
    rw [List.foldlM_nil]
    exact congrArg (fun t => some (render t)) (List.map_id' t).symm
  | cons f fills ih =>
    have hf := hlen f List.mem_cons_self
    have hfirst := patchFirst_render [] hnodup (hmem f List.mem_cons_self) hf
    rw [List.nil_append, List.nil_append, List.length_nil] at hfirst
    rw [List.foldlM_cons, hfirst, ← marks_fill hf 0]
    -- The filled template has the same labels and lengths.
    have ih := ih (t := t.map fun p => p.fill f.1 f.2) (by rwa [labels_fill])
      (fun g hg => by rw [labels_fill]; exact hmem g (List.mem_cons_of_mem f hg))
      fun g hg => (hlen g (List.mem_cons_of_mem f hg)).fill hf
    rw [List.map_map] at ih
    exact ih

/-! ## Patching every mark -/

/-- The patches that write a content at every mark with a label. -/
def patchesOf (ms : List (Nat × L)) (f : L × List α) : List (Patch α) :=
  ms.filterMap fun m => if m.2 = f.1 then some ⟨m.1, f.2⟩ else none

/-- Behind `front`, writing at every mark with a label fills the pieces with that label. -/
theorem overwriteAll_patchesOf (front : List α) {t : List (Piece L α)} {l : L}
    {content : List α} (hlen : SameLength t l content) :
    Patch.overwriteAll (front ++ render t) (patchesOf (marks front.length t) (l, content)) =
      some (front ++ render (t.map fun p => p.fill l content)) := by
  induction t generalizing front with
  | nil => rfl
  | cons p t ih =>
    have hcontent := hlen p List.mem_cons_self
    have hrest (filled : List α) (hfilled : filled.length = p.content.length) :
        Patch.overwriteAll (front ++ (filled ++ render t))
          (patchesOf (marks (front.length + p.content.length) t) (l, content)) =
        some (front ++ (filled ++ render (t.map fun p => p.fill l content))) := by
      have ih := ih (front ++ filled) fun q hq => hlen q (List.mem_cons_of_mem p hq)
      rwa [List.length_append, hfilled, List.append_assoc, List.append_assoc] at ih
    rw [marks, patchesOf, List.filterMap_append, List.map_cons, render_cons, render_cons,
      Piece.fill]
    by_cases hlabel : p.label = some l
    · have hhead : (p.label.map (Prod.mk front.length)).toList.filterMap
          (fun m => if m.2 = l then some (Patch.mk m.1 content) else none) =
          [⟨front.length, content⟩] := by simp [hlabel]
      have hlength := hcontent hlabel
      rw [hhead, if_pos hlabel, Patch.overwriteAll_append, Patch.overwriteAll, List.foldlM_cons,
        Patch.overwrite_append front p.content content (render t) hlength]
      exact hrest content hlength
    · -- The piece has another label or none, so nothing is written there.
      have hhead : (p.label.map (Prod.mk front.length)).toList.filterMap
          (fun m => if m.2 = l then some (Patch.mk m.1 content) else none) = [] := by
        cases hp : p.label with
        | none => rfl
        | some l' =>
          have hne : l' ≠ l := fun heq => hlabel (heq ▸ hp)
          simp [hne]
      rw [hhead, if_neg hlabel, List.nil_append]
      exact hrest p.content rfl

/-- Writes at all marks with their labels, one label after the other, fill the pieces of a
    template. -/
theorem overwriteAll_run {t : List (Piece L α)} {fills : List (L × List α)}
    (hlen : ∀ f ∈ fills, SameLength t f.1 f.2) :
    Patch.overwriteAll (render t) (fills.flatMap (patchesOf (marks 0 t))) =
      some (render (t.map fun p => p.fillAll fills)) := by
  induction fills generalizing t with
  | nil => exact congrArg (fun t => some (render t)) (List.map_id' t).symm
  | cons f fills ih =>
    have hf := hlen f List.mem_cons_self
    have hfirst := overwriteAll_patchesOf [] hf
    rw [List.nil_append, List.nil_append, List.length_nil] at hfirst
    rw [List.flatMap_cons, Patch.overwriteAll_append, hfirst, ← marks_fill hf 0]
    have ih := ih (t := t.map fun p => p.fill f.1 f.2)
      fun g hg => (hlen g (List.mem_cons_of_mem f hg)).fill hf
    rw [List.map_map] at ih
    exact ih

end Template
