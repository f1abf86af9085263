import Fiskas.Spec.StringTable

/-!
# The section table

The rules for reading a section table after an update, the size of its bodies whatever order
they are added up in, and what the constructor leaves: `.shstrtab` is the string table of the
six section names in the order in which `section_names` is iterated, and every header has the
offset of its name in it.

## Key results

- `header_setHeader`, `body_setBody`: reading after an update
- `sizeOfAllSectionBodies_eq`: the size of all bodies
- `create_spec`: what the constructor leaves, whatever the iteration orders
-/

namespace Fiskas

open Slice Elf64

/-- An offset below `2^32` is not changed by the cast to `u32`. -/
theorem toNat_offset {n : Nat} (h : n < 2 ^ 32) :
    ((BitVec.ofNat 64 n).setWidth 32).toNat = n := by
  rw [BitVec.toNat_setWidth, BitVec.toNat_ofNat]
  omega

namespace SectionTable

/-! ## Reading after an update -/

theorem header_setHeader (t : SectionTable) (secTy : SectionType)
    (f : SectionHeader → SectionHeader) (secTy' : SectionType) :
    (t.setHeader secTy f).header secTy' =
      if secTy' = secTy then f (t.header secTy') else t.header secTy' := by
  have hget := UnorderedMap.get_modify t.sections secTy (fun pair => (f pair.1, pair.2))
    (t.complete secTy')
  rw [header, setHeader, hget]
  split <;> rfl

@[simp] theorem body_setHeader (t : SectionTable) (secTy : SectionType)
    (f : SectionHeader → SectionHeader) (secTy' : SectionType) :
    (t.setHeader secTy f).body secTy' = t.body secTy' := by
  have hget := UnorderedMap.get_modify t.sections secTy (fun pair => (f pair.1, pair.2))
    (t.complete secTy')
  rw [body, setHeader, hget]
  split <;> rfl

@[simp] theorem header_setBody (t : SectionTable) (secTy : SectionType) (b : ByteVec)
    (secTy' : SectionType) : (t.setBody secTy b).header secTy' = t.header secTy' := by
  have hget := UnorderedMap.get_modify t.sections secTy (fun pair => (pair.1, b))
    (t.complete secTy')
  rw [header, setBody, hget]
  split <;> rfl

theorem body_setBody (t : SectionTable) (secTy : SectionType) (b : ByteVec)
    (secTy' : SectionType) :
    (t.setBody secTy b).body secTy' = if secTy' = secTy then b else t.body secTy' := by
  have hget := UnorderedMap.get_modify t.sections secTy (fun pair => (pair.1, b))
    (t.complete secTy')
  rw [body, setBody, hget]
  split <;> rfl

/-! ## The size of all bodies -/

/-- The section types in the order of their indices. -/
def order : List SectionType :=
  [.null, .text, .sectionHeaderStrTab, .symTab, .symTabStrTab, .data]

theorem nodup_order : order.Nodup := by decide

theorem mem_order (secTy : SectionType) : secTy ∈ order := by
  cases secTy <;> decide

/-- A table has every section type once. -/
theorem keys_perm (t : SectionTable) : t.sections.keys.Perm order := by
  have hnodup : t.sections.keys.Nodup := t.sections.nodup
  rw [List.perm_ext_iff_of_nodup hnodup nodup_order]
  intro secTy
  exact iff_of_true (t.complete secTy) (mem_order secTy)

/-- Adding up sizes in 64 bits adds up the lengths. -/
private theorem foldl_size (entries : List (SectionType × HeaderSectionPair)) (n : Nat) :
    entries.foldl (fun size entry => size + ByteVec.size entry.2.2) (BitVec.ofNat 64 n) =
      BitVec.ofNat 64 (n + (entries.map fun entry => entry.2.2.length).sum) := by
  induction entries generalizing n with
  | nil => rfl
  | cons e es ih =>
    rw [List.foldl_cons, ByteVec.size, ← BitVec.ofNat_add, ih, List.map_cons, List.sum_cons,
      Nat.add_assoc]

/-- The size of all bodies does not depend on the iteration order. -/
theorem sizeOfAllSectionBodies_eq (t : SectionTable) :
    t.sizeOfAllSectionBodies = BitVec.ofNat 64 (order.map t.body).flatten.length := by
  have hfold := foldl_size t.sections.entries 0
  have hsum := UnorderedMap.sum_entries (keys_perm t) (fun secTy => (t.body secTy).length)
    (fun pair => pair.2.length) (fun secTy _ => rfl)
  rw [sizeOfAllSectionBodies]
  show t.sections.entries.foldl _ (BitVec.ofNat 64 0) = _
  rw [hfold, hsum, Nat.zero_add, List.length_flatten, List.map_map]
  rfl

/-! ## The constructor -/

/-- The entry of a section type in `section_names`. -/
def nameOf (secTy : SectionType) : ByteVec := (sectionNames.lookup secTy).getD []

/-- The loop of the constructor: the names that are still to be added become a string table
    behind the one there is, and the header of each gets the offset of its name. -/
private theorem foldl_names (entries : List (SectionType × ByteVec))
    (hnodup : (entries.map Prod.fst).Nodup) (s : StringTable) (t : SectionTable)
    (hsize : s.out.length + (table (entries.map Prod.snd)).length < 2 ^ 32) :
    ∃ s' t', entries.foldl addSectionName (s, t) = (s', t') ∧
      s'.out = s.out ++ table (entries.map Prod.snd) ∧
      (∀ secTy, t'.body secTy = t.body secTy) ∧
      (∀ secTy, secTy ∉ entries.map Prod.fst → t'.header secTy = t.header secTy) ∧
      ∀ e ∈ entries, ∃ off, t'.header e.1 = { t.header e.1 with shName := off } ∧
        IsAt s'.out off.toNat (terminated e.2) := by
  induction entries generalizing s t with
  | nil =>
    exact ⟨s, t, rfl, (List.append_nil _).symm, fun _ => rfl, fun _ _ => rfl,
      fun e he => absurd he List.not_mem_nil⟩
  | cons e es ih =>
    obtain ⟨secTy, name⟩ := e
    rw [List.map_cons, List.nodup_cons] at hnodup
    rw [List.map_cons, table_cons, List.length_append] at hsize
    dsimp only at hnodup hsize
    have hout := StringTable.out_addString s name
    -- The induction hypothesis starts from the table with this name added.
    have hsize' : (s.addString name).2.out.length + (table (es.map Prod.snd)).length < 2 ^ 32 := by
      rw [hout, List.length_append]
      omega
    obtain ⟨s', t', hfold, hs', hbody, hother, hnames⟩ := ih hnodup.2 (s.addString name).2
      (t.setHeader secTy fun h => { h with shName := (s.addString name).1.setWidth 32 }) hsize'
    rw [hout] at hs'
    refine ⟨s', t', hfold, ?_, ?_, ?_, ?_⟩
    · rw [hs', List.map_cons, table_cons, List.append_assoc]
    · intro secTy'
      rw [hbody, body_setHeader]
    · intro secTy' hne
      rw [List.map_cons, List.mem_cons, not_or] at hne
      rw [hother secTy' hne.2, header_setHeader, if_neg hne.1]
    · intro e he
      cases List.mem_cons.mp he with
      | inl heq =>
        -- The entry just added: no later round touches its header.
        subst heq
        refine ⟨(s.addString name).1.setWidth 32, ?_, ?_⟩
        · rw [hother secTy hnodup.1, header_setHeader, if_pos rfl]
        · rw [StringTable.offset_addString, toNat_offset (by omega), hs', List.append_assoc]
          exact .intro s.out (terminated name) _
      | inr hes =>
        obtain ⟨off, hheader, hat⟩ := hnames e hes
        have hne : e.1 ≠ secTy := fun heq => hnodup.1 (List.mem_map.mpr ⟨e, hes, heq⟩)
        rw [header_setHeader, if_neg hne] at hheader
        exact ⟨off, hheader, hat⟩

/-- Every header and every body starts out empty. -/
theorem get_initial (o : HashOrders) (secTy : SectionType) :
    (initial o).header secTy = {} ∧ (initial o).body secTy = [] := by
  have hmem : (secTy, (({} : SectionHeader), ([] : ByteVec))) ∈ o.sections.entries := by
    rw [o.sections_perm.mem_iff]
    cases secTy <;> decide
  have hget := UnorderedMap.get_eq_of_mem hmem ((initial o).complete secTy)
  exact ⟨congrArg Prod.fst hget, congrArg Prod.snd hget⟩

/-- The names take 39 bytes, in any order. -/
private theorem length_names (o : HashOrders) :
    (table (o.sectionNames.entries.map Prod.snd)).length = 39 := by
  rw [length_table, ((o.sectionNames_perm.map Prod.snd).map fun name => name.length + 1).sum_nat]
  decide

/-- The header that the constructor leaves for a section type, but for the name. -/
def createdHeader : SectionType → SectionHeader
  | .sectionHeaderStrTab => { shType := 3, shSize := 39, shAddralign := 1 }
  | _ => {}

/-- The constructor leaves all bodies empty but that of `.shstrtab`, which has every section
    name where the header of its section says. -/
theorem create_spec (o : HashOrders) :
    (create o).body .sectionHeaderStrTab = table (o.sectionNames.entries.map Prod.snd) ∧
      (∀ secTy, secTy ≠ .sectionHeaderStrTab → (create o).body secTy = []) ∧
      ∀ secTy, ∃ off, (create o).header secTy = { createdHeader secTy with shName := off } ∧
        IsAt ((create o).body .sectionHeaderStrTab) off.toNat (terminated (nameOf secTy)) := by
  have hsize : ({} : StringTable).out.length +
      (table (o.sectionNames.entries.map Prod.snd)).length < 2 ^ 32 := by
    rw [length_names]
    decide
  obtain ⟨s', t', hfold, hs', hbody, _, hnames⟩ :=
    foldl_names o.sectionNames.entries o.sectionNames.nodup {} (initial o) hsize
  replace hs' : s'.out = table (o.sectionNames.entries.map Prod.snd) := hs'
  have hlen : s'.out.length = 39 := by rw [hs', length_names]
  -- The constructor is the loop over the names, followed by two updates of `.shstrtab`.
  have hcreate : create o =
      (t'.setBody .sectionHeaderStrTab s'.out).setHeader .sectionHeaderStrTab fun h =>
        { h with
          shType := SectionHeader.shtStrtab.setWidth 32
          shSize := ByteVec.size s'.out
          shAddralign := 1 } := by
    have hsame : ((t'.setBody .sectionHeaderStrTab s'.out).body .sectionHeaderStrTab) = s'.out := by
      rw [body_setBody, if_pos rfl]
    rw [create, buildShStrtabAndFixAllHdrNameOffsets, hfold]
    dsimp only
    rw [hsame]
  refine ⟨?_, ?_, ?_⟩
  · rw [hcreate, body_setHeader, body_setBody, if_pos rfl, hs']
  · intro secTy hne
    rw [hcreate, body_setHeader, body_setBody, if_neg hne, hbody, (get_initial o secTy).2]
  · intro secTy
    have hmem : (secTy, nameOf secTy) ∈ o.sectionNames.entries := by
      rw [o.sectionNames_perm.mem_iff]
      cases secTy <;> decide
    obtain ⟨off, hheader, hat⟩ := hnames _ hmem
    refine ⟨off, ?_, ?_⟩
    · rw [hcreate, header_setHeader, header_setBody, hheader, (get_initial o secTy).1,
        ByteVec.size, hlen]
      cases secTy <;> rfl
    · rw [hcreate, body_setHeader, body_setBody, if_pos rfl]
      exact hat

/-- The string table of the section names has 39 bytes, whatever the iteration order. -/
theorem length_shstrtab (o : HashOrders) :
    ((create o).body .sectionHeaderStrTab).length = 39 := by
  rw [(create_spec o).1, length_names]

end SectionTable

end Fiskas
