import Fiskas.ForStd.Matching
import Fiskas.ForStd.Run
import Fiskas.Spec.SerializerRun

/-!
# The completeness check of the patch loop

`dump_to_file` counts the relocations and the patches that it makes, and reports that not all
relocations were fixed when the two numbers differ. A fix patches every relocation with its label,
and a relocation is patched by every fix with its label, so equal numbers do not mean that every
relocation was patched: those that no fix belongs to are made up for by repeated patches.

## Key results

- `counts_dumpToFile`: the two numbers
- `checkSound_iff`: when the check means that every relocation was patched
- `checkSound_of_nodup`: different labels of the fixes are enough
- `written_of_patched`: what the dumped bytes hold for a patched relocation
-/

namespace Fiskas.MainV3

open Matching

/-! ## Serializers that are filled by operations -/

/-- The serializers that operations lead to. -/
inductive Reachable : Serializer → Prop where
  | fresh : Reachable {}
  | apply {ser : Serializer} (op : Op) : Reachable ser → Reachable (ser.apply op)
  | merge {ser other : Serializer} : Reachable ser → Reachable other → Reachable (ser <<< other)

/-- Runs of operations lead to such serializers. -/
theorem reachable_run (ops : List Op) : Reachable (({} : Serializer).run ops) := by
  suffices h : ∀ ser, Reachable ser → Reachable (ser.run ops) from h {} .fresh
  induction ops with
  | nil => exact fun _ h => h
  | cons op ops ih => exact fun ser h => ih _ (.apply op h)

/-- Recorded fixes have values, and recorded relocations have positions. -/
structure Recorded (ser : Serializer) : Prop where
  values : ∀ info ∈ ser.relocationFixes, info.value.isSome
  offsets : ∀ reloc ∈ ser.relocations, reloc.offset.isSome

/-- An operation records values and positions only. -/
theorem Recorded.apply {ser : Serializer} (h : Recorded ser) (op : Op) :
    Recorded (ser.apply op) := by
  rw [apply_eq_extended]
  constructor
  case values =>
    show ∀ info ∈ ser.relocationFixes ++ _, _
    rw [List.forall_mem_append]
    refine ⟨h.values, fun info hinfo => ?_⟩
    obtain ⟨info', -, rfl⟩ := Option.map_eq_some_iff.mp (Option.mem_toList.mp hinfo)
    rfl
  case offsets =>
    show ∀ reloc ∈ ser.relocations ++ _, _
    rw [List.forall_mem_append]
    exact ⟨h.offsets, isSome_of_mem_relocationsAt _ _⟩

/-- Merging records nothing new. -/
theorem Recorded.merge {ser other : Serializer} (h : Recorded ser) (h' : Recorded other) :
    Recorded (ser <<< other) where
  values := List.forall_mem_append.mpr ⟨h.values, h'.values⟩
  offsets := List.forall_mem_append.mpr ⟨h.offsets, h'.offsets⟩

/-- So every serializer that operations lead to has recorded values and positions. -/
theorem Reachable.recorded {ser : Serializer} (h : Reachable ser) : Recorded ser := by
  induction h with
  | fresh => exact ⟨fun _ h => absurd h List.not_mem_nil, fun _ h => absurd h List.not_mem_nil⟩
  | apply op _ ih => exact ih.apply op
  | merge _ _ ih ih' => exact ih.merge ih'

/-! ## The two numbers -/

/-- The labels of the recorded relocations. -/
def Serializer.relocLabels (ser : Serializer) : List LabelType := ser.relocations.map (·.label)

/-- The labels of the recorded fixes. -/
def Serializer.fixLabels (ser : Serializer) : List LabelType :=
  ser.relocationFixes.map (·.labelToFix)

/-- One round of the inner loop counts a relocation with the label of the fix. -/
theorem fixed_fixOne {info : RelocationFixInfo} {acc acc' : ByteVec × U64} {reloc : Relocation}
    (h : fixOne info acc reloc = .ok acc') :
    acc'.2 = acc.2 + BitVec.ofNat 64 (if reloc.label = info.labelToFix then 1 else 0) := by
  obtain ⟨buffer, fixed⟩ := acc
  rw [fixOne] at h
  by_cases hlabel : reloc.label = info.labelToFix
  · rw [if_neg (not_not_intro hlabel)] at h
    rw [if_pos hlabel]
    split at h
    · cases h
    · split at h
      · cases h
      · obtain ⟨buffer', _, h⟩ := Except.bind_eq_ok.mp h
        cases h
        rfl
  · rw [if_pos hlabel] at h
    cases h
    rw [if_neg hlabel]
    exact (BitVec.add_zero _).symm

/-- The inner loop counts the relocations with the label of the fix. -/
theorem fixed_relocations {info : RelocationFixInfo} {relocs : List Relocation}
    {acc acc' : ByteVec × U64} (h : relocs.foldlM (fixOne info) acc = .ok acc') :
    acc'.2 = acc.2 + BitVec.ofNat 64 ((relocs.map (·.label)).count info.labelToFix) := by
  induction relocs generalizing acc with
  | nil =>
    cases h
    exact (BitVec.add_zero _).symm
  | cons reloc relocs ih =>
    rw [List.foldlM_cons] at h
    obtain ⟨acc₁, hround, hrest⟩ := Except.bind_eq_ok.mp h
    rw [ih hrest, fixed_fixOne hround, BitVec.add_assoc, ← BitVec.ofNat_add, List.map_cons,
      List.count_cons, Nat.add_comm]
    simp only [beq_iff_eq]

/-- The outer loop counts the pairs of a fix and a relocation with the same label. -/
theorem fixed_fixes {relocs : List Relocation} {infos : List RelocationFixInfo}
    {acc acc' : ByteVec × U64}
    (h : infos.foldlM (fun acc info => relocs.foldlM (fixOne info) acc) acc = .ok acc') :
    acc'.2 = acc.2 +
      BitVec.ofNat 64 (matchCount (infos.map (·.labelToFix)) (relocs.map (·.label))) := by
  induction infos generalizing acc with
  | nil =>
    cases h
    exact (BitVec.add_zero _).symm
  | cons info infos ih =>
    rw [List.foldlM_cons] at h
    obtain ⟨acc₁, hround, hrest⟩ := Except.bind_eq_ok.mp h
    rw [ih hrest, fixed_relocations hround, BitVec.add_assoc, ← BitVec.ofNat_add]
    rfl

/-- What `dump_to_file` compares. -/
theorem counts_dumpToFile {ser : Serializer} {d : Dump} (h : ser.dumpToFile = .ok d) :
    d.relocationsFound = BitVec.ofNat 64 ser.relocLabels.length ∧
      d.relocationsFixed = BitVec.ofNat 64 (matchCount ser.fixLabels ser.relocLabels) := by
  rw [Serializer.dumpToFile] at h
  obtain ⟨⟨buffer, fixed⟩, hloop, h⟩ := Except.bind_eq_ok.mp h
  cases h
  have hfixed := (fixed_fixes hloop).trans (BitVec.zero_add _)
  exact ⟨by rw [Serializer.relocLabels, List.length_map], hfixed⟩

/-- The numbers are the same when as many relocations lack a fix as there are repeated patches. -/
theorem counts_agree_iff (ser : Serializer) :
    BitVec.ofNat 64 ser.relocLabels.length =
        BitVec.ofNat 64 (matchCount ser.fixLabels ser.relocLabels) ↔
      unmatched ser.fixLabels ser.relocLabels % 2 ^ 64 =
        surplus ser.fixLabels ser.relocLabels % 2 ^ 64 := by
  have hcount := matchCount_add_unmatched ser.fixLabels ser.relocLabels
  rw [← BitVec.toNat_inj, BitVec.toNat_ofNat, BitVec.toNat_ofNat]
  omega

/-! ## When the check is sound -/

/-- The patch loop has patched the relocation for a fix with its label: its patch is one of those
    that `dump_to_file` makes (`written_of_patched` says what the dumped bytes then hold). -/
def Patched (ser : Serializer) (reloc : Relocation) : Prop :=
  ∃ info ∈ ser.relocationFixes, info.labelToFix = reloc.label ∧
    ∃ p ∈ patchOf info reloc, p ∈ patches ser.relocationFixes ser.relocations

/-- When `dump_to_file` has nothing to report, every recorded relocation was patched. -/
def CheckSound (ser : Serializer) : Prop :=
  ∀ d, ser.dumpToFile = .ok d → d.relocationsFound = d.relocationsFixed →
    ∀ reloc ∈ ser.relocations, Patched ser reloc

/-- `dump_to_file` comes to its check unless a patch lies outside of the buffer. -/
theorem dumpToFile_eq_ok_iff {ser : Serializer} (h : Recorded ser) :
    (∃ d, ser.dumpToFile = .ok d) ↔
      ∀ p ∈ patches ser.relocationFixes ser.relocations, p.Fits ser.buffer.length := by
  have hbytes := bytes_dumpToFile h.values h.offsets
  constructor
  · rintro ⟨d, hd⟩
    by_contra hfits
    rw [Patch.overwriteAll_of_not_fits hfits, hd] at hbytes
    cases hbytes
  · intro hfits
    obtain ⟨ys, hys, _⟩ := Patch.overwriteAll_of_fits hfits
    rw [hys] at hbytes
    cases hd : ser.dumpToFile with
    | ok d => exact ⟨d, rfl⟩
    | error e =>
      rw [hd] at hbytes
      cases hbytes

/-- The dumped bytes hold the patches: at every position stands what the last patch that reaches
    it writes, and the streamed byte where no patch does. -/
theorem bytes_of_dumpToFile {ser : Serializer} {d : Dump} (h : Recorded ser)
    (hd : ser.dumpToFile = .ok d) :
    (∀ p ∈ patches ser.relocationFixes ser.relocations, p.Fits ser.buffer.length) ∧
      d.bytes.length = ser.buffer.length ∧
      ∀ i, d.bytes[i]? =
        (Patch.lastAt (patches ser.relocationFixes ser.relocations) i).or ser.buffer[i]? := by
  have hfits := (dumpToFile_eq_ok_iff h).mp ⟨d, hd⟩
  obtain ⟨ys, hys, hlen, hget⟩ := Patch.overwriteAll_of_fits hfits
  -- The loop makes the patches one after the other, so these are the dumped bytes.
  have hbytes := bytes_dumpToFile h.values h.offsets
  rw [hd, hys] at hbytes
  obtain rfl : d.bytes = ys := Except.ok.inj hbytes
  exact ⟨hfits, hlen, hget⟩

/-- All of the field of a patched relocation was written by patches: where the patch of its fix
    reaches, the dumped bytes hold what the last patch there writes. -/
theorem written_of_patched {ser : Serializer} {d : Dump} {reloc : Relocation} (h : Recorded ser)
    (hd : ser.dumpToFile = .ok d) (hpatched : Patched ser reloc) :
    ∃ info ∈ ser.relocationFixes, info.labelToFix = reloc.label ∧
      ∃ p ∈ patchOf info reloc, ∀ i, (p.at? i).isSome →
        ∃ q ∈ patches ser.relocationFixes ser.relocations, (q.at? i).isSome ∧
          d.bytes[i]? = q.at? i := by
  obtain ⟨info, hinfo, hlabel, p, hp, hmem⟩ := hpatched
  refine ⟨info, hinfo, hlabel, p, hp, fun i hi => ?_⟩
  obtain ⟨-, -, hget⟩ := bytes_of_dumpToFile h hd
  cases hlast : Patch.lastAt (patches ser.relocationFixes ser.relocations) i with
  | none =>
    -- This patch reaches the position, so some patch does.
    rw [Patch.at?_of_lastAt_eq_none hlast p hmem] at hi
    cases hi
  | some b =>
    obtain ⟨q, hq, hat⟩ := Patch.exists_of_lastAt hlast
    refine ⟨q, hq, by rw [hat]; rfl, ?_⟩
    rw [hget, hlast, hat, Option.some_or]

/-- A recorded relocation is patched when some fix has its label. -/
theorem patched_iff {ser : Serializer} {reloc : Relocation} (h : reloc ∈ ser.relocations) :
    Patched ser reloc ↔ reloc.label ∈ ser.fixLabels := by
  rw [Serializer.fixLabels, List.mem_map]
  constructor
  · rintro ⟨info, hinfo, hlabel, _⟩
    exact ⟨info, hinfo, hlabel⟩
  · rintro ⟨info, hinfo, hlabel⟩
    obtain ⟨p, hpatch⟩ : ∃ p, patchOf info reloc = some p := ⟨_, if_pos hlabel.symm⟩
    refine ⟨info, hinfo, hlabel, p, hpatch, ?_⟩
    exact List.mem_flatMap.mpr ⟨info, hinfo, List.mem_filterMap.mpr ⟨reloc, h, hpatch⟩⟩

/-- All recorded relocations are patched when none is unmatched. -/
theorem all_patched_iff (ser : Serializer) :
    (∀ reloc ∈ ser.relocations, Patched ser reloc) ↔
      unmatched ser.fixLabels ser.relocLabels = 0 := by
  rw [unmatched_eq_zero, Serializer.relocLabels, List.forall_mem_map]
  apply forall₂_congr
  intro reloc hreloc
  exact patched_iff hreloc

/-- The check is sound when it is not come to, when every relocation has a fix, or when the
    relocations without one are not as many as the repeated patches. -/
private theorem sound_iff {ser : Serializer} (h : Recorded ser) :
    CheckSound ser ↔
      (∃ p ∈ patches ser.relocationFixes ser.relocations, ¬ p.Fits ser.buffer.length) ∨
        unmatched ser.fixLabels ser.relocLabels = 0 ∨
        unmatched ser.fixLabels ser.relocLabels % 2 ^ 64 ≠
          surplus ser.fixLabels ser.relocLabels % 2 ^ 64 := by
  rw [← all_patched_iff]
  constructor
  · intro hsound
    by_contra hcond
    rw [not_or, not_or, not_not] at hcond
    obtain ⟨hfits, hall, hcounts⟩ := hcond
    obtain ⟨d, hd⟩ := (dumpToFile_eq_ok_iff h).mpr (by simpa using hfits)
    obtain ⟨hfound, hfixed⟩ := counts_dumpToFile hd
    -- Nothing is reported, although some relocation was not patched.
    have hagree := (counts_agree_iff ser).mpr hcounts
    rw [← hfound, ← hfixed] at hagree
    exact hall (hsound d hd hagree)
  · intro hcond d hd hagree
    obtain ⟨hfound, hfixed⟩ := counts_dumpToFile hd
    rw [hfound, hfixed, counts_agree_iff] at hagree
    rcases hcond with ⟨p, hp, hnot⟩ | hall | hne
    · exact absurd ((dumpToFile_eq_ok_iff h).mp ⟨d, hd⟩ p hp) hnot
    · exact hall
    · exact absurd hagree hne

/-- For every serializer that operations lead to, the check of `dump_to_file` means that every
    recorded relocation was patched if and only if a patch lies outside of the buffer, so that the
    check is not come to, or no relocation lacks a fix with its label, or those that do are not as
    many (in 64 bits) as the patches beyond the first one of each relocation. In the first case
    the source writes outside of its buffer, which is undefined: nothing is promised about such a
    run, and it counts as sound here because it gives no answer. `checkSound_iff_of_fits` leaves
    these runs out. -/
theorem checkSound_iff (ser : Serializer) (h : Reachable ser) :
    CheckSound ser ↔
      (∃ p ∈ patches ser.relocationFixes ser.relocations, ¬ p.Fits ser.buffer.length) ∨
        unmatched ser.fixLabels ser.relocLabels = 0 ∨
        unmatched ser.fixLabels ser.relocLabels % 2 ^ 64 ≠
          surplus ser.fixLabels ser.relocLabels % 2 ^ 64 :=
  sound_iff h.recorded

/-- The same for the runs that the source defines, whose patches all lie in the buffer. -/
theorem checkSound_iff_of_fits {ser : Serializer} (h : Reachable ser)
    (hfits : ∀ p ∈ patches ser.relocationFixes ser.relocations, p.Fits ser.buffer.length) :
    CheckSound ser ↔
      unmatched ser.fixLabels ser.relocLabels = 0 ∨
        unmatched ser.fixLabels ser.relocLabels % 2 ^ 64 ≠
          surplus ser.fixLabels ser.relocLabels % 2 ^ 64 := by
  rw [sound_iff h.recorded]
  exact or_iff_right fun ⟨p, hp, hnot⟩ => hnot (hfits p hp)

/-- Fixes with different labels make the check sound. -/
theorem checkSound_of_nodup {ser : Serializer} (h : Reachable ser) (hnodup : ser.fixLabels.Nodup)
    (hsize : ser.relocations.length < 2 ^ 64) : CheckSound ser := by
  rw [sound_iff h.recorded, surplus_of_nodup hnodup]
  right
  have hle := unmatched_le ser.fixLabels ser.relocLabels
  rw [Serializer.relocLabels, List.length_map, ← Serializer.relocLabels] at hle
  omega

/-- Two fields of an ELF header that are fixed later. -/
def twoFields : List Op := [
  .entry16 (.relocation (.withLabel (.ofElfHeader .numSectionHeaders))),
  .entry16 (.relocation (.withLabel (.ofElfHeader .sectionHeaderStrTabIdx)))]

/-- A fix of a field of two bytes. -/
def fixTwoBytes (label : ElfHeaderRelocationLabel) : Op :=
  .fixRelocation { value := some 5, labelToFix := .ofElfHeader label, valueSizeInBytes := 2 }

/-- Both fields are fixed once. -/
theorem checkSound_twoFields :
    CheckSound (({} : Serializer).run (twoFields ++
      [fixTwoBytes .numSectionHeaders, fixTwoBytes .sectionHeaderStrTabIdx])) := by
  apply (checkSound_iff _ (reachable_run _)).mpr
  right
  left
  decide

/-- One field is fixed twice and the other one never, and nothing is reported. -/
theorem not_checkSound_twoFields :
    ¬ CheckSound (({} : Serializer).run (twoFields ++
      [fixTwoBytes .numSectionHeaders, fixTwoBytes .numSectionHeaders])) := by
  intro h
  have hdump : (({} : Serializer).run (twoFields ++
      [fixTwoBytes .numSectionHeaders, fixTwoBytes .numSectionHeaders])).dumpToFile =
      .ok { bytes := [5, 0, 0, 0], relocationsFound := 2, relocationsFixed := 2 } := by decide
  have hall := (all_patched_iff _).mp (h _ hdump rfl)
  exact absurd hall (by decide)

end Fiskas.MainV3
