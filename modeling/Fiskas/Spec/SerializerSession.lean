import Fiskas.Spec.SerializerCheck

/-!
# Dumping more than once

`dump_to_file` makes its patches in the buffer of the serializer, and nothing keeps a caller from
streaming on behind it and from dumping again. The patches that were made before are made again by
every later dump, so nothing of the earlier dumps is left in a later file: in a session of
operations and dumps, every dump is what a fresh serializer dumps after the same operations.

## Key results

- `Masked.apply`, `Masked.dumpToFile_eq`: a patched buffer and one without the patches
- `session_eq`: the dumps of a session
-/

namespace Fiskas.MainV3

/-! ## Sessions -/

/-- What is done with a serializer. -/
inductive Step where
  | op (op : Op)
  | dump

/-- One step after the other, and the dumps that are made. -/
def Serializer.session (ser : Serializer) : List Step → Except Stop (List Dump × Serializer)
  | [] => .ok ([], ser)
  | .op op :: steps => (ser.apply op).session steps
  | .dump :: steps => do
    let (dump, ser) ← ser.dumpInPlace
    let (dumps, ser) ← ser.session steps
    return (dump :: dumps, ser)

/-- The dumps of fresh serializers behind the operations so far. -/
def freshDumps (ops : List Op) : List Step → Except Stop (List Dump)
  | [] => .ok []
  | .op op :: steps => freshDumps (ops ++ [op]) steps
  | .dump :: steps => do
    let dump ← (({} : Serializer).run ops).dumpToFile
    let dumps ← freshDumps ops steps
    return dump :: dumps

/-! ## Masked differences -/

/-- Two serializers that differ only in bytes that will be patched. -/
structure Masked (ser ser' : Serializer) : Prop where
  relocations : ser.relocations = ser'.relocations
  relocationFixes : ser.relocationFixes = ser'.relocationFixes
  length : ser.buffer.length = ser'.buffer.length
  bytes : ∀ i, Patch.lastAt (patches ser'.relocationFixes ser'.relocations) i = none →
    ser.buffer[i]? = ser'.buffer[i]?

namespace Masked

theorem refl (ser : Serializer) : Masked ser ser := ⟨rfl, rfl, rfl, fun _ _ => rfl⟩

variable {ser ser' : Serializer}

/-- Further fixes and relocations only add patches. -/
private theorem lastAt_eq_none_of_append {infos infos' : List RelocationFixInfo}
    {relocs relocs' : List Relocation} {i : Nat}
    (h : Patch.lastAt (patches (infos ++ infos') (relocs ++ relocs')) i = none) :
    Patch.lastAt (patches infos relocs) i = none := by
  refine Patch.lastAt_eq_none fun p hp => Patch.at?_of_lastAt_eq_none h p ?_
  obtain ⟨info, hinfo, hp⟩ := List.mem_flatMap.mp hp
  refine List.mem_flatMap.mpr ⟨info, List.mem_append_left _ hinfo, ?_⟩
  rw [List.filterMap_append]
  exact List.mem_append_left _ hp

/-- An operation leaves the differences as they are. -/
theorem apply (h : Masked ser ser') (op : Op) : Masked (ser.apply op) (ser'.apply op) := by
  rw [apply_eq_extended, apply_eq_extended, h.length]
  constructor
  case relocations =>
    show ser.relocations ++ _ = ser'.relocations ++ _
    rw [h.relocations, h.length]
  case relocationFixes =>
    show ser.relocationFixes ++ _ = ser'.relocationFixes ++ _
    rw [h.relocationFixes]
  case length =>
    show (ser.buffer ++ _).length = (ser'.buffer ++ _).length
    rw [List.length_append, List.length_append, h.length]
  case bytes =>
    intro i hi
    show (ser.buffer ++ _)[i]? = (ser'.buffer ++ _)[i]?
    rw [List.getElem?_append, List.getElem?_append, h.length]
    split
    · exact h.bytes i (lastAt_eq_none_of_append hi)
    · rfl

/-- The differences do not show in a dump. -/
theorem dumpToFile_eq (h : Masked ser ser') (hrec : Recorded ser') :
    ser.dumpToFile = ser'.dumpToFile := by
  have hvalues := hrec.values
  have hoffsets := hrec.offsets
  have hbytes : ser.dumpToFile.map Dump.bytes = ser'.dumpToFile.map Dump.bytes := by
    rw [bytes_dumpToFile hvalues hoffsets]
    rw [← h.relocationFixes] at hvalues
    rw [← h.relocations] at hoffsets
    rw [bytes_dumpToFile hvalues hoffsets, h.relocations, h.relocationFixes,
      Patch.overwriteAll_congr h.length h.bytes]
  cases hd : ser.dumpToFile with
  | error stop =>
    rw [hd] at hbytes
    cases hd' : ser'.dumpToFile with
    | error stop' =>
      rw [hd'] at hbytes
      exact congrArg _ (Except.error.inj hbytes)
    | ok d' =>
      rw [hd'] at hbytes
      cases hbytes
  | ok d =>
    rw [hd] at hbytes
    cases hd' : ser'.dumpToFile with
    | error stop' =>
      rw [hd'] at hbytes
      cases hbytes
    | ok d' =>
      rw [hd'] at hbytes
      -- The counts depend on the labels alone.
      obtain ⟨hfound, hfixed⟩ := counts_dumpToFile hd
      obtain ⟨hfound', hfixed'⟩ := counts_dumpToFile hd'
      rw [Serializer.relocLabels, h.relocations] at hfound
      rw [Serializer.fixLabels, Serializer.relocLabels, h.relocations, h.relocationFixes]
        at hfixed
      obtain ⟨bytes, found, fixed⟩ := d
      obtain ⟨bytes', found', fixed'⟩ := d'
      obtain rfl : bytes = bytes' := Except.ok.inj hbytes
      obtain rfl : found = found' := hfound.trans hfound'.symm
      obtain rfl : fixed = fixed' := hfixed.trans hfixed'.symm
      rfl

/-- The patches of a dump are differences that later dumps mask. -/
theorem dumped (h : Masked ser ser') (hrec : Recorded ser') {d : Dump}
    (hd : ser.dumpToFile = .ok d) : Masked { ser with buffer := d.bytes } ser' := by
  have hvalues := hrec.values
  have hoffsets := hrec.offsets
  rw [← h.relocationFixes] at hvalues
  rw [← h.relocations] at hoffsets
  have hrecorded : Recorded ser := ⟨hvalues, hoffsets⟩
  have hfits := (dumpToFile_eq_ok_iff hrecorded).mp ⟨d, hd⟩
  obtain ⟨patched, hpatched, hlength, hget⟩ := Patch.overwriteAll_of_fits hfits
  have hbytes := bytes_dumpToFile hvalues hoffsets
  rw [hd, hpatched] at hbytes
  obtain rfl : d.bytes = patched := Except.ok.inj hbytes
  refine ⟨h.relocations, h.relocationFixes, hlength.trans h.length, fun i hi => ?_⟩
  show d.bytes[i]? = ser'.buffer[i]?
  rw [hget, h.relocations, h.relocationFixes, hi, Option.none_or]
  exact h.bytes i hi

end Masked

/-! ## The dumps of a session -/

/-- From a serializer whose differences are masked on, every dump is that of the serializer
    without them. -/
private theorem session_of_masked {ser : Serializer} {ops : List Op}
    (h : Masked ser (({} : Serializer).run ops)) (steps : List Step) :
    (ser.session steps).map Prod.fst = freshDumps ops steps := by
  induction steps generalizing ser ops with
  | nil => rfl
  | cons step steps ih =>
    cases step with
    | op op =>
      have hrun : ({} : Serializer).run (ops ++ [op]) = (({} : Serializer).run ops).apply op := by
        rw [Serializer.run, List.foldl_append]
        rfl
      have happly := h.apply op
      rw [← hrun] at happly
      exact ih happly
    | dump =>
      have hrec := (reachable_run ops).recorded
      rw [Serializer.session, freshDumps, Serializer.dumpInPlace, ← h.dumpToFile_eq hrec]
      cases hd : ser.dumpToFile with
      | error stop => rfl
      | ok d =>
        have ih := ih (h.dumped hrec hd)
        rw [← ih]
        show Except.map Prod.fst (({ ser with buffer := d.bytes } : Serializer).session steps >>=
          fun r => pure (d :: r.1, r.2)) = _
        cases ({ ser with buffer := d.bytes } : Serializer).session steps <;> rfl

/-- Whatever is streamed, fixed and dumped in whatever order, every dump is what a fresh
    serializer dumps after the operations so far, and the session ends where that fails. -/
theorem session_eq (steps : List Step) :
    (({} : Serializer).session steps).map Prod.fst = freshDumps [] steps :=
  session_of_masked (Masked.refl {}) steps

end Fiskas.MainV3
