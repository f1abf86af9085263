import Fiskas.ForStd.List
import Fiskas.Spec.MovDecode

/-!
# Programs with the same bytes

Two accepted moves have the same bytes exactly when they are aliases: the encoder writes SPL,
BPL, SIL and DIL like R12B, R13B, R14B and R15B, and writes a store of a segment register into
another segment register like the store into the 32-bit register with that index. Since every
move takes three bytes, programs have the same bytes exactly when they are aliases position
by position.

## Key results

- `bytes_eq_iff_alias`: moves with the same bytes
- `program_bytes_eq_iff`: programs with the same bytes
- `program_determined_iff`: the programs that no other program has the bytes of
-/

namespace Fiskas

namespace RegName

/-- The 8-bit register that is encoded like the given one and has the larger number. -/
def byteAlias : RegName → RegName
  | spl => r12b | bpl => r13b | sil => r14b | dil => r15b | regName => regName

/-- The 32-bit register that is encoded, as a destination, like the given segment register. -/
def segAlias : RegName → RegName
  | es => eax | cs => ecx | ss => edx | ds => ebx | fs => esp | gs => ebp | regName => regName

/-- The width, the extension bit and the code leave `byteAlias` of a register. -/
theorem byteAlias_eq_iff (a b : RegName) :
    byteAlias a = byteAlias b ↔
      bitWidthOfRegName a = bitWidthOfRegName b ∧
        requiresRexExtension a = requiresRexExtension b ∧ code a = code b := by
  revert a b
  decide +kernel

/-- Knowing of the width only whether it is 64 bits leaves `segAlias` of a wider register. -/
theorem segAlias_eq_iff {a b : RegName} (ha : bitWidthOfRegName a ≠ .b8)
    (hb : bitWidthOfRegName b ≠ .b8) :
    segAlias a = segAlias b ↔
      decide (bitWidthOfRegName a = .b64) = decide (bitWidthOfRegName b = .b64) ∧
        requiresRexExtension a = requiresRexExtension b ∧ code a = code b := by
  revert a b
  decide +kernel

/-- The 8-bit registers that share their encoding with another one. -/
def aliasedBytes : List RegName := [spl, bpl, sil, dil, r12b, r13b, r14b, r15b]

/-- The destinations that share their encoding with another one when a segment register is
    stored to them. -/
def aliasedSegs : List RegName := [es, cs, ss, ds, fs, gs, eax, ecx, edx, ebx, esp, ebp]

/-- A function that only moves the elements of a list, and moves them within it, tells every other
    element apart. -/
private theorem eq_of_moved {f : RegName → RegName} {moved : List RegName}
    (hf : ∀ r, f r = r ∨ (r ∈ moved ∧ f r ∈ moved)) {a b : RegName} (h : f a = f b)
    (ha : a ∉ moved) : a = b := by
  have hfa : f a = a := (hf a).resolve_right fun hmoved => ha hmoved.1
  cases hf b with
  | inl hfb => rw [← hfa, h, hfb]
  | inr hmoved =>
    rw [← h, hfa] at hmoved
    exact absurd hmoved.2 ha

/-- Of the names that share a byte code, only the aliased ones are different names. -/
theorem eq_of_byteAlias {a b : RegName} (h : byteAlias a = byteAlias b)
    (ha : a ∉ aliasedBytes) : a = b := by
  have hmoved : ∀ r, byteAlias r = r ∨ (r ∈ aliasedBytes ∧ byteAlias r ∈ aliasedBytes) := by
    decide +kernel
  exact eq_of_moved hmoved h ha

/-- Of the names that share a code next to a segment register, only the aliased ones are different
    names. -/
theorem eq_of_segAlias {a b : RegName} (h : segAlias a = segAlias b)
    (ha : a ∉ aliasedSegs) : a = b := by
  have hmoved : ∀ r, segAlias r = r ∨ (r ∈ aliasedSegs ∧ segAlias r ∈ aliasedSegs) := by
    decide +kernel
  exact eq_of_moved hmoved h ha

end RegName

namespace ValidMov

/-! ## Moves with the same bytes -/

/-- The operands of a move, with one register picked from those that share an encoding. -/
def canonical (m : ValidMov) : RegName × RegName :=
  (if isSegmentRegister m.src then m.dst.segAlias else m.dst.byteAlias, m.src.byteAlias)

/-- The two moves differ at most in registers that share an encoding. -/
def Alias (m m' : ValidMov) : Prop := m.canonical = m'.canonical

instance (m m' : ValidMov) : Decidable (m.Alias m') :=
  inferInstanceAs (Decidable (m.canonical = m'.canonical))

/-- The REX byte, zero when no bit is set, determines its three bits. -/
private theorem rexByte_eq_iff (w r b w' r' b' : Bool) :
    (if w || r || b then X86.rexByte ⟨w, r, false, b⟩ else (0 : U8)) =
        (if w' || r' || b' then X86.rexByte ⟨w', r', false, b'⟩ else 0) ↔
      w = w' ∧ r = r' ∧ b = b' := by
  decide +revert

/-- The fields that the three bytes hold. -/
theorem bytes_eq_iff_fields (m m' : ValidMov) :
    m.bytes = m'.bytes ↔
      (m.instr.wide = m'.instr.wide ∧ requiresRexExtension m.src = requiresRexExtension m'.src ∧
        requiresRexExtension m.dst = requiresRexExtension m'.dst) ∧
      m.instr.opcode = m'.instr.opcode ∧ m.src.code = m'.src.code ∧ m.dst.code = m'.dst.code := by
  -- The ModRM byte determines both codes.
  have hmodrm : X86.modrmByte m.src.code m.dst.code = X86.modrmByte m'.src.code m'.dst.code ↔
      m.src.code = m'.src.code ∧ m.dst.code = m'.dst.code := by
    constructor
    · intro h
      have hreg := congrArg (BitVec.extractLsb' 3 3) h
      have hrm := congrArg (BitVec.extractLsb' 0 3) h
      rw [X86.modrmByte_reg, X86.modrmByte_reg] at hreg
      rw [X86.modrmByte_rm, X86.modrmByte_rm] at hrm
      exact ⟨hreg, hrm⟩
    · rintro ⟨hreg, hrm⟩
      rw [hreg, hrm]
  simp only [bytes, List.cons.injEq, and_true, hmodrm, MovRegToReg.rexPrefix_eq]
  rw [hasRex_eq, hasRex_eq, rexBits_eq, rexBits_eq, rexByte_eq_iff]

/-- The width of a move between general registers, read off its bytes. -/
private theorem src_width_of_gpr {m : ValidMov} (hd : isSegmentRegister m.dst = false)
    (hs : isSegmentRegister m.src = false) :
    bitWidthOfRegName m.src =
      if m.instr.opcode = 0x88 then .b8 else if m.instr.wide then .b64 else .b32 := by
  rw [opcode_of_gpr hd hs, wide_eq, width_eq_of_gpr hd hs]
  cases h : bitWidthOfRegName m.src with
  | b16 => exact absurd h ((RegName.isSegmentRegister_eq_false_iff _).mp hs)
  | b8 | b32 | b64 => rfl

/-- Which operands are segment registers, read off the opcode. -/
private theorem class_of_opcode (m : ValidMov) :
    (isSegmentRegister m.src = true ↔ m.instr.opcode = 0x8c) ∧
      (isSegmentRegister m.src = false →
        (isSegmentRegister m.dst = true ↔ m.instr.opcode = 0x8e)) := by
  cases hs : isSegmentRegister m.src with
  | true => simp [opcode_of_from_seg hs]
  | false =>
    cases hd : isSegmentRegister m.dst with
    | true => rw [opcode_of_to_seg hd hs]; decide
    | false => rw [opcode_of_gpr hd hs]; split <;> decide

/-- Nothing 8 bits wide is stored from a segment register. -/
private theorem dst_width_ne_b8 {m : ValidMov} (hs : isSegmentRegister m.src = true) :
    bitWidthOfRegName m.dst ≠ .b8 := by
  cases hd : isSegmentRegister m.dst with
  | true => rw [(RegName.isSegmentRegister_iff _).mp hd]; decide
  | false => rcases dst_width_of_from_seg hd hs with h | h <;> rw [h] <;> decide

private theorem wide_of_from_seg {m : ValidMov} (hs : isSegmentRegister m.src = true) :
    m.instr.wide = decide (bitWidthOfRegName m.dst = .b64) := by
  rw [wide_eq, (RegName.isSegmentRegister_iff _).mp hs]
  simp

/-- Stores of a segment register with the same bytes. -/
private theorem alias_of_from_seg {m m' : ValidMov} (hs : isSegmentRegister m.src = true)
    (hs' : isSegmentRegister m'.src = true) : m.bytes = m'.bytes ↔ m.Alias m' := by
  -- Both sources are 16 bits wide, and nothing else depends on their width.
  have hw : bitWidthOfRegName m.src = bitWidthOfRegName m'.src := by
    rw [(RegName.isSegmentRegister_iff _).mp hs, (RegName.isSegmentRegister_iff _).mp hs']
  simp only [Alias, canonical, hs, hs', ↓reduceIte, Prod.mk.injEq, RegName.byteAlias_eq_iff, hw,
    RegName.segAlias_eq_iff (dst_width_ne_b8 hs) (dst_width_ne_b8 hs'), bytes_eq_iff_fields,
    opcode_of_from_seg hs, opcode_of_from_seg hs', wide_of_from_seg hs, wide_of_from_seg hs',
    true_and]
  constructor
  · rintro ⟨⟨h64, hrs, hrd⟩, hcs, hcd⟩
    exact ⟨⟨h64, hrd, hcd⟩, hrs, hcs⟩
  · rintro ⟨⟨h64, hrd, hcd⟩, hrs, hcs⟩
    exact ⟨⟨h64, hrs, hrd⟩, hcs, hcd⟩

/-- Moves from a general register with the same bytes have operands of the same widths. -/
private theorem widths_of_bytes_eq {m m' : ValidMov} (hs : isSegmentRegister m.src = false)
    (hs' : isSegmentRegister m'.src = false) (hwide : m.instr.wide = m'.instr.wide)
    (hop : m.instr.opcode = m'.instr.opcode) :
    bitWidthOfRegName m.dst = bitWidthOfRegName m'.dst ∧
      bitWidthOfRegName m.src = bitWidthOfRegName m'.src := by
  -- The opcode says whether the destination is a segment register, and its width or the
  -- REX.W bit does the rest.
  have hclass : isSegmentRegister m.dst = isSegmentRegister m'.dst := by
    rw [Bool.eq_iff_iff, (class_of_opcode m).2 hs, (class_of_opcode m').2 hs', hop]
  cases hd : isSegmentRegister m.dst with
  | true =>
    have hd' := hclass.symm.trans hd
    rw [(RegName.isSegmentRegister_iff _).mp hd, (RegName.isSegmentRegister_iff _).mp hd',
      src_width_of_to_seg hd hs, src_width_of_to_seg hd' hs']
    exact ⟨rfl, rfl⟩
  | false =>
    have hd' := hclass.symm.trans hd
    have hw : bitWidthOfRegName m.src = bitWidthOfRegName m'.src := by
      rw [src_width_of_gpr hd hs, src_width_of_gpr hd' hs', hop, hwide]
    rw [width_eq_of_gpr hd hs, width_eq_of_gpr hd' hs']
    exact ⟨hw, hw⟩

/-- The opcode of a move from a general register follows from the widths. -/
private theorem opcode_of_widths {m m' : ValidMov} (hs : isSegmentRegister m.src = false)
    (hs' : isSegmentRegister m'.src = false)
    (hwd : bitWidthOfRegName m.dst = bitWidthOfRegName m'.dst)
    (hws : bitWidthOfRegName m.src = bitWidthOfRegName m'.src) :
    m.instr.opcode = m'.instr.opcode := by
  have hclass : isSegmentRegister m.dst = isSegmentRegister m'.dst := by
    rw [Bool.eq_iff_iff, RegName.isSegmentRegister_iff, RegName.isSegmentRegister_iff, hwd]
  cases hd : isSegmentRegister m.dst with
  | true => rw [opcode_of_to_seg hd hs, opcode_of_to_seg (hclass.symm.trans hd) hs']
  | false => rw [opcode_of_gpr hd hs, opcode_of_gpr (hclass.symm.trans hd) hs', hws]

/-- Moves from a general register with the same bytes. -/
private theorem alias_of_from_gpr {m m' : ValidMov} (hs : isSegmentRegister m.src = false)
    (hs' : isSegmentRegister m'.src = false) : m.bytes = m'.bytes ↔ m.Alias m' := by
  simp only [Alias, canonical, hs, hs', Bool.false_eq_true, ↓reduceIte, Prod.mk.injEq,
    RegName.byteAlias_eq_iff, bytes_eq_iff_fields]
  constructor
  · rintro ⟨⟨hwide, hrs, hrd⟩, hop, hcs, hcd⟩
    obtain ⟨hwd, hws⟩ := widths_of_bytes_eq hs hs' hwide hop
    exact ⟨⟨hwd, hrd, hcd⟩, hws, hrs, hcs⟩
  · rintro ⟨⟨hwd, hrd, hcd⟩, hws, hrs, hcs⟩
    refine ⟨⟨?_, hrs, hrd⟩, opcode_of_widths hs hs' hwd hws, hcs, hcd⟩
    rw [wide_eq, wide_eq, hwd, hws]

/-- A move from a general register and one from a segment register differ in their bytes, by
    the opcode, and are no aliases, by the width of the source. -/
private theorem bytes_ne_of_source_class {m m' : ValidMov} (hs : isSegmentRegister m.src = false)
    (hs' : isSegmentRegister m'.src = true) : m.bytes ≠ m'.bytes ∧ ¬ m.Alias m' := by
  constructor
  · intro h
    have hop := ((bytes_eq_iff_fields m m').mp h).2.1
    rw [opcode_of_from_seg hs'] at hop
    rw [(class_of_opcode m).1.mpr hop] at hs
    cases hs
  · intro h
    have hw := ((RegName.byteAlias_eq_iff _ _).mp (congrArg Prod.snd h)).1
    rw [(RegName.isSegmentRegister_iff _).mp hs'] at hw
    exact (RegName.isSegmentRegister_eq_false_iff _).mp hs hw

/-- Two accepted moves have the same bytes exactly when they are aliases. -/
theorem bytes_eq_iff_alias (m m' : ValidMov) : m.bytes = m'.bytes ↔ m.Alias m' := by
  -- Both sides force the sources into one class, and each class has a lemma of its own.
  cases hs : isSegmentRegister m.src <;> cases hs' : isSegmentRegister m'.src
  · exact alias_of_from_gpr hs hs'
  · obtain ⟨hbytes, halias⟩ := bytes_ne_of_source_class hs hs'
    exact iff_of_false hbytes halias
  · obtain ⟨hbytes, halias⟩ := bytes_ne_of_source_class hs' hs
    exact iff_of_false hbytes.symm fun h => halias (Eq.symm h)
  · exact alias_of_from_seg hs hs'

/-! ## Moves without an alias -/

/-- The move names no register that shares its encoding with another one. -/
def Unaliased (m : ValidMov) : Prop :=
  m.dst ∉ RegName.aliasedBytes ∧ m.src ∉ RegName.aliasedBytes ∧
    (isSegmentRegister m.src = true → m.dst ∉ RegName.aliasedSegs)

instance (m : ValidMov) : Decidable m.Unaliased :=
  inferInstanceAs (Decidable (_ ∧ _ ∧ _))

/-- A move without shared registers is its own only alias. -/
theorem eq_of_alias {m m' : ValidMov} (hu : m.Unaliased) (h : m.Alias m') : m = m' := by
  obtain ⟨hdb, hsb, hseg⟩ := hu
  have hsrc : m.src = m'.src := RegName.eq_of_byteAlias (congrArg Prod.snd h) hsb
  have hdst := congrArg Prod.fst h
  simp only [canonical, ← hsrc] at hdst
  refine ext_names ?_ hsrc
  split at hdst
  · next hs => exact RegName.eq_of_segAlias hdst (hseg hs)
  · exact RegName.eq_of_byteAlias hdst hdb

/-- The other register with the same encoding. -/
private def partner : RegName → RegName
  | .spl => .r12b | .bpl => .r13b | .sil => .r14b | .dil => .r15b
  | .r12b => .spl | .r13b => .bpl | .r14b => .sil | .r15b => .dil
  | .es => .eax | .cs => .ecx | .ss => .edx | .ds => .ebx | .fs => .esp | .gs => .ebp
  | .eax => .es | .ecx => .cs | .edx => .ss | .ebx => .ds | .esp => .fs | .ebp => .gs
  | regName => regName

private theorem partner_of_byte {r : RegName} (h : r ∈ RegName.aliasedBytes) :
    (bitWidthOfRegName r = .b8 ∧ requiresRexExtension r = true) ∧
      bitWidthOfRegName (partner r) = .b8 ∧ partner r ∉ [RegName.ah, .bh, .ch, .dh] ∧
      r ≠ partner r ∧ r.byteAlias = (partner r).byteAlias := by
  revert r
  decide +kernel

private theorem partner_of_seg {r : RegName} (h : r ∈ RegName.aliasedSegs) :
    bitWidthOfRegName (partner r) ≠ .b8 ∧ r ≠ partner r ∧
      r.segAlias = (partner r).segAlias := by
  revert r
  decide +kernel

/-- 8-bit moves without AH, BH, CH and DH are accepted. -/
private theorem accepted_of_bytes {dst src : RegName} (hd : bitWidthOfRegName dst = .b8)
    (hs : bitWidthOfRegName src = .b8) (hdh : dst ∉ [RegName.ah, .bh, .ch, .dh])
    (hsh : src ∉ [RegName.ah, .bh, .ch, .dh]) :
    ∃ m : ValidMov, m.dst = dst ∧ m.src = src := by
  refine ⟨ofNames dst src ?_, rfl, rfl⟩
  rw [MovRegToReg.validateSemantics_eq_ok_iff, if_neg (not_not.mpr (hd.trans hs.symm))]
  exact fun _ _ => ⟨hsh, hdh⟩

/-- Stores of a segment register to anything but 8 bits are accepted. -/
private theorem accepted_of_seg {dst src : RegName} (hd : bitWidthOfRegName dst ≠ .b8)
    (hs : isSegmentRegister src = true) : ∃ m : ValidMov, m.dst = dst ∧ m.src = src := by
  refine ⟨ofNames dst src ?_, rfl, rfl⟩
  rw [MovRegToReg.validateSemantics_eq_ok_iff, if_pos hs]
  split
  · exact hd
  · intro h8
    have h16 := (RegName.isSegmentRegister_iff _).mp hs
    exact absurd (h8.symm.trans h16) (by decide)

/-- An accepted move that names a shared 8-bit register is an 8-bit move without AH, BH, CH
    and DH. -/
private theorem byte_move_of_aliased {m : ValidMov}
    (h : m.dst ∈ RegName.aliasedBytes ∨ m.src ∈ RegName.aliasedBytes) :
    (isSegmentRegister m.src = false ∧ bitWidthOfRegName m.dst = .b8 ∧
      bitWidthOfRegName m.src = .b8) ∧
      m.src ∉ [RegName.ah, .bh, .ch, .dh] ∧ m.dst ∉ [RegName.ah, .bh, .ch, .dh] := by
  -- A segment register on the other side would force another width on this one.
  have hs : isSegmentRegister m.src = false := by
    rcases h with h | h
    · rw [← Bool.not_eq_true]
      exact fun hs => dst_width_ne_b8 hs (partner_of_byte h).1.1
    · rw [RegName.isSegmentRegister_eq_false_iff, (partner_of_byte h).1.1]
      decide
  have hd : isSegmentRegister m.dst = false := by
    rcases h with h | h
    · rw [RegName.isSegmentRegister_eq_false_iff, (partner_of_byte h).1.1]
      decide
    · rw [← Bool.not_eq_true]
      intro hd
      have h64 := src_width_of_to_seg hd hs
      rw [(partner_of_byte h).1.1] at h64
      cases h64
  have hw := width_eq_of_gpr hd hs
  have h8 : bitWidthOfRegName m.src = .b8 := by
    rcases h with h | h
    · rw [← hw]; exact (partner_of_byte h).1.1
    · exact (partner_of_byte h).1.1
  have hrex : (requiresRexExtension m.src || requiresRexExtension m.dst) = true := by
    rcases h with h | h <;> simp [(partner_of_byte h).1.2]
  exact ⟨⟨hs, hw.trans h8, h8⟩, not_high_of_rex hw h8 hrex⟩

/-- A move with a shared register has another accepted move as its alias. -/
theorem exists_alias {m : ValidMov} (h : ¬ m.Unaliased) :
    ∃ m' : ValidMov, m ≠ m' ∧ m.Alias m' := by
  by_cases hdb : m.dst ∈ RegName.aliasedBytes
  · obtain ⟨⟨hs, _, hs8⟩, hsh, _⟩ := byte_move_of_aliased (Or.inl hdb)
    obtain ⟨_, hp8, hph, hne, hal⟩ := partner_of_byte hdb
    obtain ⟨m', hd', hs'⟩ := accepted_of_bytes hp8 hs8 hph hsh
    refine ⟨m', fun heq => hne (by rw [← hd', ← heq]), ?_⟩
    simp only [Alias, canonical, hs', hd', hs, Bool.false_eq_true, ↓reduceIte, hal]
  · by_cases hsb : m.src ∈ RegName.aliasedBytes
    · obtain ⟨⟨hs, hd8, _⟩, _, hdh⟩ := byte_move_of_aliased (Or.inr hsb)
      obtain ⟨_, hp8, hph, hne, hal⟩ := partner_of_byte hsb
      obtain ⟨m', hd', hs'⟩ := accepted_of_bytes hd8 hp8 hdh hph
      have hps : isSegmentRegister (partner m.src) = false := by
        rw [RegName.isSegmentRegister_eq_false_iff, hp8]
        decide
      refine ⟨m', fun heq => hne (by rw [← hs', ← heq]), ?_⟩
      simp only [Alias, canonical, hs', hd', hs, hps, Bool.false_eq_true, ↓reduceIte, hal]
    · -- Only the third clause of `Unaliased` is left to fail.
      obtain ⟨hs, hseg⟩ : isSegmentRegister m.src = true ∧ m.dst ∈ RegName.aliasedSegs := by
        by_contra hc
        exact h ⟨hdb, hsb, fun hs hmem => hc ⟨hs, hmem⟩⟩
      obtain ⟨hp8, hne, hal⟩ := partner_of_seg hseg
      obtain ⟨m', hd', hs'⟩ := accepted_of_seg hp8 hs
      refine ⟨m', fun heq => hne (by rw [← hd', ← heq]), ?_⟩
      simp only [Alias, canonical, hs', hd', hs, ↓reduceIte, hal]

end ValidMov

/-! ## Programs with the same bytes -/

/-- Two programs have the same bytes exactly when they are aliases position by position. -/
theorem program_bytes_eq_iff (l l' : List ValidMov) :
    encodeAll (l.map ValidMov.instr) = encodeAll (l'.map ValidMov.instr) ↔
      List.Forall₂ ValidMov.Alias l l' := by
  rw [encodeAll_valid, encodeAll_valid, Except.ok.injEq,
    List.flatMap_eq_flatMap_iff (by decide : 0 < 3) (fun _ => rfl)]
  simp only [ValidMov.bytes_eq_iff_alias]

/-- Without shared registers a program is its own only alias. -/
private theorem eq_of_forall₂_alias {l l' : List ValidMov} (hu : ∀ m ∈ l, m.Unaliased)
    (h : List.Forall₂ ValidMov.Alias l l') : l = l' := by
  induction h with
  | nil => rfl
  | cons hal _ ih =>
    rw [ValidMov.eq_of_alias (hu _ List.mem_cons_self) hal,
      ih fun m hm => hu m (List.mem_cons_of_mem _ hm)]

/-- With a shared register somewhere, a program has another alias. -/
private theorem exists_program_alias {l : List ValidMov} {m : ValidMov} (hm : m ∈ l)
    (h : ¬ m.Unaliased) : ∃ l' : List ValidMov, l ≠ l' ∧ List.Forall₂ ValidMov.Alias l l' := by
  obtain ⟨m', hne, hal⟩ := ValidMov.exists_alias h
  -- Replace this one move and keep the others.
  obtain ⟨before, after, rfl⟩ := List.append_of_mem hm
  have hrefl : ∀ l : List ValidMov, List.Forall₂ ValidMov.Alias l l :=
    fun l => List.forall₂_same.mpr fun _ _ => rfl
  refine ⟨before ++ m' :: after, ?_, List.rel_append (hrefl before) (.cons hal (hrefl after))⟩
  intro heq
  exact hne (List.cons.inj (List.append_cancel_left heq)).1

/-- A program of accepted moves is the only one with its bytes exactly when its moves name no
    shared register. -/
theorem program_determined_iff (l : List ValidMov) :
    (∀ l' : List ValidMov,
      encodeAll (l.map ValidMov.instr) = encodeAll (l'.map ValidMov.instr) → l = l') ↔
      ∀ m ∈ l, m.Unaliased := by
  constructor
  · intro h m hm
    by_contra hc
    obtain ⟨l', hne, hal⟩ := exists_program_alias hm hc
    exact hne (h l' ((program_bytes_eq_iff l l').mpr hal))
  · intro hu l' heq
    exact eq_of_forall₂_alias hu ((program_bytes_eq_iff l l').mp heq)

/-- Different programs can have the same bytes: `mov(spl, al)` and `mov(r12b, al)` do. -/
theorem not_program_injective :
    ¬ ∀ l l' : List ValidMov,
      encodeAll (l.map ValidMov.instr) = encodeAll (l'.map ValidMov.instr) → l = l' := by
  intro h
  have heq := h [.ofNames .spl .al rfl] [.ofNames .r12b .al rfl] rfl
  exact absurd heq (by decide)

end Fiskas
