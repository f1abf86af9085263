import Fiskas.ForStd.Run
import Fiskas.Native.Mov
import Fiskas.Spec.RegisterNames

/-!
# The bytes of an accepted mov

What `validate_semantics` accepts, stated without its control flow, and what `encode` writes
for it, stated in the terms of the instruction format: a REX byte or a zero byte, an opcode
and a ModRM byte. `decode_bytes` then gives the one move, if any, that these bytes are decoded
to, and `program_decodes_iff` lifts it to whole programs.

## Key results

- `validateSemantics_eq_ok_iff`: the accepted moves
- `encode_eq_bytes`: an accepted move is always encoded, to three bytes
- `decode_bytes`, `program_decodes_iff`: how a decoder reads them
- `program_eq_of_decodeAll`: what is decoded is decoded to one program
-/

namespace Fiskas

/-! ## The two byte builders -/

/-- The REX builder, for the three setters the encoder calls. -/
theorem rex_value_eq (w r b : Bool) :
    ((({} : Rex).w w).r r |>.b b).value =
      if w || r || b then X86.rexByte ⟨w, r, false, b⟩ else 0 := by
  cases w <;> cases r <;> cases b <;> rfl

/-- The ModRM builder on two register codes. -/
private theorem modrm_value_eq (reg rm : BitVec 3) :
    (0 : U8) ||| ModRm.registerAddressing <<< 6 ||| rm.setWidth 8 ||| reg.setWidth 8 <<< 3 =
      X86.modrmByte reg rm := by
  decide +revert

private theorem setWidth_le_seven (code : BitVec 3) : code.setWidth 8 ≤ (7 : U8) := by
  decide +revert

namespace MovRegToReg

/-- The ModRM byte never trips an assertion: every index fits its three bits. -/
theorem modrmByte_eq (m : MovRegToReg) :
    m.modrmByte = .ok (X86.modrmByte m.src.name.code m.dst.name.code) := by
  -- The three assertions of the setters hold.
  have hmod : ModRm.registerAddressing ≤ 3 := by decide
  simp only [modrmByte, ModRm.mod, ModRm.rm, ModRm.reg, ModRm.value, hmod,
    RegName.indexOfRegName_eq, setWidth_le_seven, decide_true, fiskaAssert_true,
    Except.ok_bind', Except.pure_eq_ok]
  exact congrArg Except.ok (modrm_value_eq _ _)

/-- Is the move a 64-bit one? -/
def wide (m : MovRegToReg) : Bool :=
  max m.src.width.toUnderlying m.dst.width.toUnderlying = 64

/-- The REX bits of the move. -/
def rexBits (m : MovRegToReg) : X86.RexBits :=
  ⟨m.wide, requiresRexExtension m.src.name, false, requiresRexExtension m.dst.name⟩

/-- Is any of the REX bits set? -/
def hasRex (m : MovRegToReg) : Bool :=
  m.wide || requiresRexExtension m.src.name || requiresRexExtension m.dst.name

theorem rexPrefix_eq (m : MovRegToReg) :
    m.rexPrefix = if m.hasRex then X86.rexByte m.rexBits else 0 :=
  rex_value_eq _ _ _

/-! ## Accepted moves -/

/-- `validate_semantics` accepts a move between different widths from a segment register to
    16, 32 or 64 bits and from 16 or 64 bits to a segment register. It accepts every move
    between equal widths but the 8-bit ones that mix AH, BH, CH or DH with a REX prefix. -/
theorem validateSemantics_eq_ok_iff (m : MovRegToReg) :
    m.validateSemantics = .ok () ↔
      if m.dst.width ≠ m.src.width then
        if isSegmentRegister m.src.name then m.dst.width ≠ .b8
        else isSegmentRegister m.dst.name = true ∧ (m.src.width = .b16 ∨ m.src.width = .b64)
      else
        m.src.width = .b8 →
          (requiresRexExtension m.src.name || requiresRexExtension m.dst.name) = true →
          m.src.name ∉ [RegName.ah, .bh, .ch, .dh] ∧ m.dst.name ∉ [RegName.ah, .bh, .ch, .dh] := by
  unfold validateSemantics
  split
  · simp only [validateDifferentWidths, Except.bind_eq_ok, fiskaAssert_eq_ok]
    cases hs : isSegmentRegister m.src.name
    · simp [oneOf]
    · cases m.dst.width <;> simp [oneOf]
  -- The REX byte of the check is there exactly when an operand needs an extension bit.
  · have hrex : ((({} : Rex).r (requiresRexExtension m.src.name)).b
        (requiresRexExtension m.dst.name)).value ≠ 0 ↔
        (requiresRexExtension m.src.name || requiresRexExtension m.dst.name) = true := by
      cases requiresRexExtension m.src.name <;> cases requiresRexExtension m.dst.name <;> decide
    simp only [validateSameWidth, hrex]
    split
    · next h => simp [oneOf, h.1, h.2]
    · next h =>
      simp only [Except.pure_eq_ok, true_iff]
      exact fun hw hr => absurd ⟨hw, hr⟩ h

end MovRegToReg

/-- A `mov` that `validate_semantics` accepts, between registers that have the widths of
    their names. -/
structure ValidMov where
  instr : MovRegToReg
  dst_width : instr.dst.width = bitWidthOfRegName instr.dst.name
  src_width : instr.src.width = bitWidthOfRegName instr.src.name
  accepted : instr.validateSemantics = .ok ()
deriving DecidableEq

namespace ValidMov

/-- The name of the destination. -/
def dst (m : ValidMov) : RegName := m.instr.dst.name

/-- The name of the source. -/
def src (m : ValidMov) : RegName := m.instr.src.name

/-- The move between the registers that the names mean. -/
def toX86 (m : ValidMov) : X86.Mov := ⟨m.dst.toX86, m.src.toX86⟩

/-- A valid move is determined by its two names. -/
theorem ext_names {m m' : ValidMov} (hd : m.dst = m'.dst) (hs : m.src = m'.src) : m = m' := by
  obtain ⟨⟨⟨dn, dw⟩, sn, sw⟩, hdw, hsw, hacc⟩ := m
  obtain ⟨⟨⟨dn', dw'⟩, sn', sw'⟩, hdw', hsw', hacc'⟩ := m'
  simp only [dst, src] at hd hs hdw hsw hdw' hsw'
  subst hd hs hdw hsw hdw' hsw'
  rfl

/-- The registers of the architecture determine a valid move. -/
theorem toX86_injective : Function.Injective toX86 := by
  intro m m' h
  have hdst : m.dst.toX86 = m'.dst.toX86 := congrArg X86.Mov.dst h
  have hsrc : m.src.toX86 = m'.src.toX86 := congrArg X86.Mov.src h
  exact ext_names (RegName.toX86_injective hdst) (RegName.toX86_injective hsrc)

/-- `ValidMov` for two names, when their move is accepted. -/
def ofNames (dst src : RegName)
    (h : MovRegToReg.validateSemantics
      ⟨⟨dst, bitWidthOfRegName dst⟩, ⟨src, bitWidthOfRegName src⟩⟩ = .ok ()) : ValidMov :=
  ⟨_, rfl, rfl, h⟩

/-- The acceptance condition in terms of the names alone. -/
theorem accepted_iff (m : ValidMov) :
    if bitWidthOfRegName m.dst ≠ bitWidthOfRegName m.src then
      if isSegmentRegister m.src then bitWidthOfRegName m.dst ≠ .b8
      else isSegmentRegister m.dst = true ∧
        (bitWidthOfRegName m.src = .b16 ∨ bitWidthOfRegName m.src = .b64)
    else
      bitWidthOfRegName m.src = .b8 →
        (requiresRexExtension m.src || requiresRexExtension m.dst) = true →
        m.src ∉ [RegName.ah, .bh, .ch, .dh] ∧ m.dst ∉ [RegName.ah, .bh, .ch, .dh] := by
  have h := (MovRegToReg.validateSemantics_eq_ok_iff m.instr).mp m.accepted
  rw [m.dst_width, m.src_width] at h
  exact h

/-- Accepted moves between general registers are between equal widths. -/
theorem width_eq_of_gpr {m : ValidMov} (hd : isSegmentRegister m.dst = false)
    (hs : isSegmentRegister m.src = false) :
    bitWidthOfRegName m.dst = bitWidthOfRegName m.src := by
  have h := m.accepted_iff
  by_cases hne : bitWidthOfRegName m.dst = bitWidthOfRegName m.src
  · exact hne
  · rw [if_pos hne, hs, hd] at h
    simp at h

/-- No accepted 8-bit move with an extension bit names AH, BH, CH or DH. -/
theorem not_high_of_rex {m : ValidMov} (hw : bitWidthOfRegName m.dst = bitWidthOfRegName m.src)
    (h8 : bitWidthOfRegName m.src = .b8)
    (hr : (requiresRexExtension m.src || requiresRexExtension m.dst) = true) :
    m.src ∉ [RegName.ah, .bh, .ch, .dh] ∧ m.dst ∉ [RegName.ah, .bh, .ch, .dh] := by
  have h := m.accepted_iff
  rw [if_neg (not_not.mpr hw)] at h
  exact h h8 hr

/-- A segment register is only ever loaded from a segment register or from 64 bits. -/
theorem src_width_of_to_seg {m : ValidMov} (hd : isSegmentRegister m.dst = true)
    (hs : isSegmentRegister m.src = false) : bitWidthOfRegName m.src = .b64 := by
  have h := m.accepted_iff
  have hd16 := (RegName.isSegmentRegister_iff _).mp hd
  have hs16 := (RegName.isSegmentRegister_eq_false_iff _).mp hs
  rw [if_pos (by rw [hd16]; exact Ne.symm hs16), hs] at h
  exact (h.2).resolve_left hs16

/-- A segment register is only ever stored to a segment register, 32 bits or 64 bits. -/
theorem dst_width_of_from_seg {m : ValidMov} (hd : isSegmentRegister m.dst = false)
    (hs : isSegmentRegister m.src = true) :
    bitWidthOfRegName m.dst = .b32 ∨ bitWidthOfRegName m.dst = .b64 := by
  have h := m.accepted_iff
  have hs16 := (RegName.isSegmentRegister_iff _).mp hs
  have hd16 := (RegName.isSegmentRegister_eq_false_iff _).mp hd
  rw [if_pos (by rw [hs16]; exact hd16), if_pos hs] at h
  exact RegName.bitWidth_word h hd16

/-! ## Encoding -/

/-- The three bytes of an accepted move. -/
def bytes (m : ValidMov) : ByteVec :=
  [m.instr.rexPrefix, m.instr.opcode, X86.modrmByte m.src.code m.dst.code]

/-- An accepted move is always encoded. -/
theorem encode_eq_bytes (m : ValidMov) : m.instr.encode = .ok m.bytes := by
  simp only [MovRegToReg.encode, m.accepted, MovRegToReg.modrmByte_eq, Except.ok_bind',
    Except.pure_eq_ok]
  rfl

/-- The move that a decoder reads from the bytes: none when the prefix byte is zero. -/
def decoded (m : ValidMov) : Option X86.Mov :=
  if m.instr.hasRex then
    X86.operands (some m.instr.rexBits) m.instr.opcode m.src.code m.dst.code
  else
    none

/-- Whatever follows the bytes, a decoder reads `decoded` from them. -/
theorem decode_bytes (m : ValidMov) (rest : ByteVec) :
    X86.decode (m.bytes ++ rest) = m.decoded.map (·, rest) := by
  simp only [bytes, decoded, MovRegToReg.rexPrefix_eq, List.cons_append, List.nil_append]
  -- A zero byte in front of the opcode starts no instruction.
  split
  · exact X86.decode_rexByte _ _ _ _ rest
  · exact X86.decode_eq_none (by decide) (by decide)

theorem bytes_ne_nil (m : ValidMov) : m.bytes ≠ [] := List.cons_ne_nil _ _

end ValidMov

/-! ## Programs -/

/-- The concatenation of the `encode()` outputs of a list of moves. -/
def encodeAll (l : List MovRegToReg) : Except Abort ByteVec := do
  let outputs ← l.mapM MovRegToReg.encode
  return outputs.flatten

/-- A program of accepted moves is always encoded. -/
theorem encodeAll_valid (l : List ValidMov) :
    encodeAll (l.map ValidMov.instr) = .ok (l.flatMap ValidMov.bytes) := by
  have hmap : (l.map ValidMov.instr).mapM MovRegToReg.encode =
      .ok (l.map ValidMov.bytes) := by
    induction l with
    | nil => rfl
    | cons m l ih =>
      simp only [List.map_cons, List.mapM_cons, m.encode_eq_bytes, ih, Except.ok_bind',
        Except.pure_eq_ok]
  simp only [encodeAll, hmap, Except.ok_bind', Except.pure_eq_ok, List.flatMap_def]

/-- Bytes are decoded to one program of accepted moves at most. -/
theorem program_eq_of_decodeAll {bytes : ByteVec} {l l' : List ValidMov}
    (h : X86.decodeAll bytes = some (l.map ValidMov.toX86))
    (h' : X86.decodeAll bytes = some (l'.map ValidMov.toX86)) : l = l' := by
  have hmap : l.map ValidMov.toX86 = l'.map ValidMov.toX86 := Option.some.inj (h.symm.trans h')
  exact List.map_injective_iff.mpr ValidMov.toX86_injective hmap

/-- A program is decoded to its own moves exactly when each of its moves is. -/
theorem program_decodes_iff (l : List ValidMov) :
    (∃ bytes, encodeAll (l.map ValidMov.instr) = .ok bytes ∧
        X86.decodeAll bytes = some (l.map ValidMov.toX86)) ↔
      ∀ m ∈ l, m.decoded = some m.toX86 := by
  rw [encodeAll_valid]
  simp only [Except.ok.injEq, exists_eq_left']
  exact X86.decodeAll_flatMap_eq_some (fun m _ => m.bytes_ne_nil)
    (fun m _ rest => m.decode_bytes rest)

end Fiskas
