import Fiskas.Spec.MovEncode

/-!
# Encoding a mov and decoding it again

For which accepted moves does the decoder read back what was encoded? The encoder emits its
REX byte also when it is zero, gives SPL, BPL, SIL and DIL an extension bit, and puts the
destination into ModRM.r/m also when the opcode expects it in ModRM.reg. The two conditions
below name the moves that none of this harms, and the program theorems show that they are
exact.

## Key results

- `gprProgram_decodes_iff`: programs of moves between general registers
- `segProgram_decodes_iff`: programs of moves that name a segment register
-/

namespace Fiskas

namespace ValidMov

/-! ## Widths and opcodes of accepted moves -/

/-- A move is a 64-bit move when one of its operands is 64 bits wide. -/
theorem wide_eq (m : ValidMov) :
    m.instr.wide =
      decide (bitWidthOfRegName m.src = .b64 ∨ bitWidthOfRegName m.dst = .b64) := by
  unfold MovRegToReg.wide
  rw [m.src_width, m.dst_width]
  change decide (max (bitWidthOfRegName m.src).toUnderlying
    (bitWidthOfRegName m.dst).toUnderlying = 64) = _
  cases bitWidthOfRegName m.src <;> cases bitWidthOfRegName m.dst <;> rfl

/-- When the encoder has a bit to set in the REX prefix. -/
theorem hasRex_eq (m : ValidMov) :
    m.instr.hasRex =
      (m.instr.wide || requiresRexExtension m.src || requiresRexExtension m.dst) := rfl

/-- The bits that it sets: REX.R for the source and REX.B for the destination. -/
theorem rexBits_eq (m : ValidMov) :
    m.instr.rexBits =
      ⟨m.instr.wide, requiresRexExtension m.src, false, requiresRexExtension m.dst⟩ := rfl

/-- The opcode of a move between general registers. -/
theorem opcode_of_gpr {m : ValidMov} (hd : isSegmentRegister m.dst = false)
    (hs : isSegmentRegister m.src = false) :
    m.instr.opcode = if bitWidthOfRegName m.src = .b8 then 0x88 else 0x89 := by
  have hd' : isSegmentRegister m.instr.dst.name = false := hd
  have hs' : isSegmentRegister m.instr.src.name = false := hs
  simp only [MovRegToReg.opcode, hd', hs', Bool.or_self, Bool.false_eq_true, ↓reduceIte]
  have hsrc : bitWidthOfRegName m.instr.src.name = bitWidthOfRegName m.src := rfl
  rw [m.src_width, hsrc]
  cases bitWidthOfRegName m.src <;> rfl

/-- The opcode of a move from a segment register. -/
theorem opcode_of_from_seg {m : ValidMov} (hs : isSegmentRegister m.src = true) :
    m.instr.opcode = 0x8c := by
  have hs' : isSegmentRegister m.instr.src.name = true := hs
  simp [MovRegToReg.opcode, hs']

/-- The opcode of a move from a general register to a segment register. -/
theorem opcode_of_to_seg {m : ValidMov} (hd : isSegmentRegister m.dst = true)
    (hs : isSegmentRegister m.src = false) : m.instr.opcode = 0x8e := by
  have hd' : isSegmentRegister m.instr.dst.name = true := hd
  have hs' : isSegmentRegister m.instr.src.name = false := hs
  simp [MovRegToReg.opcode, hd', hs']

/-! ## Moves between general registers -/

/-- A move between general registers that is decoded to itself: it has a REX prefix, because
    it is a 64-bit move or names one of the registers R8 to R15, and does not name SPL, BPL,
    SIL or DIL. -/
def GprDecodable (m : ValidMov) : Prop :=
  (bitWidthOfRegName m.src = .b64 ∨ requiresRexExtension m.src = true ∨
    requiresRexExtension m.dst = true) ∧
  m.src ∉ [RegName.spl, .bpl, .sil, .dil] ∧ m.dst ∉ [RegName.spl, .bpl, .sil, .dil]

instance (m : ValidMov) : Decidable m.GprDecodable :=
  inferInstanceAs (Decidable (_ ∧ _ ∧ _))

/-- The same with the registers listed: the reason for the prefix is a 64-bit operand or one
    of R8 to R15. -/
theorem gprDecodable_iff (m : ValidMov) : m.GprDecodable ↔
    (bitWidthOfRegName m.src = .b64 ∨ m.src ∈ RegName.extended ∨ m.dst ∈ RegName.extended) ∧
      m.src ∉ [RegName.spl, .bpl, .sil, .dil] ∧ m.dst ∉ [RegName.spl, .bpl, .sil, .dil] := by
  rw [GprDecodable, RegName.requiresRexExtension_iff, RegName.requiresRexExtension_iff]
  -- The other registers with an extension bit are excluded anyway.
  apply and_congr_left
  rintro ⟨hsrc, hdst⟩
  rw [or_iff_left hsrc, or_iff_left hdst]

/-- The named registers are the only 8-bit ones. -/
theorem not_spl_of_width {r : RegName} (hw : bitWidthOfRegName r ≠ .b8) :
    r ∉ [RegName.spl, .bpl, .sil, .dil] := by
  revert r
  decide +kernel

/-- The REX prefix of a move between general registers is there for one of three reasons. -/
private theorem hasRex_of_gpr {m : ValidMov}
    (hw : bitWidthOfRegName m.dst = bitWidthOfRegName m.src) :
    m.instr.hasRex = true ↔
      bitWidthOfRegName m.src = .b64 ∨ requiresRexExtension m.src = true ∨
        requiresRexExtension m.dst = true := by
  simp only [hasRex_eq, wide_eq, hw, or_self, Bool.or_eq_true, decide_eq_true_eq, or_assoc]

/-- 8-bit moves: the operands are read back unless they are among the twelve registers with
    the codes 4 to 7. -/
private theorem decoded_byte_iff {m : ValidMov}
    (hw : bitWidthOfRegName m.dst = bitWidthOfRegName m.src)
    (h8 : bitWidthOfRegName m.src = .b8) (hop : m.instr.opcode = 0x88)
    (hrex : m.instr.hasRex = true) :
    m.decoded = some m.toX86 ↔
      m.src ∉ [RegName.spl, .bpl, .sil, .dil] ∧ m.dst ∉ [RegName.spl, .bpl, .sil, .dil] := by
  -- The move is not a 64-bit one, so its prefix is there for an extension bit.
  have hext : (requiresRexExtension m.src || requiresRexExtension m.dst) = true := by
    have := (hasRex_of_gpr hw).mp hrex
    rw [h8] at this
    simpa using this
  obtain ⟨hsrc, hdst⟩ := not_high_of_rex hw h8 hext
  have hsrc_iff := RegName.byteReg_eq_toX86_iff h8
  have hdst_iff := RegName.byteReg_eq_toX86_iff (hw.trans h8)
  rw [decoded, if_pos hrex, hop, rexBits_eq, X86.operands_88, toX86, Option.some.injEq,
    X86.Mov.mk.injEq, hsrc_iff, hdst_iff]
  exact ⟨fun h => ⟨h.2.2, h.1.2⟩, fun h => ⟨⟨hdst, h.2⟩, hsrc, h.1⟩⟩

/-- 32-bit and 64-bit moves: the operands are always read back. -/
private theorem decoded_word {m : ValidMov} {w : Bool}
    (hsrc : bitWidthOfRegName m.src = if w then .b64 else .b32)
    (hdst : bitWidthOfRegName m.dst = if w then .b64 else .b32)
    (hop : m.instr.opcode = 0x89) (hrex : m.instr.hasRex = true) :
    m.decoded = some m.toX86 := by
  have hwide : m.instr.wide = w := by
    rw [wide_eq, hsrc, hdst]
    cases w <;> rfl
  rw [decoded, if_pos hrex, hop, rexBits_eq, X86.operands_89, hwide, toX86,
    RegName.wordReg_eq_toX86 hsrc, RegName.wordReg_eq_toX86 hdst]

/-- An accepted move between general registers is decoded to itself exactly when it is
    `GprDecodable`. -/
theorem decoded_gpr_iff {m : ValidMov} (hd : isSegmentRegister m.dst = false)
    (hs : isSegmentRegister m.src = false) : m.decoded = some m.toX86 ↔ m.GprDecodable := by
  have hw := width_eq_of_gpr hd hs
  have hop := opcode_of_gpr hd hs
  by_cases hrex : m.instr.hasRex = true
  · have hreason := (hasRex_of_gpr hw).mp hrex
    by_cases h8 : bitWidthOfRegName m.src = .b8
    · rw [if_pos h8] at hop
      rw [decoded_byte_iff hw h8 hop hrex]
      exact ⟨fun hspl => ⟨hreason, hspl⟩, fun hcond => hcond.2⟩
    · -- Of the wider registers only segment registers are not 32 or 64 bits wide.
      rw [if_neg h8] at hop
      have h16 := (RegName.isSegmentRegister_eq_false_iff _).mp hs
      have hcond : m.GprDecodable :=
        ⟨hreason, not_spl_of_width h8, not_spl_of_width (by rw [hw]; exact h8)⟩
      rcases RegName.bitWidth_word h8 h16 with h | h
      · exact iff_of_true (decoded_word (w := false) h (hw.trans h) hop hrex) hcond
      · exact iff_of_true (decoded_word (w := true) h (hw.trans h) hop hrex) hcond
  · rw [decoded, if_neg hrex]
    exact iff_of_false (by simp) (fun h => hrex ((hasRex_of_gpr hw).mpr h.1))

/-! ## Moves that name a segment register -/

/-- A move that names a segment register and is decoded to itself. From a segment register it
    needs a REX prefix: the destination is a 64-bit register or one of R8D to R15D. To a
    segment register other than CS it needs a source that is not extended and has the index
    of the destination, so that swapping the two ModRM fields changes nothing. -/
def SegDecodable (m : ValidMov) : Prop :=
  (isSegmentRegister m.src = true ∧ isSegmentRegister m.dst = false ∧
    (bitWidthOfRegName m.dst = .b64 ∨ requiresRexExtension m.dst = true)) ∨
  (isSegmentRegister m.dst = true ∧ isSegmentRegister m.src = false ∧ m.dst ≠ .cs ∧
    requiresRexExtension m.src = false ∧ indexOfRegName m.src = indexOfRegName m.dst)

instance (m : ValidMov) : Decidable m.SegDecodable :=
  inferInstanceAs (Decidable (_ ∨ _))

/-- The same with the registers listed: a store to a 64-bit register or to one of R8D to R15D,
    or a load from one of RAX to RDI with the index of the segment register. -/
theorem segDecodable_iff (m : ValidMov) : m.SegDecodable ↔
    (isSegmentRegister m.src = true ∧ isSegmentRegister m.dst = false ∧
      (bitWidthOfRegName m.dst = .b64 ∨
        m.dst ∈ [RegName.r8d, .r9d, .r10d, .r11d, .r12d, .r13d, .r14d, .r15d])) ∨
    (isSegmentRegister m.dst = true ∧ isSegmentRegister m.src = false ∧ m.dst ≠ .cs ∧
      m.src ∈ [RegName.rax, .rcx, .rdx, .rbx, .rsp, .rbp, .rsi, .rdi] ∧
      indexOfRegName m.src = indexOfRegName m.dst) := by
  apply or_congr
  · -- The destination of an accepted store is 32 or 64 bits wide.
    refine and_congr_right fun hs => and_congr_right fun hd => ?_
    rcases dst_width_of_from_seg hd hs with h32 | h64
    · rw [RegName.requiresRexExtension_b32 h32]
    · exact iff_of_true (Or.inl h64) (Or.inl h64)
  · -- The source of an accepted load is 64 bits wide.
    refine and_congr_right fun hd => and_congr_right fun hs => and_congr_right fun _ => ?_
    rw [RegName.requiresRexExtension_b64 (src_width_of_to_seg hd hs)]

/-- A move that the architecture has: not between two segment registers, and not to CS. -/
def HasEncoding (m : ValidMov) : Prop :=
  ¬ (isSegmentRegister m.dst = true ∧ isSegmentRegister m.src = true) ∧ m.dst ≠ .cs

instance (m : ValidMov) : Decidable m.HasEncoding :=
  inferInstanceAs (Decidable (_ ∧ _))

/-- CS is the only segment register with its code. -/
private theorem code_eq_cs_iff {r : RegName} (h : isSegmentRegister r = true) :
    r.code = X86.cs ↔ r = .cs := by
  revert r
  decide +kernel

/-- Two names have one index exactly when they have one register code. -/
private theorem index_eq_iff {r r' : RegName} :
    indexOfRegName r = indexOfRegName r' ↔ r.code = r'.code := by
  rw [RegName.indexOfRegName_eq, RegName.indexOfRegName_eq r']
  exact ⟨fun h => by simpa using congrArg (BitVec.setWidth 3) h, fun h => by rw [h]⟩

/-- No move between two segment registers has a REX prefix. -/
private theorem hasRex_of_seg_seg {m : ValidMov} (hd : isSegmentRegister m.dst = true)
    (hs : isSegmentRegister m.src = true) : m.instr.hasRex = false := by
  rw [hasRex_eq, wide_eq, (RegName.isSegmentRegister_iff _).mp hd,
    (RegName.isSegmentRegister_iff _).mp hs, RegName.requiresRexExtension_of_seg hd,
    RegName.requiresRexExtension_of_seg hs]
  rfl

/-- Stores of a segment register are decoded to themselves as soon as they have a prefix. -/
private theorem decoded_from_seg_iff {m : ValidMov} (hd : isSegmentRegister m.dst = false)
    (hs : isSegmentRegister m.src = true) :
    m.decoded = some m.toX86 ↔
      bitWidthOfRegName m.dst = .b64 ∨ requiresRexExtension m.dst = true := by
  have hs16 := (RegName.isSegmentRegister_iff _).mp hs
  have hwide : m.instr.wide = decide (bitWidthOfRegName m.dst = .b64) := by
    rw [wide_eq, hs16]
    simp
  have hrex : m.instr.hasRex = true ↔
      bitWidthOfRegName m.dst = .b64 ∨ requiresRexExtension m.dst = true := by
    rw [hasRex_eq, hwide, RegName.requiresRexExtension_of_seg hs]
    simp
  -- With a prefix both operands are where the opcode expects them; without one there is a
  -- zero byte in front of the opcode.
  by_cases h : m.instr.hasRex = true
  · obtain ⟨hcode, hseg⟩ := RegName.seg_eq_toX86 hs
    have hdst : bitWidthOfRegName m.dst = if m.instr.wide then .b64 else .b32 := by
      rw [hwide]
      rcases dst_width_of_from_seg hd hs with h' | h' <;> rw [h'] <;> rfl
    refine iff_of_true ?_ (hrex.mp h)
    rw [decoded, if_pos h, opcode_of_from_seg hs, rexBits_eq, X86.operands_8c, if_pos hcode,
      RegName.wordReg_eq_toX86 hdst, hseg, toX86]
  · rw [decoded, if_neg h]
    exact iff_of_false (by simp) (fun h' => h (hrex.mpr h'))

/-- Loads of a segment register always have a prefix, but their ModRM fields are swapped. -/
private theorem decoded_to_seg_iff {m : ValidMov} (hd : isSegmentRegister m.dst = true)
    (hs : isSegmentRegister m.src = false) :
    m.decoded = some m.toX86 ↔
      m.dst ≠ .cs ∧ requiresRexExtension m.src = false ∧
        indexOfRegName m.src = indexOfRegName m.dst := by
  have hs64 := src_width_of_to_seg hd hs
  obtain ⟨hcode, hseg⟩ := RegName.seg_eq_toX86 hd
  have hwide : m.instr.wide = true := by rw [wide_eq, hs64]; rfl
  have hrex : m.instr.hasRex = true := by rw [hasRex_eq, hwide]; rfl
  have hsrc : m.src.toX86 =
      X86.wordReg true (requiresRexExtension m.src) m.src.code :=
    (RegName.wordReg_eq_toX86 hs64).symm
  rw [decoded, if_pos hrex, opcode_of_to_seg hd hs, rexBits_eq, X86.operands_8e, hwide,
    RegName.requiresRexExtension_of_seg hd, toX86, ← hseg, hsrc, index_eq_iff]
  -- The decoder reads the destination from ModRM.reg, where the encoder puts the source.
  constructor
  · intro h
    split at h
    · next hlegal =>
      simp only [Option.some.injEq, X86.Mov.mk.injEq, X86.Reg.seg.injEq, X86.wordReg, ↓reduceIte,
        X86.Reg.gpr64.injEq, X86.extend_inj] at h
      obtain ⟨hreg, hbit, _⟩ := h
      refine ⟨fun hcs => hlegal.2 ?_, hbit.symm, hreg⟩
      rw [hreg]
      exact (code_eq_cs_iff hd).mpr hcs
    · cases h
  · rintro ⟨hcs, hbit, hreg⟩
    have hlegal : m.src.code < 6 ∧ m.src.code ≠ X86.cs := by
      rw [hreg]
      exact ⟨hcode, fun h => hcs ((code_eq_cs_iff hd).mp h)⟩
    rw [if_pos hlegal, hbit, hreg]

/-- An accepted move that names a segment register is decoded to itself exactly when it is
    `SegDecodable`. -/
theorem decoded_seg_iff {m : ValidMov}
    (h : isSegmentRegister m.dst = true ∨ isSegmentRegister m.src = true) :
    m.decoded = some m.toX86 ↔ m.SegDecodable := by
  unfold SegDecodable
  cases hs : isSegmentRegister m.src with
  | false =>
    have hd : isSegmentRegister m.dst = true := h.resolve_right (by rw [hs]; decide)
    rw [decoded_to_seg_iff hd hs]
    simp [hd]
  | true =>
    cases hd : isSegmentRegister m.dst with
    | false =>
      rw [decoded_from_seg_iff hd hs]
      simp
    | true =>
      rw [decoded, hasRex_of_seg_seg hd hs]
      simp

/-- A decodable move is one that the architecture has. -/
theorem hasEncoding_of_segDecodable {m : ValidMov} (h : m.SegDecodable) : m.HasEncoding := by
  rcases h with ⟨hs, hd, _⟩ | ⟨_, hs, hcs, _⟩
  · refine ⟨fun hboth => ?_, fun hcs => ?_⟩
    · rw [hd] at hboth
      cases hboth.1
    · rw [hcs] at hd
      cases hd
  · refine ⟨fun hboth => ?_, hcs⟩
    rw [hs] at hboth
    cases hboth.2

end ValidMov

/-! ## Programs -/

/-- A program of accepted moves between general registers is decoded to itself exactly when
    each of its moves is `GprDecodable`. -/
theorem gprProgram_decodes_iff (l : List ValidMov)
    (hgpr : ∀ m ∈ l, isSegmentRegister m.dst = false ∧ isSegmentRegister m.src = false) :
    (∃ bytes, encodeAll (l.map ValidMov.instr) = .ok bytes ∧
        X86.decodeAll bytes = some (l.map ValidMov.toX86)) ↔
      ∀ m ∈ l, m.GprDecodable := by
  rw [program_decodes_iff]
  exact forall₂_congr fun m hm => ValidMov.decoded_gpr_iff (hgpr m hm).1 (hgpr m hm).2

/-- `mov(rax, r9); mov(r8b, al)` is decoded to itself. -/
theorem gprProgram_decodes_of_rex :
    ∃ bytes,
      encodeAll ([ValidMov.ofNames .rax .r9 rfl, .ofNames .r8b .al rfl].map ValidMov.instr) =
        .ok bytes ∧
      X86.decodeAll bytes =
        some ([ValidMov.ofNames .rax .r9 rfl, .ofNames .r8b .al rfl].map ValidMov.toX86) :=
  (gprProgram_decodes_iff [.ofNames .rax .r9 rfl, .ofNames .r8b .al rfl] (by decide)).mpr
    (by decide)

/-- Not every program of accepted moves between general registers is decoded to itself:
    `mov(eax, ebx)` starts with a zero byte. -/
theorem not_all_gprProgram_decode :
    ¬ ∀ l : List ValidMov,
      (∀ m ∈ l, isSegmentRegister m.dst = false ∧ isSegmentRegister m.src = false) →
      ∃ bytes, encodeAll (l.map ValidMov.instr) = .ok bytes ∧
        X86.decodeAll bytes = some (l.map ValidMov.toX86) := by
  intro h
  have hdec := (program_decodes_iff _).mp (h [.ofNames .eax .ebx rfl] (by decide))
  exact absurd (hdec _ List.mem_cons_self) (by decide)

/-- A program of accepted moves that each name a segment register is decoded to itself, and
    has only moves that the architecture has, exactly when each of its moves is
    `SegDecodable`. -/
theorem segProgram_decodes_iff (l : List ValidMov)
    (hseg : ∀ m ∈ l, isSegmentRegister m.dst = true ∨ isSegmentRegister m.src = true) :
    ((∃ bytes, encodeAll (l.map ValidMov.instr) = .ok bytes ∧
        X86.decodeAll bytes = some (l.map ValidMov.toX86)) ∧ ∀ m ∈ l, m.HasEncoding) ↔
      ∀ m ∈ l, m.SegDecodable := by
  rw [program_decodes_iff]
  constructor
  · rintro ⟨hdec, _⟩ m hm
    exact (ValidMov.decoded_seg_iff (hseg m hm)).mp (hdec m hm)
  · intro h
    exact ⟨fun m hm => (ValidMov.decoded_seg_iff (hseg m hm)).mpr (h m hm),
      fun m hm => ValidMov.hasEncoding_of_segDecodable (h m hm)⟩

/-- `mov(rax, ds); mov(es, rax)` is decoded to itself. -/
theorem segProgram_decodes_of_same_index :
    (∃ bytes,
      encodeAll ([ValidMov.ofNames .rax .ds rfl, .ofNames .es .rax rfl].map ValidMov.instr) =
        .ok bytes ∧
      X86.decodeAll bytes =
        some ([ValidMov.ofNames .rax .ds rfl, .ofNames .es .rax rfl].map ValidMov.toX86)) ∧
      ∀ m ∈ [ValidMov.ofNames .rax .ds rfl, .ofNames .es .rax rfl], m.HasEncoding :=
  (segProgram_decodes_iff [.ofNames .rax .ds rfl, .ofNames .es .rax rfl] (by decide)).mpr
    (by decide)

/-- Not every program of accepted moves that name a segment register is decoded to itself:
    the bytes of `mov(es, rcx)` are a load of CS. -/
theorem not_all_segProgram_decode :
    ¬ ∀ l : List ValidMov,
      (∀ m ∈ l, isSegmentRegister m.dst = true ∨ isSegmentRegister m.src = true) →
      (∃ bytes, encodeAll (l.map ValidMov.instr) = .ok bytes ∧
        X86.decodeAll bytes = some (l.map ValidMov.toX86)) ∧ ∀ m ∈ l, m.HasEncoding := by
  intro h
  have hdec := (program_decodes_iff _).mp (h [.ofNames .es .rcx rfl] (by decide)).1
  exact absurd (hdec _ List.mem_cons_self) (by decide)

end Fiskas
