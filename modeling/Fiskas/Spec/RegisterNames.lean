import Mathlib.Data.List.Nodup
import Fiskas.Native.X86Common
import Fiskas.X86.Mov

/-!
# Register names and the registers of the architecture

`RegName.toX86` says which x86-64 register a register name means. The other lemmas compare
the tables of the assembler with it, one register at a time: for which names do the width, the
index and the extension bit of the tables address the register that the name means?

## Key results

- `toX86_injective`: different names mean different registers
- `find_regnames_iff`: the parser's table agrees with the spellings of the architecture
- `wordReg_eq_toX86` / `byteReg_eq_toX86_iff`: the tables address every 32-bit and 64-bit
  register, and every 8-bit register but eight
-/

namespace Fiskas

namespace RegName

/-- All register names, so that a fact about every name can be checked by evaluation. -/
def all : List RegName :=
  [rax, rbx, rcx, rdx, rbp, rsi, rdi, rsp, r8, r9, r10, r11, r12, r13, r14, r15,
    eax, ebx, ecx, edx, ebp, esi, edi, esp, r8d, r9d, r10d, r11d, r12d, r13d, r14d, r15d,
    al, cl, dl, bl, ah, ch, dh, bh, spl, bpl, sil, dil,
    r8b, r9b, r10b, r11b, r12b, r13b, r14b, r15b, cs, ds, ss, es, fs, gs]

theorem mem_all (regName : RegName) : regName ∈ all := by
  cases regName <;> decide

instance decidableForall (p : RegName → Prop) [DecidablePred p] : Decidable (∀ r, p r) :=
  decidable_of_iff (∀ r ∈ all, p r) ⟨fun h r => h r (mem_all r), fun h r _ => h r⟩

/-- The register that a name means in the x86-64 architecture. -/
def toX86 : RegName → X86.Reg
  | rax => .gpr64 0 | rcx => .gpr64 1 | rdx => .gpr64 2 | rbx => .gpr64 3
  | rsp => .gpr64 4 | rbp => .gpr64 5 | rsi => .gpr64 6 | rdi => .gpr64 7
  | r8 => .gpr64 8 | r9 => .gpr64 9 | r10 => .gpr64 10 | r11 => .gpr64 11
  | r12 => .gpr64 12 | r13 => .gpr64 13 | r14 => .gpr64 14 | r15 => .gpr64 15
  | eax => .gpr32 0 | ecx => .gpr32 1 | edx => .gpr32 2 | ebx => .gpr32 3
  | esp => .gpr32 4 | ebp => .gpr32 5 | esi => .gpr32 6 | edi => .gpr32 7
  | r8d => .gpr32 8 | r9d => .gpr32 9 | r10d => .gpr32 10 | r11d => .gpr32 11
  | r12d => .gpr32 12 | r13d => .gpr32 13 | r14d => .gpr32 14 | r15d => .gpr32 15
  | al => .gpr8 0 | cl => .gpr8 1 | dl => .gpr8 2 | bl => .gpr8 3
  | spl => .gpr8 4 | bpl => .gpr8 5 | sil => .gpr8 6 | dil => .gpr8 7
  | r8b => .gpr8 8 | r9b => .gpr8 9 | r10b => .gpr8 10 | r11b => .gpr8 11
  | r12b => .gpr8 12 | r13b => .gpr8 13 | r14b => .gpr8 14 | r15b => .gpr8 15
  | ah => .high8 0 | ch => .high8 1 | dh => .high8 2 | bh => .high8 3
  | es => .seg 0 | cs => .seg 1 | ss => .seg 2 | ds => .seg 3 | fs => .seg 4 | gs => .seg 5

/-- Different names mean different registers. -/
theorem toX86_injective : Function.Injective toX86 := by
  have hnodup : (all.map toX86).Nodup := by decide +kernel
  intro a b hab
  exact List.inj_on_of_nodup_map hnodup (mem_all a) (mem_all b) hab

/-- The index of the tables as a register code of the instruction format. -/
def code (regName : RegName) : BitVec 3 := (indexOfRegName regName).setWidth 3

/-- Every index fits the three bits of a register code. -/
theorem indexOfRegName_eq (regName : RegName) :
    indexOfRegName regName = (code regName).setWidth 8 := by
  cases regName <;> rfl

/-! ## Spellings -/

/-- Every spelling of a 64-bit general register is in the parser's table. -/
theorem exists_find_gpr64Name (num : BitVec 4) :
    ∃ regName, regnames.find (str (X86.gpr64Name num)) = some regName ∧
      toX86 regName = .gpr64 num := by
  have hnames : ∀ num, (regnames.find (str (X86.gpr64Name num))).map toX86 =
      some (.gpr64 num) := by decide +kernel
  exact Option.map_eq_some_iff.mp (hnames num)

/-- The parser's table holds the 64-bit general registers, each under the spelling that the
    architecture gives it, and nothing else. -/
theorem find_regnames_iff {text : ByteVec} {regName : RegName} :
    regnames.find text = some regName ↔
      ∃ num, text = str (X86.gpr64Name num) ∧ toX86 regName = .gpr64 num := by
  constructor
  · intro h
    -- The table is finite, so its entries are checked one by one.
    have hentries : ∀ e ∈ regnames, ∃ num, e.1 = str (X86.gpr64Name num) ∧
        toX86 e.2 = .gpr64 num := by decide +kernel
    exact hentries (text, regName) (StringMap.mem_of_find h)
  · rintro ⟨num, rfl, hnum⟩
    obtain ⟨r, hfind, hr⟩ := exists_find_gpr64Name num
    -- The entry of this spelling means the same register, so it is the same name.
    rw [hfind, toX86_injective (hr.trans hnum.symm)]

/-! ## Widths -/

/-- The segment registers are the 16-bit registers. -/
theorem isSegmentRegister_iff (regName : RegName) :
    isSegmentRegister regName = true ↔ bitWidthOfRegName regName = .b16 := by
  cases regName <;> decide

/-- The general registers are those of any other width. -/
theorem isSegmentRegister_eq_false_iff (regName : RegName) :
    isSegmentRegister regName = false ↔ bitWidthOfRegName regName ≠ .b16 := by
  rw [← Bool.not_eq_true, isSegmentRegister_iff]

/-- A register that is neither 8 nor 16 bits wide is 32 or 64 bits wide. -/
theorem bitWidth_word {regName : RegName} (h8 : bitWidthOfRegName regName ≠ .b8)
    (h16 : bitWidthOfRegName regName ≠ .b16) :
    bitWidthOfRegName regName = .b32 ∨ bitWidthOfRegName regName = .b64 := by
  cases h : bitWidthOfRegName regName with
  | b8 => exact absurd h h8
  | b16 => exact absurd h h16
  | b32 => exact Or.inl rfl
  | b64 => exact Or.inr rfl

/-- The registers R8 to R15, in any width. -/
def extended : List RegName :=
  [r8, r9, r10, r11, r12, r13, r14, r15, r8d, r9d, r10d, r11d, r12d, r13d, r14d, r15d,
    r8b, r9b, r10b, r11b, r12b, r13b, r14b, r15b]

/-- The tables give an extension bit to R8 to R15, and to SPL, BPL, SIL and DIL. -/
theorem requiresRexExtension_iff {regName : RegName} : requiresRexExtension regName = true ↔
    regName ∈ extended ∨ regName ∈ [spl, bpl, sil, dil] := by
  cases regName <;> decide

/-- Of the 32-bit registers, R8D to R15D have an extension bit. -/
theorem requiresRexExtension_b32 {regName : RegName} (hw : bitWidthOfRegName regName = .b32) :
    requiresRexExtension regName = true ↔
      regName ∈ [r8d, r9d, r10d, r11d, r12d, r13d, r14d, r15d] := by
  cases regName <;> first | decide | exact absurd hw (by decide)

/-- Of the 64-bit registers, RAX to RDI have none. -/
theorem requiresRexExtension_b64 {regName : RegName} (hw : bitWidthOfRegName regName = .b64) :
    requiresRexExtension regName = false ↔
      regName ∈ [rax, rcx, rdx, rbx, rsp, rbp, rsi, rdi] := by
  cases regName <;> first | decide | exact absurd hw (by decide)

/-- Segment registers need no extension bit. -/
theorem requiresRexExtension_of_seg {regName : RegName}
    (h : isSegmentRegister regName = true) : requiresRexExtension regName = false := by
  cases regName <;> first | rfl | exact absurd h (by decide)

/-! ## Addressed registers -/

/-- The tables address every 64-bit and every 32-bit register by its number. -/
theorem wordReg_eq_toX86 {regName : RegName} {w : Bool}
    (hw : bitWidthOfRegName regName = if w then .b64 else .b32) :
    X86.wordReg w (requiresRexExtension regName) (code regName) = toX86 regName := by
  cases regName <;> cases w <;> first | rfl | exact absurd hw (by decide)

/-- Next to a REX prefix the tables address every 8-bit register but AH, CH, DH and BH, which
    cannot be addressed there, and SPL, BPL, SIL and DIL, which they give an extension bit. -/
theorem byteReg_eq_toX86_iff {regName : RegName} (hw : bitWidthOfRegName regName = .b8) :
    X86.byteReg true (requiresRexExtension regName) (code regName) = toX86 regName ↔
      regName ∉ [ah, bh, ch, dh] ∧ regName ∉ [spl, bpl, sil, dil] := by
  cases regName <;> first | decide | exact absurd hw (by decide)

/-- The tables address every segment register by its number. -/
theorem seg_eq_toX86 {regName : RegName} (h : isSegmentRegister regName = true) :
    code regName < 6 ∧ .seg (code regName) = toX86 regName := by
  cases regName <;> first | decide | exact absurd h (by decide)

end RegName

end Fiskas
