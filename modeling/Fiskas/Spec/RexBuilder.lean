import Fiskas.Native.Mov
import Fiskas.X86.Mov

/-!
# The REX builder

A `Rex` collects its bits in a byte, and the four setters may be called in any order and any
number of times. `Specified` says what `value()` should be after some calls: the REX prefix with
the bits that were asked for, or zero when none was.

The byte simulates four separate bits (`apply_low`). The setters of X and B set the same one, so
the prefix is the specified one exactly when X was never asked for.

## Key results

- `value_build`: the prefix after any calls
- `specified_iff`: when it is the specified one
- `MovRegToReg.rexPrefix_specified`: the encoder's calls give the specified prefix
-/

namespace Fiskas.Rex

/-! ## Calls -/

inductive Setter where
  | w | r | x | b
deriving DecidableEq, Repr

/-- The bit of a REX prefix that a setter is named after. -/
def Setter.index : Setter → Nat
  | .w => 3
  | .r => 2
  | .x => 1
  | .b => 0

/-- A call of a setter with its argument. -/
structure Call where
  setter : Setter
  arg : Bool
deriving DecidableEq, Repr

def apply (rex : Rex) (c : Call) : Rex :=
  match c.setter with
  | .w => rex.w c.arg
  | .r => rex.r c.arg
  | .x => rex.x c.arg
  | .b => rex.b c.arg

/-- The constant that a setter is named after. -/
def Setter.flag : Setter → U8
  | .w => wBit
  | .r => rBit
  | .x => xBit
  | .b => bBit

/-- Every setter but `x` sets the bit of its own constant, and `x` sets that of B. -/
theorem byte_apply (rex : Rex) (c : Call) :
    (apply rex c).byte =
      rex.byte ||| (ofBool c.arg * if c.setter = .x then bBit else c.setter.flag) := by
  obtain ⟨setter, arg⟩ := c
  cases setter <;> cases arg <;> rfl

/-- A fresh builder after some calls. -/
def build (calls : List Call) : Rex := calls.foldl apply {}

/-- What `value()` should be after some calls: zero when no bit was asked for, and otherwise a REX
    prefix that has exactly the bits that were. -/
def Specified (calls : List Call) (value : U8) : Prop :=
  if ∃ c ∈ calls, c.arg = true then
    value.extractLsb' 4 4 = 0b0100#4 ∧
      ∀ s : Setter, value.getLsbD s.index = true ↔ ⟨s, true⟩ ∈ calls
  else value = 0

/-! ## The byte as four bits -/

/-- The byte of a builder with these bits. -/
def low (bits : X86.RexBits) : U8 :=
  0#4 ++ (BitVec.ofBool bits.w ++ BitVec.ofBool bits.r ++ BitVec.ofBool bits.x ++
    BitVec.ofBool bits.b : BitVec 4)

/-- What a call does to the bits: `x` sets the bit of B. -/
def addBit (bits : X86.RexBits) (c : Call) : X86.RexBits :=
  match c.setter with
  | .w => { bits with w := bits.w || c.arg }
  | .r => { bits with r := bits.r || c.arg }
  | .x | .b => { bits with b := bits.b || c.arg }

/-- Each call changes the byte as it changes the bits. -/
theorem apply_low (bits : X86.RexBits) (c : Call) :
    apply ⟨low bits⟩ c = ⟨low (addBit bits c)⟩ := by
  have hbyte : low bits ||| (ofBool c.arg * if c.setter = .x then bBit else c.setter.flag) =
      low (addBit bits c) := by
    obtain ⟨w, r, x, b⟩ := bits
    obtain ⟨setter, arg⟩ := c
    cases setter <;> cases arg <;> decide +revert
  rw [← hbyte, ← byte_apply ⟨low bits⟩ c]

/-- So does a sequence of calls. -/
theorem foldl_apply_low (bits : X86.RexBits) (calls : List Call) :
    calls.foldl apply ⟨low bits⟩ = ⟨low (calls.foldl addBit bits)⟩ := by
  induction calls generalizing bits with
  | nil => rfl
  | cons c calls ih => rw [List.foldl_cons, List.foldl_cons, apply_low, ih]

/-- Was a bit asked for? -/
def asked (calls : List Call) (s : Setter) : Bool := calls.any fun c => c = ⟨s, true⟩

theorem asked_cons (c : Call) (calls : List Call) (s : Setter) :
    asked (c :: calls) s = (decide (c = ⟨s, true⟩) || asked calls s) := List.any_cons

theorem asked_eq_true {calls : List Call} {s : Setter} :
    asked calls s = true ↔ ⟨s, true⟩ ∈ calls := by
  simp [asked]

/-- The bits that a sequence of calls leaves. -/
theorem foldl_addBit (bits : X86.RexBits) (calls : List Call) :
    calls.foldl addBit bits = {
      w := bits.w || asked calls .w
      r := bits.r || asked calls .r
      x := bits.x
      b := bits.b || (asked calls .x || asked calls .b) } := by
  induction calls generalizing bits with
  | nil => simp [asked]
  | cons c calls ih =>
    obtain ⟨setter, arg⟩ := c
    rw [List.foldl_cons, ih]
    cases setter <;> cases arg <;> simp [addBit, asked_cons, Bool.or_comm]

/-- `value()` on a builder with these bits. -/
theorem value_low (bits : X86.RexBits) :
    value ⟨low bits⟩ = if bits.w || bits.r || bits.x || bits.b then X86.rexByte bits else 0 := by
  obtain ⟨w, r, x, b⟩ := bits
  decide +revert

/-- The bits that the calls leave in a fresh builder. -/
def left (calls : List Call) : X86.RexBits where
  w := asked calls .w
  r := asked calls .r
  x := false
  b := asked calls .x || asked calls .b

/-- A bit was asked for when some argument was true. -/
theorem any_asked (calls : List Call) :
    (asked calls .w || asked calls .r || asked calls .x || asked calls .b) = true ↔
      ∃ c ∈ calls, c.arg = true := by
  simp only [Bool.or_eq_true, asked_eq_true]
  constructor
  · rintro (((h | h) | h) | h) <;> exact ⟨_, h, rfl⟩
  · rintro ⟨⟨setter, arg⟩, hc, rfl⟩
    cases setter <;> simp [hc]

/-- The prefix after any calls: the bits of W and R as they were asked for, and that of B when
    X or B was. -/
theorem value_build (calls : List Call) :
    (build calls).value = if ∃ c ∈ calls, c.arg = true then X86.rexByte (left calls) else 0 := by
  have hbits : build calls = ⟨low (left calls)⟩ := by
    show calls.foldl apply ⟨low ⟨false, false, false, false⟩⟩ = _
    rw [foldl_apply_low, foldl_addBit]
    simp only [Bool.false_or]
    rfl
  have hany : ((left calls).w || (left calls).r || (left calls).x || (left calls).b) = true ↔
      ∃ c ∈ calls, c.arg = true := by
    rw [← any_asked]
    simp only [left, Bool.or_false, Bool.or_assoc]
  rw [hbits, value_low]
  simp only [hany]

/-! ## Specified prefixes -/

/-- The bit of a setter. -/
def bit (bits : X86.RexBits) : Setter → Bool
  | .w => bits.w
  | .r => bits.r
  | .x => bits.x
  | .b => bits.b

/-- Each setter finds its bit in the prefix. -/
theorem getLsbD_rexByte (bits : X86.RexBits) (s : Setter) :
    (X86.rexByte bits).getLsbD s.index = bit bits s := by
  obtain ⟨w, r, x, b⟩ := bits
  cases s <;> decide +revert

theorem nibble_rexByte (bits : X86.RexBits) :
    (X86.rexByte bits).extractLsb' 4 4 = 0b0100#4 := by
  obtain ⟨w, r, x, b⟩ := bits
  decide +revert

/-- After calls that ask for a bit, a prefix is the specified one when it has the bits that were
    asked for. -/
theorem specified_rexByte {calls : List Call} (h : ∃ c ∈ calls, c.arg = true)
    (bits : X86.RexBits) :
    Specified calls (X86.rexByte bits) ↔ ∀ s, bit bits s = asked calls s := by
  rw [Specified, if_pos h, and_iff_right (nibble_rexByte bits)]
  apply forall_congr'
  intro s
  rw [getLsbD_rexByte, ← asked_eq_true]
  exact Bool.eq_iff_iff.symm

/-- The prefix is the specified one exactly when the bit of X was never asked for. -/
private theorem specified_build (calls : List Call) :
    Specified calls (build calls).value ↔ ⟨.x, true⟩ ∉ calls := by
  rw [value_build, ← asked_eq_true, Bool.not_eq_true]
  by_cases hany : ∃ c ∈ calls, c.arg = true
  · rw [if_pos hany, specified_rexByte hany]
    constructor
    · intro h
      -- The builder never sets the bit of X.
      exact (h .x).symm
    · intro hx s
      cases s with
      | w => rfl
      | r => rfl
      | x => exact hx.symm
      | b =>
        show (asked calls .x || asked calls .b) = asked calls .b
        rw [hx, Bool.false_or]
  · -- Nothing was asked for.
    have hx : asked calls .x = false := by
      rw [← Bool.not_eq_true, asked_eq_true]
      exact fun hx => hany ⟨_, hx, rfl⟩
    rw [if_neg hany, Specified, if_neg hany]
    exact iff_of_true rfl hx

/-- Calls in another order give the same prefix. -/
private theorem value_build_perm {calls calls' : List Call} (h : calls.Perm calls') :
    (build calls).value = (build calls').value := by
  have hasked : ∀ s, asked calls s = asked calls' s := by
    intro s
    rw [Bool.eq_iff_iff, asked_eq_true, asked_eq_true, h.mem_iff]
  have hleft : left calls = left calls' := by
    simp only [left, hasked]
  have hany : (∃ c ∈ calls, c.arg = true) ↔ ∃ c ∈ calls', c.arg = true := by
    simp only [h.mem_iff]
  rw [value_build, value_build, hleft]
  simp only [hany]

/-- After any calls on a fresh builder, `value()` is the specified prefix exactly when no call of
    `x` had a true argument, and calls in another order always give the same value. -/
theorem specified_iff (calls : List Call) :
    (Specified calls (build calls).value ↔ ⟨.x, true⟩ ∉ calls) ∧
      ∀ calls', calls.Perm calls' → (build calls).value = (build calls').value :=
  ⟨specified_build calls, fun _ => value_build_perm⟩

/-- Asking for W and B, in either order, and once more for W. -/
theorem specified_wb :
    Specified [⟨.w, true⟩, ⟨.b, true⟩, ⟨.w, true⟩]
        (build [⟨.w, true⟩, ⟨.b, true⟩, ⟨.w, true⟩]).value ∧
      (build [⟨.w, true⟩, ⟨.b, true⟩, ⟨.w, true⟩]).value =
        (build [⟨.b, true⟩, ⟨.w, true⟩, ⟨.w, true⟩]).value :=
  ⟨(specified_iff _).1.mpr (by decide), (specified_iff _).2 _ (.swap _ _ _)⟩

/-- A single call of `x` sets the bit of B. -/
theorem not_specified_x : ¬ Specified [⟨.x, true⟩] (build [⟨.x, true⟩]).value := by
  have hbit : (build [⟨.x, true⟩]).value.getLsbD Setter.x.index = false := rfl
  intro h
  rw [Specified, if_pos ⟨_, List.mem_cons_self, rfl⟩] at h
  rw [(h.2 .x).mpr List.mem_cons_self] at hbit
  cases hbit

end Fiskas.Rex

namespace Fiskas.MovRegToReg

/-- The encoder asks for W, R and B only, so its prefix is the specified one. -/
theorem rexPrefix_specified (m : MovRegToReg) :
    Rex.Specified [
      ⟨.w, max m.src.width.toUnderlying m.dst.width.toUnderlying = 64⟩,
      ⟨.r, requiresRexExtension m.src.name⟩,
      ⟨.b, requiresRexExtension m.dst.name⟩] m.rexPrefix := by
  apply (Rex.specified_build _).mpr
  simp

end Fiskas.MovRegToReg
