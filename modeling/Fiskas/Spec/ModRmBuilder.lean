import Fiskas.Native.Mov
import Fiskas.ForStd.Run

/-!
# The ModRM builder

A `ModRm` collects its three fields in a byte. The setters may be called in any order and any
number of times, and each checks its argument. A setter ORs its argument into the byte, so a
field that is set once reads back as it was set, and a field that is set again keeps the bits of
both values.

The byte is the OR of what the calls add to it (`build_eq`), and reading a field commutes with
that OR (`read_or`).

## Key results

- `build_outcome`: what any calls give
- `given_eq`: the fields that are set to one value only
- `MovRegToReg.modrmByte_build`: the encoder's calls
-/

namespace Fiskas.ModRm

/-! ## Calls -/

inductive Field where
  | mod | reg | rm
deriving DecidableEq, Repr

/-- The lowest bit of a field. -/
def Field.shift : Field → Nat
  | .mod => 6
  | .reg => 3
  | .rm => 0

/-- The biggest value of a field. -/
def Field.max : Field → U8
  | .mod => 0b11
  | .reg => 0b111
  | .rm => 0b111

/-- A call of a setter with its argument. -/
structure Call where
  field : Field
  arg : U8
deriving DecidableEq, Repr

/-- One call of a setter. -/
def apply (m : ModRm) (c : Call) : Except Abort ModRm :=
  match c.field with
  | .mod => m.mod c.arg
  | .reg => m.reg c.arg
  | .rm => m.rm c.arg

/-- A fresh builder after some calls. -/
def build (calls : List Call) : Except Abort ModRm := calls.foldlM apply {}

/-- The argument of the call fits its field. -/
def Call.fits (c : Call) : Bool := c.arg ≤ c.field.max

/-- How the assertion of a setter ends the process. -/
def Call.abort (c : Call) : Abort :=
  match c.field with
  | .mod => ⟨"Assertion: `value <= 3` failed.",
      "Mod value '" ++ toString c.arg.toNat ++ "' in ModRM byte can't be bigger than 0b11"⟩
  | .reg => ⟨"Assertion: `value <= 7` failed.",
      "Reg value '" ++ toString c.arg.toNat ++ "' in ModRM byte can't be bigger than 0b111"⟩
  | .rm => ⟨"Assertion: `value <= 7` failed.",
      "r/m value '" ++ toString c.arg.toNat ++ "' in ModRM byte can't be bigger than 0b111"⟩

/-- A field of a ModRM byte. -/
def read (f : Field) (byte : U8) : U8 := (byte >>> f.shift) &&& f.max

/-- The values that some calls give to a field, ORed. -/
def given (f : Field) : List Call → U8
  | [] => 0
  | c :: calls => (if c.field = f then c.arg else 0) ||| given f calls

/-! ## The byte -/

/-- The three setters in one form. -/
theorem apply_eq (m : ModRm) (c : Call) :
    apply m c =
      if c.fits then .ok ⟨m.byte ||| c.arg <<< c.field.shift⟩ else .error c.abort := by
  have hsetter : ∀ (cond : Bool) (text helperMsg : String) (byte : U8),
      (do fiskaAssert cond text helperMsg; return { byte := byte } : Except Abort ModRm) =
        if cond then .ok ⟨byte⟩ else .error ⟨"Assertion: `" ++ text ++ "` failed.", helperMsg⟩ := by
    intro cond text helperMsg byte
    cases cond <;> rfl
  obtain ⟨field, arg⟩ := c
  cases field with
  | mod => exact hsetter _ _ _ _
  | reg => exact hsetter _ _ _ _
  | rm =>
    rw [Field.shift, BitVec.shiftLeft_zero]
    exact hsetter _ _ _ _

/-- A call whose argument fits ORs it into the byte. -/
theorem apply_of_fits {c : Call} (m : ModRm) (h : c.fits = true) :
    apply m c = .ok ⟨m.byte ||| c.arg <<< c.field.shift⟩ := by
  rw [apply_eq, if_pos h]

/-- A call whose argument does not fit aborts. -/
theorem apply_of_not_fits {c : Call} (m : ModRm) (h : c.fits = false) :
    apply m c = .error c.abort := by
  rw [apply_eq, h, if_neg Bool.false_ne_true]

/-- The bits that some calls set. -/
def added : List Call → U8
  | [] => 0#8
  | c :: calls => c.arg <<< c.field.shift ||| added calls

/-- Calls whose arguments fit OR them all into the byte. -/
theorem foldlM_apply {calls : List Call} (h : ∀ c ∈ calls, c.fits = true) (m : ModRm) :
    calls.foldlM apply m = .ok ⟨m.byte ||| added calls⟩ := by
  induction calls generalizing m with
  | nil =>
    rw [List.foldlM_nil, added, BitVec.or_zero]
    rfl
  | cons c calls ih =>
    obtain ⟨hc, hcalls⟩ := List.forall_mem_cons.mp h
    rw [List.foldlM_cons, apply_of_fits m hc, Except.ok_bind', ih hcalls, added, BitVec.or_assoc]

/-- A fresh builder after calls whose values fit. -/
theorem build_eq {calls : List Call} (h : ∀ c ∈ calls, c.fits = true) :
    build calls = .ok ⟨added calls⟩ := by
  have hzero : 0#8 ||| added calls = added calls := BitVec.zero_or
  rw [build, foldlM_apply h]
  exact congrArg (fun byte => Except.ok (ModRm.mk byte)) hzero

/-- The calls end with the first one whose value does not fit. -/
theorem foldlM_apply_append {calls rest : List Call} {c : Call} (m : ModRm)
    (h : ∀ c ∈ calls, c.fits = true) (hc : c.fits = false) :
    (calls ++ c :: rest).foldlM apply m = .error c.abort := by
  rw [List.foldlM_append, foldlM_apply h, Except.ok_bind', List.foldlM_cons,
    apply_of_not_fits _ hc]
  rfl

/-- Calls in another order set the same bits. -/
theorem added_perm {calls calls' : List Call} (h : calls.Perm calls') :
    added calls = added calls' := by
  induction h with
  | nil => rfl
  | cons c _ ih => rw [added, added, ih]
  | swap c c' calls =>
    simp only [added]
    rw [← BitVec.or_assoc, ← BitVec.or_assoc, BitVec.or_comm (c'.arg <<< _)]
  | trans _ _ ih ih' => exact ih.trans ih'

/-! ## The fields -/

/-- Reading a field commutes with OR. -/
theorem read_or (f : Field) (a b : U8) : read f (a ||| b) = read f a ||| read f b := by
  unfold read
  rw [BitVec.ushiftRight_or_distrib, BitVec.and_comm, BitVec.and_or_distrib_left,
    BitVec.and_comm f.max, BitVec.and_comm f.max]

/-- A value that fits its field leaves the two other fields alone. -/
theorem read_arg {c : Call} (f : Field) (h : c.fits = true) :
    read f (c.arg <<< c.field.shift) = if c.field = f then c.arg else 0 := by
  obtain ⟨field, arg⟩ := c
  cases field <;> cases f <;> decide +revert

/-- A field of the result is the OR of the arguments that were given for it. -/
theorem read_added {calls : List Call} (f : Field) (h : ∀ c ∈ calls, c.fits = true) :
    read f (added calls) = given f calls := by
  induction calls with
  | nil => cases f <;> rfl
  | cons c calls ih =>
    obtain ⟨hc, hcalls⟩ := List.forall_mem_cons.mp h
    rw [added, read_or, read_arg f hc, ih hcalls, given]

/-- A field that is given one value only, any number of times, reads back as that value. -/
theorem given_eq {f : Field} {v : U8} {calls : List Call} (hmem : ⟨f, v⟩ ∈ calls)
    (h : ∀ c ∈ calls, c.field = f → c.arg = v) : given f calls = v := by
  -- Behind the first such call the others add no bit.
  have hsub : ∀ calls' : List Call, (∀ c ∈ calls', c.field = f → c.arg = v) →
      v ||| given f calls' = v := by
    intro calls' h'
    induction calls' with
    | nil => exact BitVec.or_zero
    | cons c calls' ih =>
      obtain ⟨hc, hcalls⟩ := List.forall_mem_cons.mp h'
      by_cases hf : c.field = f
      · rw [given, if_pos hf, hc hf, ← BitVec.or_assoc, BitVec.or_self, ih hcalls]
      · rw [given, if_neg hf]
        exact (congrArg (v ||| ·) BitVec.zero_or).trans (ih hcalls)
  induction calls with
  | nil => cases hmem
  | cons c calls ih =>
    obtain ⟨hc, hcalls⟩ := List.forall_mem_cons.mp h
    by_cases hf : c.field = f
    · rw [given, if_pos hf, hc hf, hsub calls hcalls]
    · have hmem' : ⟨f, v⟩ ∈ calls := by
        cases hmem with
        | head => exact absurd rfl hf
        | tail _ hmem => exact hmem
      rw [given, if_neg hf]
      exact BitVec.zero_or.trans (ih hmem' hcalls)

/-! ## Any calls -/

/-- The calls before the first one whose value does not fit. -/
theorem append_of_find? {calls : List Call} {c : Call}
    (h : calls.find? (fun c => !c.fits) = some c) :
    c.fits = false ∧ ∃ before after, calls = before ++ c :: after ∧
      ∀ c ∈ before, c.fits = true := by
  obtain ⟨hc, before, after, hcalls, hbefore⟩ := List.find?_eq_some_iff_append.mp h
  refine ⟨by simpa using hc, before, after, hcalls, ?_⟩
  intro c hmem
  simpa using hbefore c hmem

/-- On a fresh builder, any calls end with the first one whose value does not fit its field, with
    the message of its setter. When all fit, each field of `value()` is the OR of the values that
    it was given, and the calls may come in any order. -/
theorem build_outcome (calls : List Call) :
    match calls.find? (fun c => !c.fits) with
    | some c => build calls = .error c.abort
    | none => ∃ m, build calls = .ok m ∧ (∀ f, read f m.value = given f calls) ∧
        ∀ calls', calls.Perm calls' → build calls' = .ok m := by
  cases hfind : calls.find? (fun c => !c.fits) with
  | some c =>
    -- The calls before that one leave a builder, and it aborts on that.
    obtain ⟨hc, before, after, rfl, hbefore⟩ := append_of_find? hfind
    exact foldlM_apply_append {} hbefore hc
  | none =>
    have hfits : ∀ c ∈ calls, c.fits = true := by
      intro c hmem
      simpa using List.find?_eq_none.mp hfind c hmem
    refine ⟨⟨added calls⟩, build_eq hfits, fun f => read_added f hfits, ?_⟩
    -- In another order the same bits are ORed.
    intro calls' hperm
    have hfits' : ∀ c ∈ calls', c.fits = true := fun c hmem => hfits c (hperm.mem_iff.mpr hmem)
    rw [build_eq hfits', added_perm hperm]

end Fiskas.ModRm

namespace Fiskas.MovRegToReg

open ModRm (Call build read)

/-- The calls that the encoder makes. -/
def modrmCalls (m : MovRegToReg) : List Call := [
  ⟨.mod, ModRm.registerAddressing⟩,
  ⟨.rm, indexOfRegName m.dst.name⟩,
  ⟨.reg, indexOfRegName m.src.name⟩]

/-- The encoder builds its ModRM byte by such calls. -/
theorem modrmByte_eq_build (m : MovRegToReg) :
    m.modrmByte = (build m.modrmCalls).map ModRm.value := by
  show (do
    let modrm ← ({} : ModRm).mod ModRm.registerAddressing
    let modrm ← modrm.rm (indexOfRegName m.dst.name)
    let modrm ← modrm.reg (indexOfRegName m.src.name)
    return modrm.value) = _
  simp only [build, modrmCalls, List.foldlM_cons, List.foldlM_nil, ModRm.apply]
  cases ({} : ModRm).mod ModRm.registerAddressing with
  | error e => rfl
  | ok modrm =>
    simp only [Except.ok_bind']
    cases modrm.rm (indexOfRegName m.dst.name) with
    | error e => rfl
    | ok modrm =>
      simp only [Except.ok_bind']
      cases modrm.reg (indexOfRegName m.src.name) <;> rfl

/-- Every index fits its field, so the encoder's byte has the three fields it was given. -/
theorem modrmByte_fields (m : MovRegToReg) :
    ∃ byte, m.modrmByte = .ok byte ∧ read .mod byte = 0b11 ∧
      read .reg byte = indexOfRegName m.src.name ∧ read .rm byte = indexOfRegName m.dst.name := by
  have hfits : ∀ c ∈ m.modrmCalls, c.fits = true := by
    obtain ⟨⟨dst, _⟩, ⟨src, _⟩⟩ := m
    simp only [modrmCalls, List.forall_mem_cons]
    refine ⟨rfl, ?_, ?_, by simp⟩
    · cases dst <;> rfl
    · cases src <;> rfl
  refine ⟨ModRm.added m.modrmCalls, ?_, ?_, ?_, ?_⟩
  · rw [modrmByte_eq_build, ModRm.build_eq hfits]
    rfl
  all_goals
    rw [ModRm.read_added _ hfits]
    apply ModRm.given_eq <;> simp [modrmCalls, ModRm.registerAddressing]

end Fiskas.MovRegToReg
