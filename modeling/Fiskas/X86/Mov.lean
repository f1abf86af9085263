/-!
# Decoding x86-64 register moves

The part of the x86-64 instruction format that moves between two registers need: an optional
REX prefix, one of the opcodes `88`, `89`, `8C`, `8E`, and a ModRM byte with `mod = 11`.

`decode` reads one instruction from the front of a byte stream and `decodeAll` reads a whole
stream. The main rule is `decodeAll_flatMap`: a stream that was written instruction by
instruction is decoded instruction by instruction.
-/

namespace X86

abbrev Byte := BitVec 8

/-! ## Registers and moves -/

/-- A register operand, with its number in the instruction format. -/
inductive Reg where
  | gpr64 (num : BitVec 4)
  | gpr32 (num : BitVec 4)
  /-- The low byte of a general register: AL, CL, DL, BL, SPL, BPL, SIL, DIL, R8B to R15B. -/
  | gpr8 (num : BitVec 4)
  /-- AH, CH, DH, BH. -/
  | high8 (num : BitVec 2)
  /-- ES, CS, SS, DS, FS, GS. -/
  | seg (num : BitVec 3)
deriving DecidableEq, Repr

structure Mov where
  dst : Reg
  src : Reg
deriving DecidableEq, Repr

/-- CS, which cannot be loaded by a move. -/
def cs : BitVec 3 := 1

/-! ## Spellings -/

/-- The names of the 64-bit general registers, in the order of their numbers. -/
def gpr64Names : Vector String 16 :=
  #v["rax", "rcx", "rdx", "rbx", "rsp", "rbp", "rsi", "rdi",
    "r8", "r9", "r10", "r11", "r12", "r13", "r14", "r15"]

/-- How the 64-bit general register with a given number is written. -/
def gpr64Name (num : BitVec 4) : String := gpr64Names.get num.toFin

/-! ## Instruction format -/

/-- The four low bits of a REX prefix. -/
structure RexBits where
  w : Bool
  r : Bool
  x : Bool
  b : Bool
deriving DecidableEq, Repr

/-- A REX prefix is `0100WRXB`. -/
def rexByte (rex : RexBits) : Byte :=
  0b0100#4 ++ (BitVec.ofBool rex.w ++ BitVec.ofBool rex.r ++ BitVec.ofBool rex.x ++
    BitVec.ofBool rex.b : BitVec 4)

def rexBits? (byte : Byte) : Option RexBits :=
  if byte.extractLsb' 4 4 = 0b0100#4 then
    some ⟨byte.getLsbD 3, byte.getLsbD 2, byte.getLsbD 1, byte.getLsbD 0⟩
  else
    none

/-- A ModRM byte with `mod = 11`: the register number `reg` above the register number `rm`. -/
def modrmByte (reg rm : BitVec 3) : Byte := (0b11#2 ++ reg ++ rm : BitVec 8)

/-- A three-bit register code with its REX extension bit as the fourth bit. -/
def extend (bit : Bool) (code : BitVec 3) : BitVec 4 := BitVec.ofBool bit ++ code

/-- An 8-bit operand. Without a REX prefix the codes 4 to 7 mean AH, CH, DH and BH. -/
def byteReg (hasRex bit : Bool) (code : BitVec 3) : Reg :=
  if hasRex ∨ code < 4 then .gpr8 (extend bit code) else .high8 (code.extractLsb' 0 2)

/-- A 32-bit or, with REX.W, a 64-bit operand. -/
def wordReg (w bit : Bool) (code : BitVec 3) : Reg :=
  if w then .gpr64 (extend bit code) else .gpr32 (extend bit code)

/-- The move that an opcode and the two ModRM codes stand for. REX.R plays no role where
    ModRM.reg names a segment register. -/
def operands (rex : Option RexBits) (opcode : Byte) (reg rm : BitVec 3) : Option Mov :=
  let bits := rex.getD ⟨false, false, false, false⟩
  if opcode = 0x88 then
    some ⟨byteReg rex.isSome bits.b rm, byteReg rex.isSome bits.r reg⟩
  else if opcode = 0x89 then
    some ⟨wordReg bits.w bits.b rm, wordReg bits.w bits.r reg⟩
  else if opcode = 0x8c then
    if reg < 6 then some ⟨wordReg bits.w bits.b rm, .seg reg⟩ else none
  else if opcode = 0x8e then
    if reg < 6 ∧ reg ≠ cs then some ⟨.seg reg, wordReg bits.w bits.b rm⟩ else none
  else
    none

/-- The opcode and the ModRM byte, after the prefix. -/
def decodeBody (rex : Option RexBits) : List Byte → Option (Mov × List Byte)
  | opcode :: modrm :: rest =>
    if modrm.extractLsb' 6 2 = 0b11#2 then
      (operands rex opcode (modrm.extractLsb' 3 3) (modrm.extractLsb' 0 3)).map (·, rest)
    else
      none
  | _ => none

/-- One instruction from the front of a byte stream, and the bytes after it. -/
def decode : List Byte → Option (Mov × List Byte)
  | [] => none
  | byte :: rest =>
    match rexBits? byte with
    | some rex => decodeBody (some rex) rest
    | none => decodeBody none (byte :: rest)

/-- `decodeAll` on a stream of at most `fuel` bytes. -/
def decodeAllFuel : Nat → List Byte → Option (List Mov)
  | _, [] => some []
  | 0, _ :: _ => none
  | fuel + 1, byte :: bytes =>
    match decode (byte :: bytes) with
    | some (mov, rest) => (decodeAllFuel fuel rest).map (mov :: ·)
    | none => none

/-- All instructions of a byte stream, with no byte left over. Every instruction takes at
    least one byte, so the length of the stream is fuel enough. -/
def decodeAll (bytes : List Byte) : Option (List Mov) := decodeAllFuel bytes.length bytes

/-! ## Fields of the two format bytes -/

@[simp] theorem rexBits?_rexByte (rex : RexBits) : rexBits? (rexByte rex) = some rex := by
  obtain ⟨w, r, x, b⟩ := rex
  cases w <;> cases r <;> cases x <;> cases b <;> rfl

@[simp] theorem modrmByte_mod (reg rm : BitVec 3) :
    (modrmByte reg rm).extractLsb' 6 2 = 0b11#2 := by
  decide +revert

@[simp] theorem modrmByte_reg (reg rm : BitVec 3) :
    (modrmByte reg rm).extractLsb' 3 3 = reg := by
  decide +revert

@[simp] theorem modrmByte_rm (reg rm : BitVec 3) :
    (modrmByte reg rm).extractLsb' 0 3 = rm := by
  decide +revert

/-- An extended register number determines the bit and the code. -/
theorem extend_inj {bit bit' : Bool} {code code' : BitVec 3} :
    extend bit code = extend bit' code' ↔ bit = bit' ∧ code = code' := by
  decide +revert

/-! ## One instruction -/

/-- Prefix, opcode and ModRM byte are decoded to the operands they were built from. -/
theorem decode_rexByte (rex : RexBits) (opcode : Byte) (reg rm : BitVec 3) (rest : List Byte) :
    decode (rexByte rex :: opcode :: modrmByte reg rm :: rest) =
      (operands (some rex) opcode reg rm).map (·, rest) := by
  simp [decode, decodeBody]

/-- The four opcodes are the only ones with operands. -/
theorem operands_eq_none {rex : Option RexBits} {opcode : Byte} {reg rm : BitVec 3}
    (hop : opcode ≠ 0x88 ∧ opcode ≠ 0x89 ∧ opcode ≠ 0x8c ∧ opcode ≠ 0x8e) :
    operands rex opcode reg rm = none := by
  obtain ⟨h88, h89, h8c, h8e⟩ := hop
  simp only [operands, if_neg h88, if_neg h89, if_neg h8c, if_neg h8e]

section

variable (rex : RexBits) (reg rm : BitVec 3)

theorem operands_88 : operands (some rex) 0x88 reg rm =
    some ⟨byteReg true rex.b rm, byteReg true rex.r reg⟩ := rfl

theorem operands_89 : operands (some rex) 0x89 reg rm =
    some ⟨wordReg rex.w rex.b rm, wordReg rex.w rex.r reg⟩ := rfl

theorem operands_8c : operands (some rex) 0x8c reg rm =
    if reg < 6 then some ⟨wordReg rex.w rex.b rm, .seg reg⟩ else none := rfl

theorem operands_8e : operands (some rex) 0x8e reg rm =
    if reg < 6 ∧ reg ≠ cs then some ⟨.seg reg, wordReg rex.w rex.b rm⟩ else none := rfl

end

/-- A byte that is neither a prefix nor one of the opcodes starts no instruction. -/
theorem decode_eq_none {byte : Byte} {rest : List Byte} (hrex : rexBits? byte = none)
    (hop : byte ≠ 0x88 ∧ byte ≠ 0x89 ∧ byte ≠ 0x8c ∧ byte ≠ 0x8e) :
    decode (byte :: rest) = none := by
  cases rest with
  | nil => simp [decode, decodeBody, hrex]
  | cons modrm rest =>
    simp only [decode, decodeBody, hrex, operands_eq_none hop, Option.map_none, ite_self]

/-- An instruction takes at least one byte. -/
theorem decode_length {bytes rest : List Byte} {mov : Mov} (h : decode bytes = some (mov, rest)) :
    rest.length < bytes.length := by
  -- Without its prefix an instruction takes two bytes.
  have hbody : ∀ rex body, decodeBody rex body = some (mov, rest) →
      rest.length < body.length := by
    intro rex body hb
    match body with
    | [] => simp [decodeBody] at hb
    | [_] => simp [decodeBody] at hb
    | opcode :: modrm :: tail =>
      simp only [decodeBody] at hb
      split at hb
      · obtain ⟨_, _, heq⟩ := Option.map_eq_some_iff.mp hb
        simp only [Prod.mk.injEq] at heq
        simp only [← heq.2, List.length_cons]
        omega
      · exact nomatch hb
  cases bytes with
  | nil => simp [decode] at h
  | cons byte tail =>
    simp only [decode] at h
    split at h
    · have := hbody _ _ h
      simp only [List.length_cons]
      omega
    · exact hbody _ _ h

/-! ## Streams -/

/-- More fuel than bytes changes nothing. -/
private theorem decodeAllFuel_eq (fuel : Nat) (bytes : List Byte) (hfuel : bytes.length ≤ fuel) :
    decodeAllFuel fuel bytes = decodeAll bytes := by
  -- Any two fuels that are large enough give the same: induction on the length of the stream,
  -- which every instruction makes shorter.
  suffices ∀ n bytes fuel fuel', bytes.length ≤ n → bytes.length ≤ fuel → bytes.length ≤ fuel' →
      decodeAllFuel fuel bytes = decodeAllFuel fuel' bytes from
    this bytes.length bytes fuel bytes.length (Nat.le_refl _) hfuel (Nat.le_refl _)
  intro n
  induction n with
  | zero =>
    intro bytes fuel fuel' hn _ _
    have : bytes = [] := List.length_eq_zero_iff.mp (by omega)
    subst this
    simp [decodeAllFuel]
  | succ n ih =>
    intro bytes fuel fuel' hn hf hf'
    match bytes, fuel, fuel' with
    | [], _, _ => simp [decodeAllFuel]
    | byte :: tail, fuel + 1, fuel' + 1 =>
      simp only [decodeAllFuel]
      cases hd : decode (byte :: tail) with
      | none => rfl
      | some p =>
        -- The rest is shorter, so one unit of fuel less is enough for it.
        have hlen := decode_length hd
        simp only [List.length_cons] at hn hf hf' hlen
        simp only [ih p.2 fuel fuel' (by omega) (by omega) (by omega)]

/-- A stream is its first instruction and the instructions of the rest. -/
theorem decodeAll_of_decode {bytes rest : List Byte} {mov : Mov}
    (h : decode bytes = some (mov, rest)) : decodeAll bytes = (decodeAll rest).map (mov :: ·) := by
  have hlen := decode_length h
  cases bytes with
  | nil => simp [decode] at h
  | cons byte tail =>
    simp only [List.length_cons] at hlen
    simp only [decodeAll, List.length_cons, decodeAllFuel, h]
    rw [decodeAllFuel_eq _ _ (by omega), decodeAll]

/-- A stream whose front is no instruction has no decoding. -/
theorem decodeAll_of_decode_none {bytes : List Byte} (hne : bytes ≠ [])
    (h : decode bytes = none) : decodeAll bytes = none := by
  cases bytes with
  | nil => exact absurd rfl hne
  | cons byte tail => simp [decodeAll, decodeAllFuel, h]

/-- The stream rule. When the bytes `enc i` decode, whatever follows them, to `dec i`, the
    bytes written for a list decode to the list of the `dec i`, and have no decoding as soon as
    one `enc i` has none. -/
theorem decodeAll_flatMap {ι : Type} {enc : ι → List Byte} {dec : ι → Option Mov} {l : List ι}
    (hne : ∀ i ∈ l, enc i ≠ [])
    (hdec : ∀ i ∈ l, ∀ rest, decode (enc i ++ rest) = (dec i).map (·, rest)) :
    decodeAll (l.flatMap enc) = l.mapM dec := by
  induction l with
  | nil => rfl
  | cons i l ih =>
    -- The first instruction, with the bytes of all others behind it.
    have hi := hdec i List.mem_cons_self (l.flatMap enc)
    have ih := ih (fun j hj => hne j (List.mem_cons_of_mem _ hj))
      (fun j hj => hdec j (List.mem_cons_of_mem _ hj))
    rw [List.flatMap_cons, List.mapM_cons]
    cases hd : dec i with
    | none =>
      rw [hd] at hi
      rw [decodeAll_of_decode_none (by simp [hne i List.mem_cons_self]) hi]
      rfl
    | some mov =>
      rw [hd] at hi
      rw [decodeAll_of_decode hi, ih]
      cases List.mapM dec l <;> rfl

/-- The stream decodes to a given list exactly when every instruction decodes to its move. -/
theorem decodeAll_flatMap_eq_some {ι : Type} {enc : ι → List Byte} {dec : ι → Option Mov}
    {f : ι → Mov} {l : List ι} (hne : ∀ i ∈ l, enc i ≠ [])
    (hdec : ∀ i ∈ l, ∀ rest, decode (enc i ++ rest) = (dec i).map (·, rest)) :
    decodeAll (l.flatMap enc) = some (l.map f) ↔ ∀ i ∈ l, dec i = some (f i) := by
  rw [decodeAll_flatMap hne hdec]
  -- What is left is about `mapM` alone.
  clear hne hdec
  induction l with
  | nil => simp
  | cons i l ih =>
    rw [List.mapM_cons, List.map_cons]
    cases hd : dec i with
    | none => simp [hd]
    | some mov =>
      simp only [Option.pure_def, Option.bind_eq_bind, Option.bind_some, List.mem_cons,
        forall_eq_or_imp, hd, Option.some.injEq]
      rw [← ih]
      cases List.mapM dec l <;> simp

end X86
