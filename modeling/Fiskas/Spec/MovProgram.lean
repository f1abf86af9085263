import Fiskas.Spec.MovDecode
import Fiskas.Spec.MovParser

/-!
# From source text to machine code

Successive calls of the mov parser read a row of statements (`statements_of_calls`,
`calls_of_statements`). The table of register names holds the 64-bit registers only, so every
move that was parsed is accepted, is encoded with a REX prefix and is decoded to itself
(`statements_decode`). What the text means is said without that table: a `WrittenMov` names its
registers by the spellings of the architecture, and the bytes are decoded to the moves that are
written (`source_decodes`).

The way back is closed: the spellings that `str_of_reg_name` prints are not in the table, so
no printed move is ever parsed (`parse_printed_iff`).

## Key results

- `source_decodes`: the machine code of a source is decoded to the moves that it writes
- `parse_printed_iff`: which printed programs are parsed again
-/

namespace Fiskas

/-! ## Rows of statements -/

namespace MovInstructionParser

/-- Calls that all return moved over a row of statements and return their moves. -/
theorem statements_of_calls {n : Nat} {p p' : Parser} {instrs : List MovInstruction}
    (h : Run.calls parse n p = .ok (instrs, p')) :
    ∃ stmts : List MovStatement, stmts.length = n ∧
      instrs = stmts.map (fun s => .regToReg s.instr) ∧
      Moved p p' (stmts.flatMap MovStatement.text) := by
  induction n generalizing p instrs with
  | zero =>
    simp only [Run.calls_zero, Except.ok.injEq, Prod.mk.injEq] at h
    obtain ⟨rfl, rfl⟩ := h
    exact ⟨[], rfl, rfl, .refl p⟩
  | succ n ih =>
    obtain ⟨r, q, rs, hcall, hrun, rfl⟩ := Run.calls_succ_eq_ok.mp h
    obtain ⟨s, rfl, hm₁⟩ := statement_of_parse hcall
    obtain ⟨stmts, hlen, rfl, hm₂⟩ := ih hrun
    refine ⟨s :: stmts, by rw [List.length_cons, hlen], rfl, ?_⟩
    rw [List.flatMap_cons]
    exact hm₁.trans hm₂

/-- A row of statements is parsed to its moves, whatever follows it. -/
theorem calls_of_statements {p : Parser} {rest : ByteVec} (stmts : List MovStatement)
    (hp : p.rest = stmts.flatMap MovStatement.text ++ rest) :
    ∃ p' : Parser, Run.calls parse stmts.length p =
      .ok (stmts.map fun s => .regToReg s.instr, p') := by
  induction stmts generalizing p with
  | nil => exact ⟨p, rfl⟩
  | cons s stmts ih =>
    rw [List.flatMap_cons, List.append_assoc] at hp
    obtain ⟨q, hcall, hm⟩ := parse_of_statement s hp
    -- The first call stopped right in front of the other statements.
    have hq : Cursor.rest q = stmts.flatMap MovStatement.text ++ rest := by
      rw [hm.2.2] at hp
      exact List.append_cancel_left hp
    obtain ⟨p', hrun⟩ := ih hq
    exact ⟨p', Run.calls_succ_eq_ok.mpr ⟨_, q, _, hcall, hrun, rfl⟩⟩

end MovInstructionParser

/-! ## Moves that were parsed -/

/-- The table of register names holds 64-bit registers only. -/
theorem bitWidth_of_known {text : ByteVec} {r : RegName} (h : regnames.find text = some r) :
    bitWidthOfRegName r = .b64 := by
  have hall : ∀ e ∈ regnames, bitWidthOfRegName e.2 = .b64 := by decide +kernel
  exact hall (text, r) (StringMap.mem_of_find h)

namespace MovStatement

/-- The move of a statement is accepted. -/
theorem accepted (s : MovStatement) : s.instr.validateSemantics = .ok () := by
  rw [MovRegToReg.validateSemantics_eq_ok_iff]
  simp [instr, bitWidth_of_known s.dst_known, bitWidth_of_known s.src_known]

/-- The accepted move of a statement. -/
def toValid (s : MovStatement) : ValidMov := ⟨s.instr, rfl, rfl, s.accepted⟩

/-- The move of a statement is decoded to itself. -/
theorem decoded (s : MovStatement) : s.toValid.decoded = some s.toValid.toX86 := by
  have hdst : bitWidthOfRegName s.toValid.dst = .b64 := bitWidth_of_known s.dst_known
  have hsrc : bitWidthOfRegName s.toValid.src = .b64 := bitWidth_of_known s.src_known
  have hgpr : ∀ r, bitWidthOfRegName r = .b64 → isSegmentRegister r = false := by
    intro r h
    rw [RegName.isSegmentRegister_eq_false_iff, h]
    decide
  rw [ValidMov.decoded_gpr_iff (hgpr _ hdst) (hgpr _ hsrc)]
  exact ⟨Or.inl hsrc, ValidMov.not_spl_of_width (by rw [hsrc]; decide),
    ValidMov.not_spl_of_width (by rw [hdst]; decide)⟩

end MovStatement

/-- The concatenation of the `encode()` outputs of a list of parsed instructions. -/
def encodeInstructions (instrs : List MovInstruction) : Except Abort ByteVec := do
  let outputs ← instrs.mapM MovInstruction.encode
  return outputs.flatten

/-- Parsed instructions are register to register moves. -/
theorem encodeInstructions_eq (stmts : List MovStatement) :
    encodeInstructions (stmts.map fun s => .regToReg s.instr) =
      encodeAll ((stmts.map MovStatement.toValid).map ValidMov.instr) := by
  rw [encodeInstructions, encodeAll, List.mapM_map, List.mapM_map, List.mapM_map]
  rfl

/-- Statements with the same moves have the same accepted moves. -/
private theorem toValid_eq_of_instr {l l' : List MovStatement}
    (h : l.map (fun s => MovInstruction.regToReg s.instr) =
      l'.map fun s => MovInstruction.regToReg s.instr) :
    l.map MovStatement.toValid = l'.map MovStatement.toValid := by
  -- The widths follow from the names, so an instruction determines its accepted move.
  have hinj : Function.Injective fun m : ValidMov => MovInstruction.regToReg m.instr := by
    intro m m' hm
    have hinstr : m.instr = m'.instr := MovInstruction.regToReg.inj hm
    exact ValidMov.ext_names (congrArg (·.dst.name) hinstr) (congrArg (·.src.name) hinstr)
  apply List.map_injective_iff.mpr hinj
  rw [List.map_map, List.map_map]
  exact h

/-- When `n` calls of the parser return, the source has `n` statements at the cursor, every
    instruction is encoded, and the bytes are decoded to the moves of any `n` statements that
    stand there. -/
private theorem statements_decode {n : Nat} {p p' : Parser} {instrs : List MovInstruction}
    (h : Run.calls MovInstructionParser.parse n p = .ok (instrs, p')) :
    (∀ instr ∈ instrs, ∃ bytes, instr.encode = .ok bytes) ∧
      (∃ (stmts : List MovStatement) (rest : ByteVec), stmts.length = n ∧
        p.rest = stmts.flatMap MovStatement.text ++ rest) ∧
      ∃ bytes, encodeInstructions instrs = .ok bytes ∧
        ∀ (stmts : List MovStatement) (rest : ByteVec), stmts.length = n →
          p.rest = stmts.flatMap MovStatement.text ++ rest →
          X86.decodeAll bytes = some (stmts.map fun s => s.toValid.toX86) := by
  obtain ⟨stmts, hlen, rfl, hmoved⟩ := MovInstructionParser.statements_of_calls h
  refine ⟨?_, ⟨stmts, _, hlen, hmoved.2.2⟩, ?_⟩
  · intro instr hinstr
    obtain ⟨s, _, rfl⟩ := List.mem_map.mp hinstr
    exact ⟨_, s.toValid.encode_eq_bytes⟩
  · rw [encodeInstructions_eq]
    refine ⟨_, encodeAll_valid _, fun stmts' rest hlen' hrest => ?_⟩
    -- The parser is a function, so both rows of statements have the same moves.
    obtain ⟨q, hrun⟩ := MovInstructionParser.calls_of_statements stmts' hrest
    rw [hlen', h] at hrun
    have hsame : stmts.map MovStatement.toValid = stmts'.map MovStatement.toValid := by
      exact toValid_eq_of_instr (Prod.mk.inj (Except.ok.inj hrun)).1
    -- Each move is decoded to itself, so the whole program is.
    obtain ⟨bytes, henc, hdec⟩ := (program_decodes_iff (stmts'.map MovStatement.toValid)).mpr
      (fun m hm => by
        obtain ⟨s, _, rfl⟩ := List.mem_map.mp hm
        exact s.decoded)
    rw [encodeAll_valid] at henc
    rw [hsame, Except.ok.inj henc, hdec, List.map_map]
    rfl

/-! ## Moves as they are written -/

/-- A move as a source writes it: two 64-bit general registers, each by the name that the
    architecture has for it, with white space around the tokens. -/
structure WrittenMov where
  layout : MovLayout
  dst : BitVec 4
  src : BitVec 4

namespace WrittenMov

/-- The text of a written move, its destination in front of its source. -/
def text (w : WrittenMov) : ByteVec :=
  w.layout.text (str (X86.gpr64Name w.dst)) (str (X86.gpr64Name w.src))

/-- The 64-bit move that is written. -/
def toX86 (w : WrittenMov) : X86.Mov := ⟨.gpr64 w.dst, .gpr64 w.src⟩

/-- A written move is a statement of the grammar, with the same meaning. -/
theorem exists_statement (w : WrittenMov) :
    ∃ s : MovStatement, s.text = w.text ∧ s.toValid.toX86 = w.toX86 := by
  obtain ⟨dst, hdst, hdstNum⟩ := RegName.exists_find_gpr64Name w.dst
  obtain ⟨src, hsrc, hsrcNum⟩ := RegName.exists_find_gpr64Name w.src
  refine ⟨⟨w.layout, _, _, dst, src, hdst, hsrc⟩, rfl, ?_⟩
  show X86.Mov.mk dst.toX86 src.toX86 = ⟨.gpr64 w.dst, .gpr64 w.src⟩
  rw [hdstNum, hsrcNum]

end WrittenMov

/-- A statement of the grammar is a written move, with the same meaning. -/
theorem MovStatement.exists_written (s : MovStatement) :
    ∃ w : WrittenMov, w.text = s.text ∧ w.toX86 = s.toValid.toX86 := by
  obtain ⟨layout, dstText, srcText, dst, src, hdst, hsrc⟩ := s
  obtain ⟨dstNum, rfl, hdstNum⟩ := RegName.find_regnames_iff.mp hdst
  obtain ⟨srcNum, rfl, hsrcNum⟩ := RegName.find_regnames_iff.mp hsrc
  refine ⟨⟨layout, dstNum, srcNum⟩, rfl, ?_⟩
  show X86.Mov.mk (.gpr64 dstNum) (.gpr64 srcNum) = ⟨dst.toX86, src.toX86⟩
  rw [hdstNum, hsrcNum]

/-- The machine code of a source: when `n` calls of the parser return, `n` moves are written at
    the cursor, every instruction is encoded, and the bytes are decoded to the 64-bit moves
    between the registers that are written there. -/
theorem source_decodes {n : Nat} {p p' : Parser} {instrs : List MovInstruction}
    (h : Run.calls MovInstructionParser.parse n p = .ok (instrs, p')) :
    (∀ instr ∈ instrs, ∃ bytes, instr.encode = .ok bytes) ∧
      (∃ (moves : List WrittenMov) (rest : ByteVec), moves.length = n ∧
        p.rest = moves.flatMap WrittenMov.text ++ rest) ∧
      ∃ bytes, encodeInstructions instrs = .ok bytes ∧
        ∀ (moves : List WrittenMov) (rest : ByteVec), moves.length = n →
          p.rest = moves.flatMap WrittenMov.text ++ rest →
          X86.decodeAll bytes = some (moves.map WrittenMov.toX86) := by
  obtain ⟨henc, ⟨stmts, rest, hlen, hrest⟩, bytes, hbytes, hdec⟩ := statements_decode h
  refine ⟨henc, ?_, bytes, hbytes, fun moves rest' hlen' hrest' => ?_⟩
  · -- Every statement that was read is a written move.
    choose written htext _ using MovStatement.exists_written
    refine ⟨stmts.map written, rest, by rw [List.length_map, hlen], ?_⟩
    rw [List.flatMap_map, hrest]
    simp only [htext]
  · -- Whatever moves are written there, they are statements, and these are what is decoded.
    choose statement htext hmove using WrittenMov.exists_statement
    have hstmts : p.rest = (moves.map statement).flatMap MovStatement.text ++ rest' := by
      rw [List.flatMap_map, hrest']
      simp only [htext]
    rw [hdec _ rest' (by rw [List.length_map, hlen']) hstmts, List.map_map]
    exact congrArg some (List.map_congr_left fun w _ => hmove w)

/-- Two statements with an extended register in each position. -/
theorem source_decodes_r9 :
    ∃ bytes, encodeInstructions [.regToReg ⟨⟨.rax, .b64⟩, ⟨.r9, .b64⟩⟩,
        .regToReg ⟨⟨.r15, .b64⟩, ⟨.rsp, .b64⟩⟩] = .ok bytes ∧
      X86.decodeAll bytes = some [⟨.gpr64 0, .gpr64 9⟩, ⟨.gpr64 15, .gpr64 4⟩] := by
  have hrun : Run.calls MovInstructionParser.parse 2 { source := str "(rax,r9); (r15 , rsp);" } =
      .ok ([.regToReg ⟨⟨.rax, .b64⟩, ⟨.r9, .b64⟩⟩, .regToReg ⟨⟨.r15, .b64⟩, ⟨.rsp, .b64⟩⟩],
        { source := str "(rax,r9); (r15 , rsp);", curr := 22, prev := chr ';' }) := by
    decide +kernel
  let first : WrittenMov := ⟨⟨[], [], [], [], [], [], by decide⟩, 0, 9⟩
  let second : WrittenMov := ⟨⟨str " ", [], str " ", str " ", [], [], by decide⟩, 15, 4⟩
  obtain ⟨-, -, bytes, hbytes, hdec⟩ := source_decodes hrun
  exact ⟨bytes, hbytes, hdec [first, second] [] rfl (by decide +kernel)⟩

/-! ## Printed programs -/

/-- The text of a move: its registers as `str_of_reg_name` spells them. -/
def printed (w : MovLayout) (m : MovRegToReg) : ByteVec :=
  w.text (strOfRegName m.dst.name) (strOfRegName m.src.name)

/-- The text of a program, each move with white space of its own. -/
def printedProgram (l : List (MovLayout × ValidMov)) : ByteVec :=
  l.flatMap fun e => printed e.1 e.2.instr

/-- Every printed register name is an identifier. -/
theorem identifier_of_printed (r : RegName) :
    TokenKind.identifier.Matches (strOfRegName r) := by
  have hall : ∀ r, (strOfRegName r).head?.any Cursor.isIdentStart = true ∧
      (strOfRegName r).tail.all Cursor.isIdentContinue = true ∧ strOfRegName r ≠ str "fn" := by
    decide +kernel
  obtain ⟨hstart, hcont, hfn⟩ := hall r
  exact Parser.identifier_of_all hstart hcont hfn

/-- No printed register name is in the table: it has capital letters and the table has none. -/
theorem regnames_find_printed (r : RegName) : regnames.find (strOfRegName r) = none := by
  revert r
  decide +kernel

/-- The parser aborts on a printed move, at its destination. -/
theorem parse_printed_ne_ok {p p' : Parser} {r : MovInstruction} {w : MovLayout}
    {m : MovRegToReg} {rest : ByteVec} (hp : p.rest = printed w m ++ rest) :
    MovInstructionParser.parse p ≠ .ok (r, p') := by
  obtain ⟨g₀, g₁, g₂, g₃, g₄, g₅, hws⟩ := w
  simp only [printed, MovLayout.text, List.append_assoc] at hp
  obtain ⟨p₁, hopen, _, hr₁⟩ := Parser.consumePnc_of_punct Parser.isPunct_leftParen
    (hws g₀ (by simp)) hp
  obtain ⟨p₂, _, _, hcall⟩ := Parser.nextRegister_of_word hr₁ (hws g₁ (by simp))
    (identifier_of_printed _) (Parser.stops_punct (hws g₂ (by simp)) (by decide) rfl)
  intro h
  simp only [MovInstructionParser.parse, hopen, Parser.consumePnc_nil, Except.ok_bind',
    Except.bind_eq_ok, Prod.exists] at h
  obtain ⟨reg, q, hreg, _⟩ := h
  -- The call could only have returned if the lookup of the destination had.
  cases hname : regNameOfStrPnc (strOfRegName m.dst.name) with
  | error a =>
    rw [hcall, hname] at hreg
    cases hreg
  | ok name =>
    rw [Parser.regNameOfStrPnc_eq_ok, regnames_find_printed] at hname
    cases hname

/-- A printed program is parsed to its own moves only when it has none. -/
theorem parse_printed_iff (l : List (MovLayout × ValidMov)) :
    (∃ p', Run.calls MovInstructionParser.parse l.length { source := printedProgram l } =
        .ok (l.map fun e => .regToReg e.2.instr, p')) ↔ l = [] := by
  constructor
  · rintro ⟨p', h⟩
    cases l with
    | nil => rfl
    | cons e l =>
      obtain ⟨r, q, rs, hcall, _⟩ := Run.calls_succ_eq_ok.mp h
      -- The first call aborts, so there is no run.
      have hp : Cursor.rest { source := printedProgram (e :: l) } =
          printed e.1 e.2.instr ++ printedProgram l := by
        show printedProgram (e :: l) = _
        rw [printedProgram, List.flatMap_cons]
        rfl
      exact absurd hcall (parse_printed_ne_ok hp)
  · rintro rfl
    exact ⟨_, rfl⟩

/-- Not every printed program is parsed to its own moves: the parser aborts on `(RAX,RBX);`. -/
theorem not_all_printed_parse :
    ¬ ∀ l : List (MovLayout × ValidMov),
      ∃ p', Run.calls MovInstructionParser.parse l.length { source := printedProgram l } =
        .ok (l.map fun e => .regToReg e.2.instr, p') := by
  intro h
  obtain ⟨p', h⟩ := h [(⟨[], [], [], [], [], [], by decide⟩, .ofNames .rax .rbx rfl)]
  have habort : (Run.calls MovInstructionParser.parse 1 { source := str "(RAX,RBX);" }).isOk =
      false := by decide +kernel
  have hsource : printedProgram
      [(⟨[], [], [], [], [], [], by decide⟩, ValidMov.ofNames .rax .rbx rfl)] =
        str "(RAX,RBX);" := rfl
  rw [hsource] at h
  rw [show Run.calls MovInstructionParser.parse 1 { source := str "(RAX,RBX);" } = _ from h]
    at habort
  cases habort

end Fiskas
