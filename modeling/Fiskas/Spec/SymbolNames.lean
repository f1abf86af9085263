import Fiskas.Spec.ElfSections

/-!
# Offsets of symbol names

`extract_syms_and_sym_strtab` casts the offset of each name to `u32`. A string table may be
longer than `2^32` bytes, and the record of a name that starts at or behind byte `2^32` then
refers to what stands `2^32` bytes, or a multiple of that, in front of it. That is the name
itself only by coincidence: when another name ends with it there.

## Key results

- `getElem?_symbolsOf`: the record of each symbol
- `namesResolve_iff`: when the records refer to the names
-/

namespace Fiskas

open Slice LittleEndian Elf64

/-- Where the name of a symbol starts: behind the empty name and the names before it. -/
def nameStart (code : Code) (i : Nat) : Nat :=
  1 + ((code.symbols.take i).map fun s => s.name.length + 1).sum

/-- The record of each symbol of the code refers to the name of that symbol: the string at its
    `st_name` in the string table. -/
def NamesResolve (code : Code) : Prop :=
  ∀ i s, code.symbols[i]? = some s → ∃ sym,
    (extractSymsAndSymStrtab code).1[i + 1]? = some sym ∧
      cString (extractSymsAndSymStrtab code).2.out sym.stName.toNat = some s.name

private theorem getElem?_symbolsFrom (offset : Nat) (ss : List Code.Symbol) (i : Nat) :
    (symbolsFrom offset ss)[i]? = ss[i]?.map
      (symbolAt (offset + ((ss.take i).map fun s => s.name.length + 1).sum)) := by
  induction ss generalizing offset i with
  | nil => rfl
  | cons s ss ih =>
    cases i with
    | zero => rfl
    | succ i =>
      rw [symbolsFrom, List.getElem?_cons_succ, ih, List.getElem?_cons_succ, List.take_succ_cons,
        List.map_cons, List.sum_cons, Nat.add_assoc]

/-- The record of a symbol has the place of its name. -/
theorem getElem?_symbolsOf {code : Code} {i : Nat} {s : Code.Symbol}
    (hi : code.symbols[i]? = some s) :
    (symbolsOf code)[i + 1]? = some (symbolAt (nameStart code i) s) := by
  rw [symbolsOf, List.getElem?_cons_succ, getElem?_symbolsFrom, hi]
  rfl

/-- Behind the names before it, a name is found at its place. -/
private theorem suffixAt_nameStart {code : Code} {i : Nat} {s : Code.Symbol}
    (hi : code.symbols[i]? = some s) :
    suffixAt (symbolNames code) (nameStart code i) = some s.name := by
  have hget : (symbolNames code)[i + 1]? = some s.name := by
    rw [symbolNames, List.getElem?_cons_succ, List.getElem?_map, hi]
    rfl
  have hstart : (((symbolNames code).take (i + 1)).map fun name => name.length + 1).sum =
      nameStart code i := by
    rw [symbolNames, List.take_succ_cons, List.map_cons, List.sum_cons, ← List.map_take,
      List.map_map]
    rfl
  rw [← hstart]
  exact suffixAt_start hget

/-- The offset that a record has room for. -/
private theorem toNat_stName (offset : Nat) (s : Code.Symbol) :
    (symbolAt offset s).stName.toNat = offset % 2 ^ 32 := by
  show ((BitVec.ofNat 64 offset).setWidth 32).toNat = _
  rw [BitVec.toNat_setWidth, BitVec.toNat_ofNat]
  omega

/-- The records of a code whose names have no zero bytes refer to the names exactly when each
    name starts below byte `2^32`, or else is what is left of the name that stands where its
    offset without the upper bits leads. -/
private theorem resolve_iff {code : Code} (hname : ∀ s ∈ code.symbols, 0 ∉ s.name) :
    NamesResolve code ↔ ∀ i s, code.symbols[i]? = some s →
      nameStart code i < 2 ^ 32 ∨
        suffixAt (symbolNames code) (nameStart code i % 2 ^ 32) = some s.name := by
  have hzero : ∀ name ∈ symbolNames code, 0 ∉ name := by
    intro name hmem
    cases List.mem_cons.mp hmem with
    | inl hnil => exact hnil ▸ List.not_mem_nil
    | inr hsym =>
      obtain ⟨s, hs, rfl⟩ := List.mem_map.mp hsym
      exact hname s hs
  -- The string that a record refers to.
  have hread : ∀ i s, code.symbols[i]? = some s →
      ((∃ sym, (extractSymsAndSymStrtab code).1[i + 1]? = some sym ∧
          cString (extractSymsAndSymStrtab code).2.out sym.stName.toNat = some s.name) ↔
        suffixAt (symbolNames code) (nameStart code i % 2 ^ 32) = some s.name) := by
    intro i s hi
    rw [extractSymsAndSymStrtab_eq]
    dsimp only
    rw [getElem?_symbolsOf hi]
    simp only [Option.some.injEq, exists_eq_left', toNat_stName, cString_table hzero]
  constructor
  · intro h i s hi
    exact .inr ((hread i s hi).mp (h i s hi))
  · intro h i s hi
    rw [hread i s hi]
    cases h i s hi with
    | inl hlt =>
      rw [Nat.mod_eq_of_lt hlt]
      exact suffixAt_nameStart hi
    | inr hcoincidence => exact hcoincidence

/-- For a code whose symbol names have no zero bytes, the record of each symbol refers to the
    symbol's name exactly when each name starts below byte `2^32`, or else is the end of the name
    that its offset without the upper 32 bits leads into. -/
theorem namesResolve_iff (code : Code) (hname : ∀ s ∈ code.symbols, 0 ∉ s.name) :
    NamesResolve code ↔ ∀ i s, code.symbols[i]? = some s →
      nameStart code i < 2 ^ 32 ∨
        suffixAt (symbolNames code) (nameStart code i % 2 ^ 32) = some s.name :=
  resolve_iff hname

/-- The names of the dummy code start at bytes 1, 17 and 33. -/
theorem namesResolve_dummy :
    (∀ s ∈ Code.createDummyCode.symbols, 0 ∉ s.name) ∧ NamesResolve .createDummyCode := by
  have hname : ∀ s ∈ Code.createDummyCode.symbols, 0 ∉ s.name := by decide
  refine ⟨hname, (namesResolve_iff .createDummyCode hname).mpr fun i s hi => .inl ?_⟩
  have hlt : i < 3 := (List.getElem?_eq_some_iff.mp hi).1
  have hstart : ∀ i < 3, nameStart .createDummyCode i ≤ 33 := by decide
  have := hstart i hlt
  omega

/-- A code with two symbols, the first of which has a name of `n` letters. -/
def longName (n : Nat) : Code where
  symbols := [
    { codeSection := .text, name := List.replicate n 0x61 },
    { codeSection := .text, name := [0x62] }]

/-- The second name starts behind the first one. -/
private theorem nameStart_longName (n : Nat) : nameStart (longName n) 1 = n + 2 := by
  have hlen := List.length_replicate (n := n) (a := (0x61 : U8))
  show 1 + ((List.replicate n (0x61 : U8)).length + 1 + 0) = n + 2
  rw [hlen]
  omega

/-- With a first name of `2^32 - 2` letters the second name starts at byte `2^32`. Its record
    has offset 0, which is that of the empty name. -/
theorem not_namesResolve_longName : ¬ NamesResolve (longName (2 ^ 32 - 2)) := by
  have hname : ∀ n, ∀ s ∈ (longName n).symbols, 0 ∉ s.name := by
    intro n
    simp only [longName, List.mem_cons, List.not_mem_nil, or_false, forall_eq_or_imp, forall_eq,
      List.mem_replicate]
    exact ⟨fun h => absurd h.2 (by decide), by decide⟩
  have hstart : nameStart (longName (2 ^ 32 - 2)) 1 = 2 ^ 32 := nameStart_longName (2 ^ 32 - 2)
  intro h
  have h := (resolve_iff (hname _)).mp h 1 { codeSection := .text, name := [0x62] } rfl
  rw [hstart] at h
  cases h with
  | inl hlt => exact Nat.lt_irrefl _ hlt
  | inr hsuffix =>
    rw [Nat.mod_self, symbolNames, suffixAt, if_pos (Nat.zero_le _)] at hsuffix
    exact absurd hsuffix (by decide)

end Fiskas
