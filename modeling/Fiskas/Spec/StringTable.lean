import Fiskas.Elf64.StringTable
import Fiskas.Native.ElfTypes

/-!
# Adding names to a string table

`add_string` appends a name with its terminator and returns where it starts. However many names
are added one after the other, the table is that of the names (`addStrings_eq`), so every offset
that was ever returned still leads to its name.

## Key results

- `out_addString`, `offset_addString`: one call
- `addStrings_eq`: a sequence of calls
- `offsets_valid`: all offsets stay valid
-/

namespace Fiskas.StringTable

open Slice Elf64

/-- Adding a string to a table appends it with its terminator. -/
theorem out_addString (t : StringTable) (name : ByteVec) :
    (t.addString name).2.out = t.out ++ terminated name := by
  show extend t.out name ++ [0] = _
  rw [extend, terminated, List.append_assoc]

/-- A string starts where the table ended before it was added. -/
theorem offset_addString (t : StringTable) (name : ByteVec) :
    (t.addString name).1 = BitVec.ofNat 64 t.out.length := rfl

/-- One `add_string` call after the other: the offsets that they return, and the table. -/
def addStrings (t : StringTable) : List ByteVec → List U64 × StringTable
  | [] => ([], t)
  | name :: names =>
    let (offset, t) := t.addString name
    let (offsets, t) := addStrings t names
    (offset :: offsets, t)

/-- What a sequence of calls returns, and what it leaves. -/
theorem addStrings_eq (t : StringTable) (names : List ByteVec) :
    t.addStrings names =
      ((startsFrom t.out.length names).map (BitVec.ofNat 64), { out := t.out ++ table names }) := by
  induction names generalizing t with
  | nil => simp [addStrings, startsFrom, table]
  | cons name names ih =>
    have hout := out_addString t name
    rw [addStrings]
    dsimp only
    rw [ih, hout, List.length_append, length_terminated, List.append_assoc, ← table_cons,
      startsFrom, List.map_cons, offset_addString]

/-- Calls that follow others return further offsets. -/
theorem addStrings_append (t : StringTable) (names later : List ByteVec) :
    t.addStrings (names ++ later) =
      ((t.addStrings names).1 ++ ((t.addStrings names).2.addStrings later).1,
        ((t.addStrings names).2.addStrings later).2) := by
  induction names generalizing t with
  | nil => rfl
  | cons name names ih =>
    rw [List.cons_append, addStrings, addStrings]
    dsimp only
    rw [ih]
    rfl

/-- What is handed out along a sequence of calls on an empty table: an offset for each name, which
    leads to that name, in increasing order from 0 on. -/
structure Valid (names : List ByteVec) (offsets : List U64) (t : StringTable) : Prop where
  resolves : List.Forall₂ (fun offset name => cString t.out offset.toNat = some name) offsets names
  increasing : offsets.Pairwise (· < ·)
  first : ∀ offset ∈ offsets.head?, offset = 0
  length : t.out.length = (names.map fun name => name.length + 1).sum

/-- A vector has fewer than `2^64` bytes, so offsets are not cut off. -/
private theorem valid_addStrings {names : List ByteVec} (hnames : ∀ name ∈ names, 0 ∉ name)
    (hsize : (({} : StringTable).addStrings names).2.out.length < 2 ^ 64) :
    Valid names (({} : StringTable).addStrings names).1
      (({} : StringTable).addStrings names).2 := by
  rw [addStrings_eq] at hsize ⊢
  replace hsize : (table names).length < 2 ^ 64 := hsize
  -- The offsets are the places where the names start.
  have hfit : ∀ start ∈ startsFrom 0 names, (BitVec.ofNat 64 start).toNat = start := by
    intro start hstart
    have := (bounds_startsFrom hstart).2
    rw [BitVec.toNat_ofNat, Nat.mod_eq_of_lt (by omega)]
  constructor
  case resolves =>
    have hread := cString_startsFrom [] [] hnames
    rw [List.append_nil] at hread
    show List.Forall₂ _ ((startsFrom 0 names).map _) names
    rw [List.forall₂_map_left_iff]
    refine List.Forall₂.imp ?_ ((List.forall₂_and_left _ _).mpr ⟨hfit, hread⟩)
    rintro start name ⟨hstart, hname⟩
    rw [hstart]
    exact hname
  case increasing =>
    show ((startsFrom 0 names).map _).Pairwise _
    rw [List.pairwise_map]
    apply (pairwise_startsFrom 0 names).imp_of_mem
    intro a b ha hb hlt
    rw [BitVec.lt_def, hfit a ha, hfit b hb]
    exact hlt
  case first =>
    show ∀ offset ∈ ((startsFrom 0 names).map _).head?, offset = 0
    cases names with
    | nil => exact fun _ h => nomatch h
    | cons name names => exact fun _ h => (Option.some.inj h).symm
  case length => exact length_table names

/-- However names without zero bytes are added to an empty table, first `names` and at any time
    `later` ones: every offset that was returned leads to its own name, the offsets increase from
    0 on, and the table is as long as the names with their terminators. -/
theorem offsets_valid (names later : List ByteVec) (hzero : ∀ name ∈ names ++ later, 0 ∉ name)
    (hsize : ((({} : StringTable).addStrings names).2.addStrings later).2.out.length < 2 ^ 64) :
    Valid (names ++ later)
      ((({} : StringTable).addStrings names).1 ++
        ((({} : StringTable).addStrings names).2.addStrings later).1)
      ((({} : StringTable).addStrings names).2.addStrings later).2 := by
  have happend := addStrings_append {} names later
  have hvalid := valid_addStrings hzero (by rw [happend]; exact hsize)
  rwa [happend] at hvalid

/-- A name, an empty one, and later the first one again. -/
theorem offsets_valid_main :
    (∀ name ∈ [str "main", []] ++ [str "main"], 0 ∉ name) ∧
      ((({} : StringTable).addStrings [str "main", []]).2.addStrings
        [str "main"]).2.out.length < 2 ^ 64 ∧
      Valid ([str "main", []] ++ [str "main"]) ([0, 5] ++ [6])
        ((({} : StringTable).addStrings [str "main", []]).2.addStrings [str "main"]).2 := by
  have hzero : ∀ name ∈ [str "main", []] ++ [str "main"], 0 ∉ name := by decide
  have hsize : ((({} : StringTable).addStrings [str "main", []]).2.addStrings
      [str "main"]).2.out.length < 2 ^ 64 := by decide
  exact ⟨hzero, hsize, offsets_valid [str "main", []] [str "main"] hzero hsize⟩

end Fiskas.StringTable
