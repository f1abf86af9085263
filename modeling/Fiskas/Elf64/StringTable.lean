import Fiskas.ForStd.LittleEndian

/-!
# String tables

A string table of an object file is a row of names, each with a zero byte behind it, and a
name is referred to by its offset. `cString` reads the name at an offset, and
`cString_of_isAt` finds every name that stands in a table, as long as it has no zero byte of
its own. `startsFrom` lists where the names of a table start.
-/

namespace Elf64

open Slice LittleEndian

/-- The bytes from a position up to the next zero byte. -/
def cString (bytes : List Byte) (pos : Nat) : Option (List Byte) :=
  if 0 ∈ bytes.drop pos then some ((bytes.drop pos).takeWhile (· ≠ 0)) else none

/-- A name with its terminator. -/
def terminated (name : List Byte) : List Byte := name ++ [0]

@[simp] theorem length_terminated (name : List Byte) :
    (terminated name).length = name.length + 1 := by
  rw [terminated, List.length_append, List.length_singleton]

/-- A name that stands in the bytes with its terminator is read there. -/
theorem cString_of_isAt {bytes name : List Byte} {pos : Nat}
    (h : IsAt bytes pos (terminated name)) (hname : 0 ∉ name) : cString bytes pos = some name := by
  obtain ⟨front, back, rfl, rfl⟩ := h
  -- The name is taken up to its terminator, and no further.
  have hkeep : ∀ b ∈ name, decide (b ≠ 0) = true :=
    fun b hb => decide_eq_true fun hzero => hname (hzero ▸ hb)
  rw [cString, List.drop_left, terminated, List.append_assoc, if_pos (by simp),
    List.takeWhile_append_of_pos hkeep]
  simp

/-- The table of a list of names. -/
def table (names : List (List Byte)) : List Byte := (names.map terminated).flatten

theorem table_cons (name : List Byte) (names : List (List Byte)) :
    table (name :: names) = terminated name ++ table names := by
  rw [table, List.map_cons, List.flatten_cons]
  rfl

/-- A table ends with the terminator of its last name. -/
theorem getLast?_table {names : List (List Byte)} (h : names ≠ []) :
    (table names).getLast? = some 0 := by
  obtain ⟨front, name, rfl⟩ : ∃ front name, names = front ++ [name] :=
    ⟨_, _, (List.dropLast_append_getLast h).symm⟩
  rw [table, List.map_append, List.flatten_append, List.map_singleton, List.flatten_singleton,
    terminated, ← List.append_assoc, List.getLast?_concat]

/-- A table begins with a zero byte exactly when its first name is empty, as long as that name
    has no zero byte. -/
theorem head?_table {name : List Byte} (names : List (List Byte)) (h : 0 ∉ name) :
    (table (name :: names)).head? = some 0 ↔ name = [] := by
  cases name with
  | nil => exact iff_of_true rfl rfl
  | cons b name =>
    have hb : b ≠ 0 := fun hzero => h (by rw [hzero]; exact List.mem_cons_self)
    exact iff_of_false (fun h => hb (Option.some.inj h)) (List.cons_ne_nil b name)

theorem table_cons_ne_nil (name : List Byte) (names : List (List Byte)) :
    table (name :: names) ≠ table [] := by
  intro h
  have hlen := congrArg List.length h
  rw [table_cons, List.length_append, length_terminated] at hlen
  replace hlen : name.length + 1 + (table names).length = 0 := hlen
  omega

/-- A table determines its names, as long as they have no zero bytes. -/
theorem table_injective {names names' : List (List Byte)} (h : ∀ name ∈ names, 0 ∉ name)
    (h' : ∀ name ∈ names', 0 ∉ name) (heq : table names = table names') : names = names' := by
  induction names generalizing names' with
  | nil =>
    cases names' with
    | nil => rfl
    | cons name' names' => exact absurd heq.symm (table_cons_ne_nil name' names')
  | cons name names ih =>
    cases names' with
    | nil => exact absurd heq (table_cons_ne_nil name names)
    | cons name' names' =>
      rw [table_cons, table_cons] at heq
      -- Both first names end at the first zero byte.
      have hname : cString (terminated name ++ table names) 0 = some name :=
        cString_of_isAt ⟨[], _, rfl, rfl⟩ (h name List.mem_cons_self)
      have hname' : cString (terminated name' ++ table names') 0 = some name' :=
        cString_of_isAt ⟨[], _, rfl, rfl⟩ (h' name' List.mem_cons_self)
      rw [heq, hname', Option.some.injEq] at hname
      rw [hname, List.append_cancel_left_eq] at heq
      rw [hname, ih (fun n hn => h n (List.mem_cons_of_mem _ hn))
        (fun n hn => h' n (List.mem_cons_of_mem _ hn)) heq]

theorem length_table (names : List (List Byte)) :
    (table names).length = (names.map fun name => name.length + 1).sum := by
  rw [table, List.length_flatten, List.map_map]
  congr 1
  exact List.map_congr_left fun name _ => length_terminated name

/-! ## Where the names start -/

/-- The offsets of the names of a table that starts at a position. -/
def startsFrom : Nat → List (List Byte) → List Nat
  | _, [] => []
  | pos, name :: names => pos :: startsFrom (pos + (name.length + 1)) names

/-- Names start within their table. -/
theorem bounds_startsFrom {pos start : Nat} {names : List (List Byte)}
    (h : start ∈ startsFrom pos names) : pos ≤ start ∧ start < pos + (table names).length := by
  induction names generalizing pos with
  | nil => cases h
  | cons name names ih =>
    rw [table_cons, List.length_append, length_terminated]
    cases List.mem_cons.mp h with
    | inl heq => omega
    | inr hmem =>
      have := ih hmem
      omega

/-- Each name starts behind those before it, even if they are empty. -/
theorem pairwise_startsFrom (pos : Nat) (names : List (List Byte)) :
    (startsFrom pos names).Pairwise (· < ·) := by
  induction names generalizing pos with
  | nil => exact .nil
  | cons name names ih =>
    refine .cons (fun start hmem => ?_) (ih _)
    have := (bounds_startsFrom hmem).1
    omega

/-- Each name stands, with its terminator, where it starts, whatever surrounds the table. -/
theorem isAt_startsFrom (front back : List Byte) (names : List (List Byte)) :
    List.Forall₂ (fun start name => IsAt (front ++ (table names ++ back)) start (terminated name))
      (startsFrom front.length names) names := by
  induction names generalizing front with
  | nil => exact .nil
  | cons name names ih =>
    rw [startsFrom, table_cons, List.append_assoc]
    refine .cons (.intro front (terminated name) _) ?_
    have ih := ih (front ++ terminated name)
    rwa [List.length_append, length_terminated, List.append_assoc] at ih

/-- Every name is read where it starts, as long as no name has a zero byte. -/
theorem cString_startsFrom (front back : List Byte) {names : List (List Byte)}
    (h : ∀ name ∈ names, 0 ∉ name) :
    List.Forall₂ (fun start name => cString (front ++ (table names ++ back)) start = some name)
      (startsFrom front.length names) names := by
  have hat := List.forall₂_iff_zip.mp (isAt_startsFrom front back names)
  refine List.forall₂_iff_zip.mpr ⟨hat.1, fun hmem => ?_⟩
  exact cString_of_isAt (hat.2 hmem) (h _ (List.of_mem_zip hmem).2)

/-! ## Reading anywhere in a table -/

/-- What is left, at a position of a table, of the name that the position falls into. -/
def suffixAt : List (List Byte) → Nat → Option (List Byte)
  | [], _ => none
  | name :: names, pos =>
    if pos ≤ name.length then some (name.drop pos) else suffixAt names (pos - (name.length + 1))

/-- Behind the names before it, a name is found whole. -/
theorem suffixAt_start {names : List (List Byte)} {i : Nat} {name : List Byte}
    (hi : names[i]? = some name) :
    suffixAt names ((names.take i).map fun name => name.length + 1).sum = some name := by
  induction names generalizing i with
  | nil => exact nomatch hi
  | cons first names ih =>
    rw [suffixAt]
    cases i with
    | zero =>
      obtain rfl : first = name := Option.some.inj hi
      exact if_pos (Nat.zero_le _)
    | succ i =>
      rw [List.take_succ_cons, List.map_cons, List.sum_cons, if_neg (by omega),
        Nat.add_sub_cancel_left]
      exact ih hi

/-- A position inside a name leads to what is left of the name. -/
private theorem cString_inside {name rest : List Byte} {pos : Nat} (hname : 0 ∉ name)
    (hpos : pos ≤ name.length) : cString (terminated name ++ rest) pos = some (name.drop pos) := by
  have hsplit : terminated name ++ rest =
      name.take pos ++ (terminated (name.drop pos) ++ rest) := by
    simp only [terminated, ← List.append_assoc, List.take_append_drop]
  apply cString_of_isAt ⟨name.take pos, rest, hsplit, List.length_take_of_le hpos⟩
  exact fun hzero => hname (List.mem_of_mem_drop hzero)

/-- The string at any position of a table is the end of one of its names. -/
theorem cString_table {names : List (List Byte)} (h : ∀ name ∈ names, 0 ∉ name) (pos : Nat) :
    cString (table names) pos = suffixAt names pos := by
  induction names generalizing pos with
  | nil =>
    rw [suffixAt, cString, if_neg]
    simp [table]
  | cons name names ih =>
    rw [table_cons, suffixAt]
    split
    · next hpos => exact cString_inside (h name List.mem_cons_self) hpos
    · next hpos =>
      rw [← ih fun n hn => h n (List.mem_cons_of_mem name hn)]
      -- Behind the first name and its terminator the other names are a table of their own.
      have hdrop : (terminated name ++ table names).drop pos =
          (table names).drop (pos - (name.length + 1)) := by
        rw [List.drop_append, length_terminated, List.drop_eq_nil_of_le, List.nil_append]
        rw [length_terminated]
        omega
      rw [cString, cString, hdrop]

end Elf64
