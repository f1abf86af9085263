/-!
# Base

The parts of `include/base.hh` that the assembler and the ELF writer rest on: the unsigned
integer types, the aborting assertion, `one_of`, `extend` and `StringMap`.

An abort ends the process, so code that may abort returns `Except Abort`. A `std::string` is
a sequence of bytes. The lexer only ever compares a `char` with ASCII letters, digits and
signs, so whether `char` is signed makes no difference and a `char` is a `U8`.
-/

namespace Fiskas

abbrev U8 := BitVec 8
abbrev U16 := BitVec 16
abbrev U32 := BitVec 32
abbrev U64 := BitVec 64

/-- `std::vector<u8>`, and the bytes of a `std::string`. -/
abbrev ByteVec := List U8

/-- `size()`, as the 64-bit number it is. -/
def ByteVec.size (v : ByteVec) : U64 := BitVec.ofNat 64 v.length

/-- A character literal of the source, as the byte it stands for. -/
def chr (c : Char) : U8 := BitVec.ofNat 8 c.toNat

/-- A string literal of the source, as the bytes it stands for. -/
def str (s : String) : ByteVec := s.toList.map chr

/-- A byte string inside an error message. -/
def formatStr (s : ByteVec) : String :=
  String.ofList (s.map fun b => Char.ofNat b.toNat)

/-! ## Assertions -/

/-- What `fiska_assert_impl` prints before it ends the process (the file, the line and the
    stack trace left out). -/
structure Abort where
  errorMsg : String
  helperMsg : String := ""
deriving DecidableEq, Repr

/-- `fiska_assert(cond, ...)`; `text` is the stringised condition. -/
def fiskaAssert (cond : Bool) (text : String) (helperMsg : String := "") : Except Abort Unit :=
  if cond then .ok () else .error ⟨"Assertion: `" ++ text ++ "` failed.", helperMsg⟩

/-- `fiska_todo(...)`. -/
def fiskaTodo {α : Type} (helperMsg : String := "") : Except Abort α :=
  .error ⟨"Unimplemented!", helperMsg⟩

/-- `fiska_unreachable(...)`. -/
def fiskaUnreachable {α : Type} (helperMsg : String := "") : Except Abort α :=
  .error ⟨"Reached an unreachable state!", helperMsg⟩

/-- An assertion passes exactly when its condition holds. -/
@[simp] theorem fiskaAssert_eq_ok {cond : Bool} {text helperMsg : String} {u : Unit} :
    fiskaAssert cond text helperMsg = .ok u ↔ cond = true := by
  cases cond <;> simp [fiskaAssert]

@[simp] theorem fiskaAssert_true (text helperMsg : String) :
    fiskaAssert true text helperMsg = .ok () := rfl

/-! ## Ending early -/

/-- Why the code comes to an end before its last statement, other than by an assertion. -/
inductive Stop where
  /-- `std::exit(1)`, behind a message. -/
  | exit (printed : String)
  /-- `value()` of an empty optional, which throws. -/
  | badOptionalAccess
  /-- An element outside of its vector is assigned, which is undefined behaviour. -/
  | outOfRange
deriving DecidableEq, Repr

/-- `v[idx] = value`. -/
def ByteVec.store (v : ByteVec) (idx : Nat) (value : U8) : Except Stop ByteVec :=
  if idx < v.length then .ok (v.set idx value) else .error .outOfRange

/-! ## Utility functions -/

/-- `detail::one_of`: is `value` among `others`? -/
def oneOf {α : Type} [DecidableEq α] (value : α) (others : List α) : Bool :=
  others.any fun other => decide (value = other)

/-- `detail::extend`: copy `src` to the back of `dst`. -/
def extend {α : Type} (dst src : List α) : List α := dst ++ src

/-! ## StringMap -/

/-- `StringMap<Value>`, a hash map from strings. The maps of the source are constants that are
    only looked up, so their iteration order plays no role. -/
abbrev StringMap (Value : Type) := List (ByteVec × Value)

/-- `find`. -/
def StringMap.find {Value : Type} (m : StringMap Value) (key : ByteVec) : Option Value :=
  m.lookup key

/-- What is found is an entry of the map. -/
theorem StringMap.mem_of_find {Value : Type} {m : StringMap Value} {key : ByteVec} {value : Value}
    (h : m.find key = some value) : (key, value) ∈ m := by
  obtain ⟨front, back, heq, _⟩ := List.lookup_eq_some_iff.mp h
  rw [heq]
  exact List.mem_append_right front List.mem_cons_self

/-- `contains`. -/
def StringMap.contains {Value : Type} (m : StringMap Value) (key : ByteVec) : Bool :=
  (m.find key).isSome

end Fiskas
