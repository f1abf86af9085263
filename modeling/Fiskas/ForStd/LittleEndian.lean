import Fiskas.ForStd.Slice

/-!
# Little-endian records

A number in `n` bytes, least significant byte first, and records of such numbers: `bytes` and
`ofBytes` for one number, `recordBytes` for a row of fields given by their widths and values,
and `readNat`, which reads a number at a position of a byte string. `readNat_of_record` finds
every field of a record at the sum of the widths before it.
-/

namespace LittleEndian

open Slice

abbrev Byte := BitVec 8

/-! ## Numbers -/

/-- The `n` lowest bytes of a number, the lowest first. -/
def bytes : Nat → Nat → List Byte
  | 0, _ => []
  | n + 1, x => BitVec.ofNat 8 x :: bytes n (x / 256)

/-- The number that bytes stand for, the lowest first. -/
def ofBytes : List Byte → Nat
  | [] => 0
  | b :: bs => b.toNat + 256 * ofBytes bs

@[simp] theorem length_bytes (n x : Nat) : (bytes n x).length = n := by
  induction n generalizing x with
  | zero => rfl
  | succ n ih => rw [bytes, List.length_cons, ih]

/-- The bytes of a number give the number back, up to what does not fit. -/
theorem ofBytes_bytes_mod (n x : Nat) : ofBytes (bytes n x) = x % 256 ^ n := by
  induction n generalizing x with
  | zero => rw [bytes, ofBytes, Nat.pow_zero, Nat.mod_one]
  | succ n ih =>
    have hpow : 256 ^ (n + 1) = 256 * 256 ^ n := Nat.pow_succ'
    rw [bytes, ofBytes, ih, BitVec.toNat_ofNat, hpow, Nat.mod_mul]

/-- The bytes of a number that fits give it back. -/
theorem ofBytes_bytes {n x : Nat} (h : x < 256 ^ n) : ofBytes (bytes n x) = x := by
  rw [ofBytes_bytes_mod, Nat.mod_eq_of_lt h]

/-- The lowest bytes of a number do not depend on what lies above them. -/
theorem bytes_mod {n k : Nat} (x : Nat) (h : 8 * n ≤ k) : bytes n (x % 2 ^ k) = bytes n x := by
  induction n generalizing x k with
  | zero => rfl
  | succ n ih =>
    obtain ⟨k, rfl⟩ := Nat.exists_eq_add_of_le' (Nat.le_trans (by omega : 8 ≤ 8 * (n + 1)) h)
    have hhead : BitVec.ofNat 8 (x % 2 ^ (k + 8)) = BitVec.ofNat 8 x := by
      apply BitVec.eq_of_toNat_eq
      rw [BitVec.toNat_ofNat, BitVec.toNat_ofNat, Nat.pow_add]
      exact Nat.mod_mul_left_mod x (2 ^ k) (2 ^ 8)
    have hrest : x % 2 ^ (k + 8) / 256 = x / 256 % 2 ^ k := by
      rw [Nat.pow_add, Nat.mul_comm]
      exact Nat.mod_mul_right_div_self x 256 (2 ^ k)
    rw [bytes, bytes, hhead, hrest, ih _ (by omega)]

/-- The bytes of zero are zero. -/
theorem bytes_zero (n : Nat) : bytes n 0 = List.replicate n 0 := by
  induction n with
  | zero => rfl
  | succ n ih =>
    rw [bytes, Nat.zero_div, ih, List.replicate_succ]
    rfl

/-! ## Records -/

/-- The bytes of a row of fields, each given by its width and its value. -/
def recordBytes (fields : List (Nat × Nat)) : List Byte :=
  (fields.map fun f => bytes f.1 f.2).flatten

/-- The width of a row of fields. -/
def recordWidth (fields : List (Nat × Nat)) : Nat := (fields.map Prod.fst).sum

/-- Every field of a row fits its width. -/
def RecordFits (fields : List (Nat × Nat)) : Prop := ∀ f ∈ fields, f.2 < 256 ^ f.1

theorem length_recordBytes (fields : List (Nat × Nat)) :
    (recordBytes fields).length = recordWidth fields := by
  rw [recordBytes, recordWidth, List.length_flatten, List.map_map]
  congr 1
  exact List.map_congr_left fun f _ => length_bytes f.1 f.2

/-- A record of zeros is all zero bytes. -/
theorem recordBytes_zero {fields : List (Nat × Nat)} (h : ∀ f ∈ fields, f.2 = 0) :
    recordBytes fields = List.replicate (recordWidth fields) 0 := by
  induction fields with
  | nil => rfl
  | cons f fields ih =>
    have hrest := ih fun f hf => h f (List.mem_cons_of_mem _ hf)
    rw [recordBytes] at hrest ⊢
    rw [List.map_cons, List.flatten_cons, hrest, h f List.mem_cons_self, bytes_zero,
      List.replicate_append_replicate]
    rfl

/-- Read the number of `n` bytes at a position. -/
def readNat (file : List Byte) (pos n : Nat) : Option Nat := (slice file pos n).map ofBytes

/-- A number that stands at a position is read there. -/
theorem readNat_of_isAt {file : List Byte} {pos n x : Nat} (h : IsAt file pos (bytes n x))
    (hx : x < 256 ^ n) : readNat file pos n = some x := by
  have hslice := h.slice
  rw [length_bytes] at hslice
  rw [readNat, hslice, Option.map_some, ofBytes_bytes hx]

/-- Every field of a record is read behind the fields before it. -/
theorem readNat_of_record {file : List Byte} {pos : Nat} {fields : List (Nat × Nat)}
    (h : IsAt file pos (recordBytes fields)) {widths : List Nat}
    (hwidths : fields.map Prod.fst = widths) {i w v off : Nat} (hi : fields[i]? = some (w, v))
    (hv : v < 256 ^ w) (hoff : (widths.take i).sum = off) :
    readNat file (pos + off) w = some v := by
  have hpart : (fields.map fun f => bytes f.1 f.2)[i]? = some (bytes w v) := by
    rw [List.getElem?_map, hi]
    rfl
  have hat := isAt_flatten hpart
  -- The fields before field `i` are a record of their own, as wide as `off`.
  have hwidth : ((fields.map fun f => bytes f.1 f.2).take i).flatten.length = off := by
    rw [← List.map_take, ← hoff, ← hwidths, ← List.map_take]
    exact length_recordBytes (fields.take i)
  rw [hwidth] at hat
  exact readNat_of_isAt (h.trans hat) hv

end LittleEndian
