import Fiskas.Native.Base

/-!
# File

`File::write` of `include/base.hh`. The C library is a parameter: whether `fopen` succeeds and
what each `fwrite` returns, which is at most the number of bytes that it was asked to write. A
call that returns `written` has handed the first `written` bytes of its buffer to the file.
-/

namespace Fiskas

/-- The answers of the C library to the calls of one `File::write`. -/
structure Stdio where
  /-- `fopen` returns a file. -/
  fopen : Bool
  /-- What `fwrite` number `k` returns when it is asked to write `size` bytes. -/
  fwrite : (k size : Nat) → Fin (size + 1)

namespace File

/-- What `File::write` did: the bytes that each `fwrite` handed to the file, and whether it came
    back. -/
structure Outcome where
  chunks : List ByteVec
  result : Except Abort Unit

/-- The loop of `File::write`, before `fwrite` number `k`; `data` starts at the pointer. It only
    goes on behind the assertion, which makes `size` smaller. -/
def writeLoop (c : Stdio) (path : String) (data : ByteVec) (size k : Nat) : Outcome :=
  let written := (c.fwrite k size).val
  if written = size then { chunks := [data.take written], result := .ok () }
  else
    match _h : fiskaAssert (written == 1) "written == 1"
        ("Failed to write byte to file: " ++ path) with
    | .error abort => { chunks := [data.take written], result := .error abort }
    | .ok () =>
      let rest := writeLoop c path (data.drop written) (size - written) (k + 1)
      { rest with chunks := data.take written :: rest.chunks }
termination_by size
decreasing_by
  have hone := fiskaAssert_eq_ok.mp _h
  have hle := (c.fwrite k size).isLt
  rw [beq_iff_eq] at hone
  omega

/-- `File::write(data, size, path)`. -/
def write (c : Stdio) (data : ByteVec) (size : Nat) (path : String) : Outcome :=
  match fiskaAssert c.fopen "file" ("Failed to open file: " ++ path) with
  | .error abort => { chunks := [], result := .error abort }
  | .ok () => writeLoop c path data size 0

end File

end Fiskas
