import Fiskas.Native.File

/-!
# Short writes

`File::write` goes on after a short write only when exactly one byte was written, although any
number of bytes is progress. It survives the results of the C library, in the sense that it
hands over every byte once and aborts only without progress, exactly when no call that it
reaches writes more than one byte but not all.

## Key results

- `writeLoop_spec`: what the loop hands over, and when it aborts
- `survives_iff`: when `File::write` survives short writes
-/

namespace Fiskas.File

/-- `File::write` survives the results of the C library: when every call writes at least one
    byte, or there is none to write, it comes back and has handed over the bytes in order, each
    once; and it aborts only when some call has written none. -/
structure Survives (data : ByteVec) (r : Outcome) : Prop where
  writes : (∀ chunk ∈ r.chunks, chunk ≠ []) ∨ data = [] →
    r.result = .ok () ∧ r.chunks.flatten = data
  aborts : ∀ abort, r.result = .error abort → [] ∈ r.chunks

/-- No call that is reached is asked for `size` bytes and writes more than one but not all, when
    every call that is not the last one writes one byte. -/
def NoShortWrite (c : Stdio) (k size : Nat) : Prop :=
  ∀ i < size, (∀ j < i, (c.fwrite (k + j) (size - j)).val = 1) →
    (c.fwrite (k + i) (size - i)).val ∈ [0, 1, size - i]

instance (c : Stdio) (k size : Nat) : Decidable (NoShortWrite c k size) :=
  inferInstanceAs (Decidable (∀ i < size, _ → _))

/-! ## One round of the loop -/

private theorem writeLoop_done {c : Stdio} {data : ByteVec} {size k : Nat}
    (h : (c.fwrite k size).val = size) (path : String) :
    writeLoop c path data size k = { chunks := [data.take size], result := .ok () } := by
  rw [writeLoop, if_pos h, h]

/-- Without bytes one call is made, which writes none. -/
private theorem writeLoop_nil (c : Stdio) (path : String) (k : Nat) :
    writeLoop c path [] 0 k = { chunks := [[]], result := .ok () } := by
  have hzero : (c.fwrite k 0).val = 0 := Nat.lt_one_iff.mp (c.fwrite k 0).isLt
  rw [writeLoop_done hzero, List.take_nil]

private theorem writeLoop_one {c : Stdio} {data : ByteVec} {size k : Nat}
    (h : (c.fwrite k size).val = 1) (hne : size ≠ 1) (path : String) :
    writeLoop c path data size k =
      { writeLoop c path (data.drop 1) (size - 1) (k + 1) with
        chunks := data.take 1 :: (writeLoop c path (data.drop 1) (size - 1) (k + 1)).chunks } := by
  rw [writeLoop, if_neg (by omega), h]
  rfl

private theorem writeLoop_abort {c : Stdio} {size k : Nat}
    (hne : (c.fwrite k size).val ≠ size) (hne' : (c.fwrite k size).val ≠ 1) (data : ByteVec)
    (path : String) :
    ∃ abort, writeLoop c path data size k =
      { chunks := [data.take (c.fwrite k size).val], result := .error abort } := by
  have hcond : ((c.fwrite k size).val == 1) = false := beq_eq_false_iff_ne.mpr hne'
  rw [writeLoop, if_neg hne]
  split
  · next abort _ => exact ⟨abort, rfl⟩
  · next h =>
    rw [hcond] at h
    cases h

/-- Behind a call that wrote one byte, the calls that are left decide. -/
private theorem noShortWrite_succ {c : Stdio} {k size : Nat} (h : (c.fwrite k size).val = 1) :
    NoShortWrite c k size ↔ NoShortWrite c (k + 1) (size - 1) := by
  constructor
  · intro hall i hi hones
    have hcall := hall (i + 1) (by omega) fun j hj => by
      cases j with
      | zero => exact h
      | succ j =>
        have := hones j (by omega)
        rwa [Nat.add_assoc, Nat.add_comm 1 j, Nat.sub_sub, Nat.add_comm 1 j] at this
    rwa [Nat.add_assoc, Nat.add_comm 1 i, Nat.sub_sub, Nat.add_comm 1 i]
  · intro hall i hi hones
    cases i with
    | zero =>
      show (c.fwrite k size).val ∈ _
      rw [h]
      simp
    | succ i =>
      have hcall := hall i (by omega) fun j hj => by
        have := hones (j + 1) (by omega)
        rwa [Nat.add_assoc, Nat.add_comm 1 j, Nat.sub_sub, Nat.add_comm 1 j]
      rwa [Nat.add_assoc, Nat.add_comm 1 i, Nat.sub_sub, Nat.add_comm 1 i] at hcall

/-! ## The loop -/

/-- The loop comes back only when it has handed over all bytes, and aborts only without progress
    exactly when no call that it reaches is a short write of more than one byte. -/
theorem writeLoop_spec (c : Stdio) (path : String) (data : ByteVec) (k : Nat) :
    ((writeLoop c path data data.length k).result = .ok () →
        (writeLoop c path data data.length k).chunks.flatten = data) ∧
      ((∀ abort, (writeLoop c path data data.length k).result = .error abort →
          [] ∈ (writeLoop c path data data.length k).chunks) ↔
        NoShortWrite c k data.length) := by
  -- Induction on the bytes that are left; the cases are those of one round.
  induction data generalizing k with
  | nil =>
    rw [List.length_nil, writeLoop_nil]
    exact ⟨fun _ => rfl, iff_of_true (by simp) fun i hi => absurd hi (Nat.not_lt_zero i)⟩
  | cons b data ih =>
    by_cases hall : (c.fwrite k (b :: data).length).val = (b :: data).length
    · rw [writeLoop_done hall]
      refine ⟨fun _ => by simp, iff_of_true (by simp) fun i hi hones => ?_⟩
      cases i with
      | zero =>
        show (c.fwrite k (b :: data).length).val ∈ _
        rw [hall]
        simp
      | succ i =>
        -- A second call would follow only if one byte had been written and more were left.
        have hone : (c.fwrite k (b :: data).length).val = 1 := hones 0 (Nat.succ_pos i)
        omega
    · by_cases hone : (c.fwrite k (b :: data).length).val = 1
      · have hne : (b :: data).length ≠ 1 := fun heq => hall (by rw [hone, heq])
        obtain ⟨hflatten, habort⟩ := ih (k + 1)
        rw [writeLoop_one hone hne, noShortWrite_succ hone]
        rw [List.length_cons, Nat.add_sub_cancel, List.drop_one, List.tail_cons]
        refine ⟨fun hok => ?_, ?_⟩
        · dsimp only at hok ⊢
          rw [List.flatten_cons, hflatten hok]
          rfl
        · rw [← habort]
          simp
      · obtain ⟨abort, hloop⟩ := writeLoop_abort hall hone (b :: data) path
        rw [hloop]
        refine ⟨fun hok => absurd hok (by simp), ⟨fun habort i hi hones => ?_, fun h _ _ => ?_⟩⟩
        · cases i with
          | zero =>
            -- The chunk of the call that aborts is empty, so that call wrote nothing.
            have hnil := List.mem_singleton.mp (habort abort rfl)
            have hwritten : (c.fwrite k (b :: data).length).val = 0 :=
              (List.take_eq_nil_iff.mp hnil.symm).resolve_right (List.cons_ne_nil b data)
            show (c.fwrite k (b :: data).length).val ∈ _
            rw [hwritten]
            exact List.mem_cons_self
          | succ i => exact absurd (hones 0 (Nat.succ_pos i)) hone
        · have hcall : (c.fwrite k (b :: data).length).val ∈ [0, 1, (b :: data).length] :=
            h 0 (Nat.succ_pos _) fun j hj => absurd hj (Nat.not_lt_zero j)
          have hzero : (c.fwrite k (b :: data).length).val = 0 := by
            simp only [List.mem_cons, List.not_mem_nil, or_false] at hcall
            omega
          rw [hzero]
          exact List.mem_cons_self

/-! ## `File::write` -/

/-- When `File::write` survives. -/
private theorem survives_write (c : Stdio) (data : ByteVec) (path : String) :
    Survives data (write c data data.length path) ↔
      c.fopen = true ∧ NoShortWrite c 0 data.length := by
  cases hopen : c.fopen with
  | false =>
    rw [write, hopen]
    refine iff_of_false (fun h => ?_) (fun h => Bool.noConfusion h.1)
    exact List.not_mem_nil (h.aborts _ rfl)
  | true =>
    obtain ⟨hflatten, habort⟩ := writeLoop_spec c path data 0
    have hwrite : write c data data.length path = writeLoop c path data data.length 0 := by
      rw [write, hopen, fiskaAssert_true]
    rw [hwrite, ← habort]
    constructor
    · exact fun h => ⟨rfl, h.aborts⟩
    · rintro ⟨_, haborts⟩
      refine ⟨fun hchunks => ?_, haborts⟩
      cases hresult : (writeLoop c path data data.length 0).result with
      | ok u => exact ⟨rfl, hflatten hresult⟩
      | error abort =>
        have hempty := haborts abort hresult
        cases hchunks with
        | inl hne => exact absurd rfl (hne [] hempty)
        | inr hnil =>
          rw [hnil, List.length_nil, writeLoop_nil] at hresult
          cases hresult

/-- Whatever the C library returns: `File::write` comes back with all bytes handed over once
    whenever every call writes at least one byte, and aborts only without progress, exactly when
    the file is opened and no call that it reaches writes more than one byte but not all. -/
theorem survives_iff (c : Stdio) (data : ByteVec) (path : String) :
    Survives data (write c data data.length path) ↔
      c.fopen = true ∧ ∀ i < data.length,
        (∀ j < i, (c.fwrite j (data.length - j)).val = 1) →
        (c.fwrite i (data.length - i)).val ∈ [0, 1, data.length - i] := by
  have hcalls : ∀ i, 0 + i = i := Nat.zero_add
  rw [survives_write, NoShortWrite]
  simp only [hcalls]

/-- A C library whose calls write two bytes at most. -/
def twoBytes : Stdio where
  fopen := true
  fwrite _ size := ⟨min 2 size, by omega⟩

/-- Of three bytes two are written, and `File::write` aborts. -/
theorem not_survives_twoBytes :
    ¬ Survives [1, 2, 3] (write twoBytes [1, 2, 3] 3 "./elf_file_v2") := by
  have h := survives_write twoBytes [1, 2, 3] "./elf_file_v2"
  rw [List.length_cons, List.length_cons, List.length_cons, List.length_nil] at h
  rw [h]
  decide

end Fiskas.File
