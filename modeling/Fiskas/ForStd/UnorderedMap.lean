import Mathlib.Algebra.Ring.Nat
import Mathlib.Data.List.Nodup

/-!
# Unordered maps

A hash map whose iteration order is unspecified: its entries in the order in which it is
iterated, no key twice. Looking up, updating and assigning entries do not depend on the order,
and a sum over the entries depends on the keys only up to permutation (`sum_entries`). A
development that takes any such map as given has its results for every iteration order.
-/

/-- The entries of a map, in iteration order. -/
structure UnorderedMap (K V : Type) where
  entries : List (K × V)
  nodup : (entries.map Prod.fst).Nodup

namespace UnorderedMap

variable {K V : Type}

/-- The keys of a map, in iteration order. -/
def keys (m : UnorderedMap K V) : List K := m.entries.map Prod.fst

variable [DecidableEq K]

theorem lookup_isSome {m : UnorderedMap K V} {k : K} (hk : k ∈ m.keys) :
    (m.entries.lookup k).isSome := by
  obtain ⟨e, he, rfl⟩ := List.mem_map.mp hk
  rw [List.lookup_isSome_iff]
  exact ⟨e, he, beq_self_eq_true e.1⟩

/-- The value of a key that is there. -/
def get (m : UnorderedMap K V) (k : K) (hk : k ∈ m.keys) : V :=
  (m.entries.lookup k).get (lookup_isSome hk)

/-- Update the value of a key; a key that is not there is left out. -/
def modify (m : UnorderedMap K V) (k : K) (f : V → V) : UnorderedMap K V where
  entries := m.entries.map fun e => (e.1, if e.1 = k then f e.2 else e.2)
  nodup := by
    rw [List.map_map]
    exact m.nodup

/-- An update keeps the keys and their order. -/
@[simp] theorem keys_modify (m : UnorderedMap K V) (k : K) (f : V → V) :
    (m.modify k f).keys = m.keys := by
  rw [keys, keys, modify, List.map_map]
  rfl

/-- An entry is found by its key, since no other entry has that key. -/
private theorem lookup_of_mem {entries : List (K × V)} (hnodup : (entries.map Prod.fst).Nodup)
    {k : K} {v : V} (h : (k, v) ∈ entries) : entries.lookup k = some v := by
  induction entries with
  | nil => exact absurd h List.not_mem_nil
  | cons e es ih =>
    rw [List.map_cons, List.nodup_cons] at hnodup
    rw [List.lookup_cons]
    cases List.mem_cons.mp h with
    | inl heq =>
      subst heq
      rw [beq_self_eq_true]
    | inr hes =>
      -- The first entry has another key, since no key is there twice.
      have hne : k ≠ e.1 := by
        intro heq
        apply hnodup.1
        rw [← heq]
        exact List.mem_map.mpr ⟨(k, v), hes, rfl⟩
      rw [beq_eq_false_iff_ne.mpr hne]
      exact ih hnodup.2 hes

/-- The value of a key is the one of the entry that has it. -/
theorem get_eq_of_mem {m : UnorderedMap K V} {k : K} {v : V} (h : (k, v) ∈ m.entries)
    (hk : k ∈ m.keys) : m.get k hk = v := by
  simp only [get, lookup_of_mem m.nodup h, Option.get_some]

/-- The entry of a key that is there. -/
theorem mem_entries_get (m : UnorderedMap K V) {k : K} (hk : k ∈ m.keys) :
    (k, m.get k hk) ∈ m.entries := by
  obtain ⟨⟨k', v⟩, he, rfl⟩ := List.mem_map.mp hk
  rw [get_eq_of_mem he]
  exact he

/-- What an update does to the value of any key. -/
theorem get_modify (m : UnorderedMap K V) (k : K) (f : V → V) {k' : K} (hk' : k' ∈ m.keys) :
    (m.modify k f).get k' (by rwa [keys_modify]) =
      if k' = k then f (m.get k' hk') else m.get k' hk' := by
  apply get_eq_of_mem
  exact List.mem_map_of_mem (m.mem_entries_get hk')

/-- A sum over the entries is a sum over the keys, in any order. -/
theorem sum_entries {m : UnorderedMap K V} {order : List K} (h : m.keys.Perm order)
    (f : K → Nat) (g : V → Nat) (hg : ∀ k hk, g (m.get k hk) = f k) :
    (m.entries.map fun e => g e.2).sum = (order.map f).sum := by
  -- The value of an entry is the value of its key, which no longer mentions the order.
  have hkeys : (m.entries.map fun e => g e.2) = m.keys.map f := by
    rw [keys, List.map_map]
    apply List.map_congr_left
    intro e he
    have hk : e.1 ∈ m.keys := List.mem_map_of_mem he
    show g e.2 = f e.1
    rw [← hg e.1 hk, get_eq_of_mem he]
  rw [hkeys]
  exact (h.map f).sum_nat

/-! ## Insertion -/

/-- The map without entries. -/
def empty : UnorderedMap K V where
  entries := []
  nodup := List.nodup_nil

/-- `find`. -/
def find (m : UnorderedMap K V) (k : K) : Option V := m.entries.lookup k

/-- `insert`, which leaves the value of a key that is there as it is. -/
def insert (m : UnorderedMap K V) (k : K) (v : V) : UnorderedMap K V :=
  if h : k ∈ m.keys then m
  else
    { entries := m.entries ++ [(k, v)]
      nodup := by
        rw [List.map_append]
        exact List.nodup_append.mpr ⟨m.nodup, List.nodup_singleton k, by
          rintro a ha b hb rfl
          have hk : a = k := List.mem_singleton.mp hb
          exact h (hk ▸ ha)⟩ }

theorem insert_of_mem {m : UnorderedMap K V} {k : K} (h : k ∈ m.keys) (v : V) :
    m.insert k v = m := dif_pos h

theorem entries_insert_of_not_mem {m : UnorderedMap K V} {k : K} (h : k ∉ m.keys) (v : V) :
    (m.insert k v).entries = m.entries ++ [(k, v)] := by
  rw [insert, dif_neg h]

/-- `m[k] = v`. -/
def assign (m : UnorderedMap K V) (k : K) (v : V) : UnorderedMap K V :=
  (m.insert k v).modify k fun _ => v

/-- An entry is found by its key. -/
theorem find_of_mem {m : UnorderedMap K V} {k : K} {v : V} (h : (k, v) ∈ m.entries) :
    m.find k = some v := lookup_of_mem m.nodup h

/-- An update changes the value of its key only. -/
theorem find_modify (m : UnorderedMap K V) (k : K) (f : V → V) (k' : K) :
    (m.modify k f).find k' = (m.find k').map fun v => if k' = k then f v else v := by
  show (m.entries.map _).lookup k' = (m.entries.lookup k').map _
  induction m.entries with
  | nil => rfl
  | cons e es ih =>
    rw [List.map_cons, List.lookup_cons, List.lookup_cons]
    by_cases h : k' = e.1
    · rw [beq_iff_eq.mpr h, h]
      rfl
    · rw [beq_eq_false_iff_ne.mpr h]
      exact ih

theorem find_eq_none {m : UnorderedMap K V} {k : K} (h : k ∉ m.keys) : m.find k = none := by
  rw [find, List.lookup_eq_none_iff]
  intro e he
  rw [bne_iff_ne]
  intro heq
  exact h (List.mem_map.mpr ⟨e, he, heq.symm⟩)

/-- An assignment changes the value of its key only. -/
theorem find_assign (m : UnorderedMap K V) (k : K) (v : V) (k' : K) :
    (m.assign k v).find k' = if k' = k then some v else m.find k' := by
  rw [assign, find_modify]
  by_cases hk : k ∈ m.keys
  · rw [insert_of_mem hk]
    by_cases h : k' = k
    · obtain ⟨v', hv'⟩ := Option.isSome_iff_exists.mp (lookup_isSome hk)
      have hfind : m.find k' = some v' := h ▸ hv'
      rw [hfind, Option.map_some, if_pos h, if_pos h]
    · simp [h]
  · rw [find, entries_insert_of_not_mem hk, List.lookup_append]
    show ((m.find k').or _).map _ = _
    by_cases h : k' = k
    · rw [h, find_eq_none hk]
      simp
    · simp [h, List.lookup_cons, beq_eq_false_iff_ne.mpr h]

end UnorderedMap
