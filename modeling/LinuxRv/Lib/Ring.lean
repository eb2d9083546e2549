import Mathlib.Data.List.GetD
import Mathlib.Data.Nat.ModEq

/-!
Rings: `N` cells that are used over and over.

What is in a ring is the list of the `n` cells from place `tail` on, around the
end. Cells that are not in it may hold anything. Taking from the front drops a
prefix of the list, and storing behind the last cell appends to it, as long as
the cells do not run into the front.
-/

namespace LinuxRv.Ring

open List

variable {α : Type*} {N : ℕ} {cells cells' : ℕ → α} {tail n : ℕ} {i pos : ℕ} {l : List α}

/-- The `n` cells from place `tail` on. -/
def contents (N : ℕ) (cells : ℕ → α) (tail n : ℕ) : List α :=
  (range n).map fun i => cells ((tail + i) % N)

/-- `l` in the cells from `pos` on. -/
def store (cells : ℕ → α) (pos : ℕ) (l : List α) (i : ℕ) : α :=
  if pos ≤ i then l.getD (i - pos) (cells i) else cells i

@[simp] theorem length_contents : (contents N cells tail n).length = n := by
  simp [contents]

@[simp] theorem contents_zero : contents N cells tail 0 = [] := rfl

theorem contents_add (m : ℕ) :
    contents N cells tail (m + n) = contents N cells tail m ++ contents N cells (tail + m) n := by
  simp [contents, range_add, Nat.add_assoc]

theorem contents_succ :
    contents N cells tail (n + 1) = contents N cells tail n ++ [cells ((tail + n) % N)] := by
  rw [contents_add n]
  rfl

theorem contents_succ' :
    contents N cells tail (n + 1) = cells (tail % N) :: contents N cells (tail + 1) n := by
  rw [Nat.add_comm n 1, contents_add]
  rfl

@[simp] theorem contents_mod : contents N cells (tail % N) n = contents N cells tail n := by
  simp [contents]

theorem contents_congr (h : ∀ i < n, cells' ((tail + i) % N) = cells ((tail + i) % N)) :
    contents N cells' tail n = contents N cells tail n := by
  unfold contents
  apply map_congr_left
  intro i hi
  exact h i (mem_range.mp hi)

/-- Cells that do not go around the end. -/
theorem contents_of_le (h : tail + n ≤ N) :
    contents N cells tail n = (range n).map fun i => cells (tail + i) := by
  unfold contents
  apply map_congr_left
  intro i hi
  have hlt : i < n := mem_range.mp hi
  rw [Nat.mod_eq_of_lt (by omega)]

theorem store_of_lt (h : i < l.length) : store cells pos l (pos + i) = l[i] := by
  simp [store, h]

theorem store_of_outside (h : i < pos ∨ pos + l.length ≤ i) : store cells pos l i = cells i := by
  unfold store
  split
  · have hle : l.length ≤ i - pos := by omega
    simp [hle]
  · rfl

/-- A ring that is not full goes around at most once. -/
theorem add_mod_ne {j : ℕ} (hij : i < j) (hj : j < N) : (tail + i) % N ≠ (tail + j) % N := by
  intro h
  have hmod : i ≡ j [MOD N] := Nat.ModEq.add_left_cancel' tail h
  have heq : i = j := hmod.eq_of_lt_of_lt (by omega) hj
  omega

theorem contents_store (hpos : (tail + n) % N = pos) (hend : pos + l.length ≤ N)
    (hroom : n + l.length ≤ N) :
    contents N (store cells pos l) tail (n + l.length) = contents N cells tail n ++ l := by
  have hplace (i : ℕ) (hi : i < l.length) : (tail + (n + i)) % N = pos + i := by
    rw [← Nat.add_assoc, ← Nat.mod_add_mod, hpos, Nat.mod_eq_of_lt (by omega)]
  rw [contents_add]
  congr 1
  · apply contents_congr
    intro i hi
    apply store_of_outside
    by_contra hin
    -- the cell would be one of those behind the last
    have hlen : (tail + i) % N - pos < l.length := by omega
    have heq := hplace _ hlen
    have hback : pos + ((tail + i) % N - pos) = (tail + i) % N := by omega
    rw [hback] at heq
    exact add_mod_ne (by omega) (by omega) heq.symm
  · apply ext_getElem
    · simp
    · intro i hi hi'
      simp only [contents, getElem_map, getElem_range]
      rw [Nat.add_assoc, hplace i hi', store_of_lt hi']

end LinuxRv.Ring
