import Mathlib.Order.Interval.Finset.Nat

/-!
An area of storage that comes page by page.

A page is there, all zeros, from the first store into it on. A list is stored
from its end, so that the parts of a list can be stored one after the other with
the last one first.
-/

namespace LinuxRv.PageArea

open Function Finset

variable {n p q x : ℕ} {β : Type} [Zero β] {size : ℕ} {A : ℕ → Option β}

/-- What is at a position, if its page is there. -/
abbrev Area (β : Type) := ℕ → Option β

/-- With the page of position `q`. -/
def touch (size : ℕ) (A : Area β) (q : ℕ) : Area β := fun x =>
  if x / size = q / size then some ((A x).getD 0) else A x

def put (size : ℕ) (A : Area β) (q : ℕ) (c : β) : Area β :=
  update (touch size A q) q (some c)

def putAll (size : ℕ) (A : Area β) (q : ℕ) : List β → Area β
  | [] => A
  | c :: l => put size (putAll size A (q + 1) l) q c

theorem isSome_touch :
    (touch size A q x).isSome = true ↔ x / size = q / size ∨ (A x).isSome = true := by
  unfold touch
  split
  · next hpage => exact iff_of_true rfl (.inl hpage)
  · next hpage => rw [or_iff_right hpage]

theorem put_self (q : ℕ) (c : β) : put size A q c q = some c :=
  update_self ..

/-- What has been stored stays. -/
theorem put_of_some {b : β} (c : β) (hne : x ≠ q) (h : A x = some b) :
    put size A q c x = some b := by
  rw [put, update_of_ne hne, touch, h, Option.getD_some, ite_self]

theorem isSome_put (c : β) :
    (put size A q c x).isSome = true ↔ x / size = q / size ∨ (A x).isSome = true := by
  by_cases hx : x = q
  · rw [hx, put_self]
    exact iff_of_true rfl (.inl rfl)
  · rw [put, update_of_ne hx, isSome_touch]

theorem putAll_append (q : ℕ) (l l' : List β) :
    putAll size A q (l ++ l') = putAll size (putAll size A (q + l.length) l') q l := by
  induction l generalizing q with
  | nil => rfl
  | cons c l ih =>
    rw [List.cons_append, putAll, putAll, ih, List.length_cons, Nat.add_right_comm, Nat.add_assoc]

theorem putAll_of_lt {i : ℕ} {l : List β} (hi : i < l.length) :
    putAll size A q l (q + i) = some l[i] := by
  induction l generalizing q i with
  | nil => exact absurd hi (Nat.not_lt_zero i)
  | cons c l ih =>
    cases i with
    | zero => exact put_self q c
    | succ i =>
      have hlt : i < l.length := Nat.lt_of_succ_lt_succ hi
      have hnext : q + (i + 1) = q + 1 + i := by omega
      refine put_of_some c (by omega) ?_
      rw [hnext]
      exact ih hlt

theorem isSome_putAll {l : List β} : (putAll size A q l x).isSome = true ↔
      (∃ i < l.length, x / size = (q + i) / size) ∨ (A x).isSome = true := by
  induction l generalizing q with
  | nil =>
    rw [putAll, or_iff_right]
    rintro ⟨i, hi, -⟩
    exact absurd hi (Nat.not_lt_zero i)
  | cons c l ih =>
    rw [putAll, isSome_put, ih, ← or_assoc]
    refine or_congr_left ⟨?_, ?_⟩
    · rintro (h | ⟨i, hi, h⟩)
      · exact ⟨0, Nat.succ_pos _, h⟩
      · refine ⟨i + 1, Nat.succ_lt_succ hi, ?_⟩
        rwa [Nat.add_right_comm, Nat.add_assoc] at h
    · rintro ⟨_ | i, hi, h⟩
      · exact .inl h
      · refine .inr ⟨i, Nat.lt_of_succ_lt_succ hi, ?_⟩
        rwa [Nat.add_right_comm, Nat.add_assoc]

/-! ### Pages that are not there -/

/-- Positions of one page are there together. -/
def Paged (size : ℕ) (A : Area β) : Prop :=
  ∀ x y, x / size = y / size → ((A x).isSome = true ↔ (A y).isSome = true)

theorem Paged.touch_eq (h : Paged size A) (hq : (A q).isSome = true) : touch size A q = A := by
  funext x
  unfold touch
  split
  · next hpage =>
    obtain ⟨b, hb⟩ := Option.isSome_iff_exists.mp ((h x q hpage).mpr hq)
    rw [hb, Option.getD_some]
  · rfl

/-- How many of the first `n` pages begin below `p` and are not there. -/
def missing (size n : ℕ) (A : Area β) (p : ℕ) : ℕ :=
  ((range n).filter fun i => (A (size * i)).isSome = false ∧ size * i < p).card

omit [Zero β] in
theorem missing_le (n p : ℕ) : missing size n A p ≤ n := by
  rw [missing]
  exact (card_filter_le ..).trans (card_range n).le

omit [Zero β] in
theorem missing_congr {A' : Area β} (h : ∀ x, (A' x).isSome = (A x).isSome) :
    missing size n A' p = missing size n A p := by
  simp only [missing, h]

theorem missing_put (c : β) :
    missing size n (put size A q c) p = missing size n (touch size A q) p := by
  refine missing_congr fun x => ?_
  rw [Bool.eq_iff_iff, isSome_put, isSome_touch]

omit [Zero β] in
theorem missing_eq_zero (h : ∀ x < p, (A x).isSome = true) : missing size n A p = 0 := by
  refine card_eq_zero.mpr (filter_eq_empty_iff.mpr fun i _ hi => ?_)
  exact Bool.eq_false_iff.mp hi.1 (h _ hi.2)

/-- The page of a position that is not there is counted once. -/
theorem missing_touch (hsize : 0 < size) (hpaged : Paged size A) (hn : q / size < n) (hq : q < p)
    (h : A q = none) : missing size n (touch size A q) p + 1 = missing size n A p := by
  have hmem : q / size ∈ (range n).filter
      fun i => (A (size * i)).isSome = false ∧ size * i < p := by
    refine mem_filter.mpr ⟨mem_range.mpr hn, ?_, lt_of_le_of_lt (Nat.mul_div_le q size) hq⟩
    rw [Bool.eq_false_iff, Ne, hpaged _ q (Nat.mul_div_cancel_left _ hsize), h]
    exact Bool.false_ne_true
  rw [missing, missing, ← card_erase_add_one hmem]
  congr 2
  ext i
  rw [mem_erase, mem_filter, mem_filter, Bool.eq_false_iff, Bool.eq_false_iff,
    Ne, Ne, isSome_touch, not_or, Nat.mul_div_cancel_left _ hsize]
  tauto

end LinuxRv.PageArea
