import Mathlib.Algebra.Order.BigOperators.Group.Finset
import Mathlib.Data.Fintype.BigOperators
import Mathlib.Tactic.Linarith

/-!
Counting references.

A finite type of places, each of which may refer to an object, is a function
`g : ι → Option α`; `occurrences g a` is how many places refer to `a`. The
lemmas say how the number moves when places change, one place at a time or a
whole set of places cleared at once, and what a number tells about the places:
at most one occurrence means that two places that refer to the object are the
same place.
-/

namespace LinuxRv.RefCount

open Function Option
open Finset hiding mem_def

variable {ι κ α : Type*} [Fintype ι] [DecidableEq α] {g f : ι → Option α} {a : α} {H : Finset α}
  {S : Finset ι} {r : ι}

@[irreducible] def occurrences (g : ι → Option α) (a : α) : ℕ := (univ.filter fun r => g r = some a).card

theorem occurrences_pos_iff : 0 < occurrences g a ↔ ∃ r, g r = some a := by
  simp [occurrences, card_pos, filter_nonempty_iff]

theorem occurrences_pos (h : g r = some a) : 0 < occurrences g a :=
  occurrences_pos_iff.mpr ⟨r, h⟩

theorem occurrences_eq_zero_iff : occurrences g a = 0 ↔ ∀ r, g r ≠ some a := by
  rw [← not_exists, ← occurrences_pos_iff, Nat.not_lt, Nat.le_zero]

theorem eq_of_occurrences_le_one (h : occurrences g a ≤ 1) {r' : ι} (hr : g r = some a)
    (hr' : g r' = some a) : r = r' := by
  unfold occurrences at h
  exact card_le_one.mp h r (by simpa using hr) r' (by simpa using hr')

theorem occurrences_mono (h : ∀ r, g r = some a → f r = some a) :
    occurrences g a ≤ occurrences f a := by
  unfold occurrences
  exact card_le_card fun r hr => by simpa using h r (by simpa using hr)

/-- References that can be told apart by a finite label are at most as many as
the labels. -/
theorem occurrences_le_card [Fintype κ] (f : ι → κ)
    (hf : ∀ r r', g r = some a → g r' = some a → f r = f r' → r = r') :
    occurrences g a ≤ Fintype.card κ := by
  unfold occurrences
  refine card_le_card_of_injOn f (by simp) ?_
  intro r hr r' hr' he
  exact hf r r' (by simpa using hr) (by simpa using hr') he

/-- Clearing a set of places takes away what they referred to. -/
theorem occurrences_clear [DecidableEq ι] (S : Finset ι) (hout : ∀ r ∉ S, f r = g r)
    (hin : ∀ r ∈ S, f r = none) (a : α) :
    occurrences g a = occurrences f a + (S.filter fun r => g r = some a).card := by
  unfold occurrences
  rw [← card_union_of_disjoint]
  · congr 1
    ext r
    by_cases hr : r ∈ S
    · simp [hr, hin r hr]
    · simp [hr, hout r hr]
  · rw [disjoint_left]
    intro r hr hr'
    simp only [mem_filter, mem_univ, true_and] at hr hr'
    rw [hin r hr'.1] at hr
    cases hr

/-- Changing one place. -/
theorem occurrences_update [DecidableEq ι] (r : ι) (hout : ∀ r', r' ≠ r → f r' = g r') (a : α) :
    occurrences f a + (if g r = some a then 1 else 0) =
      occurrences g a + (if f r = some a then 1 else 0) := by
  -- both sides with the place cleared
  have clear (h : ι → Option α) : occurrences h a =
      occurrences (update h r none) a + (if h r = some a then 1 else 0) := by
    rw [occurrences_clear {r} (g := h) (f := update h r none) (fun r' hr' => update_of_ne (by simpa
      using hr') _ _) (fun r' hr' => by rw [mem_singleton.mp hr', update_self])]
    by_cases hr : h r = some a <;> simp [filter_singleton, hr]
  have hsame : update f r none = update g r none := by
    funext r'
    by_cases hr' : r' = r
    · simp [hr']
    · simp [hr', hout r' hr']
  rw [clear g, clear f, hsame]
  omega

/-- Places in rows. -/
theorem occurrences_prod [Fintype κ] {g : ι × κ → Option α} :
    occurrences g a = ∑ i, occurrences (fun j => g (i, j)) a := by
  simp only [occurrences, card_filter, Fintype.sum_prod_type]

/-- Changing one row. -/
theorem occurrences_row [DecidableEq ι] [Fintype κ] {g f : ι × κ → Option α} (i : ι)
    (hout : ∀ i', i' ≠ i → ∀ j, f (i', j) = g (i', j)) (a : α) :
    occurrences f a + occurrences (fun j => g (i, j)) a =
      occurrences g a + occurrences (fun j => f (i, j)) a := by
  have hrest : ∑ i' ∈ univ.erase i, occurrences (fun j => f (i', j)) a =
      ∑ i' ∈ univ.erase i, occurrences (fun j => g (i', j)) a :=
    sum_congr rfl fun i' hi' => by
      simp only [hout i' (ne_of_mem_erase hi')]
  rw [occurrences_prod (g := f), occurrences_prod (g := g), ← add_sum_erase _ _ (mem_univ i), ←
    add_sum_erase _ _ (mem_univ i), hrest]
  omega

/-! ### The objects referred to -/

/-- The objects in `H` and those some place outside `S` refers to. -/
@[irreducible] def referredOutside [DecidableEq ι] (S : Finset ι) (g : ι → Option α) (H : Finset α) : Finset α :=
  (univ.filter (· ∉ S)).biUnion (fun r => (g r).toFinset) ∪ H

theorem mem_referredOutside [DecidableEq ι] :
    a ∈ referredOutside S g H ↔ (∃ r, r ∉ S ∧ g r = some a) ∨ a ∈ H := by
  simp [referredOutside]

/-- An object in one place of `S` only is not among the others. -/
theorem card_referredOutside [DecidableEq ι]
    (hS : ∀ r ∈ S, ∃ a, g r = some a ∧ a ∉ H ∧ ∀ r', g r' = some a → r' = r) :
    (referredOutside ∅ g H).card = (referredOutside S g H).card + S.card := by
  have hcard : (S.biUnion fun r => (g r).toFinset).card = S.card := by
    rw [card_biUnion, card_eq_sum_ones]
    · refine sum_congr rfl fun r hr => ?_
      obtain ⟨a, ha, -⟩ := hS r hr
      rw [ha, toFinset_some, card_singleton]
    · intro r hr r' hr' hne
      obtain ⟨a, ha, -, honly⟩ := hS r hr
      change Disjoint (g r).toFinset (g r').toFinset
      rw [ha, toFinset_some, disjoint_singleton_left, mem_toFinset]
      exact fun ha' => hne (honly r' ha').symm
  rw [← hcard, ← card_union_of_disjoint]
  · congr 1
    ext a
    rw [mem_union, mem_referredOutside, mem_referredOutside, mem_biUnion]
    simp only [notMem_empty, not_false_eq_true, true_and, mem_toFinset, mem_def]
    constructor
    · rintro (⟨r, hr⟩ | ha)
      · by_cases hmem : r ∈ S
        · exact .inr ⟨r, hmem, hr⟩
        · exact .inl (.inl ⟨r, hmem, hr⟩)
      · exact .inl (.inr ha)
    · rintro ((⟨r, -, hr⟩ | ha) | ⟨r, -, hr⟩)
      · exact .inl ⟨r, hr⟩
      · exact .inr ha
      · exact .inl ⟨r, hr⟩
  · rw [disjoint_left]
    intro a ha ha'
    obtain ⟨r, hmem, hr⟩ := mem_biUnion.mp ha'
    obtain ⟨b, hb, hH, honly⟩ := hS r hmem
    obtain rfl : b = a := by
      rw [hb, toFinset_some, mem_singleton] at hr
      exact hr.symm
    rcases mem_referredOutside.mp ha with ⟨r', hnot, hr'⟩ | hheld
    · exact hnot (honly r' hr' ▸ hmem)
    · exact hH hheld

/-- Two states that agree outside of places with objects of their own differ in
the number of objects as in the number of these places. -/
theorem card_referred_add [DecidableEq ι] {S' : Finset ι} {g' : ι → Option α} {H' : Finset α}
    (hS : ∀ r ∈ S, ∃ a, g r = some a ∧ a ∉ H ∧ ∀ r', g r' = some a → r' = r)
    (hS' : ∀ r ∈ S', ∃ a, g' r = some a ∧ a ∉ H' ∧ ∀ r', g' r' = some a → r' = r)
    (hrest : ∀ a, ((∃ r, r ∉ S ∧ g r = some a) ∨ a ∈ H) ↔
      ((∃ r, r ∉ S' ∧ g' r = some a) ∨ a ∈ H')) :
    (referredOutside ∅ g H).card + S'.card = (referredOutside ∅ g' H').card + S.card := by
  have hsame : referredOutside S g H = referredOutside S' g' H' := by
    ext a
    rw [mem_referredOutside, mem_referredOutside]
    exact hrest a
  rw [card_referredOutside hS, card_referredOutside hS', hsame]
  omega

end LinuxRv.RefCount
