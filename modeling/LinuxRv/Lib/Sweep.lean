import Mathlib.Data.List.Basic

/-!
Sweeps of an elevator.

A queue that is served in sweeps is ascending but for the places where a new
sweep begins. `sweep` inserts an element behind the first place that suits it:
between a smaller and a greater element, or in front of the first one of a sweep
if that one is greater. An element that is not served yet then never starts a
sweep of its own as long as there is another one to join.
-/

namespace LinuxRv.Sweep

variable {α : Type} {lt : α → α → Bool} {q a : α} {l : List α}

/-- The places where the order breaks off. -/
def descents (lt : α → α → Bool) : List α → ℕ
  | a :: b :: l => (if lt a b then 0 else 1) + descents lt (b :: l)
  | _ => 0

/-- The element `q` goes into `a :: l`, behind `a`. -/
def sweep (lt : α → α → Bool) (q : α) : α → List α → List α
  | a, [] => [a, q]
  | a, b :: l => if (lt a q || !lt a b) && lt q b then a :: q :: b :: l else a :: sweep lt q b l

theorem descents_cons_sweep (lt : α → α → Bool) (q a b : α) (l : List α) :
    descents lt (a :: sweep lt q b l) = (if lt a b then 0 else 1) + descents lt (sweep lt q b l) := by
  cases l with
  | nil => rfl
  | cons c l =>
    rw [sweep]
    split <;> rfl

/-- Within one sweep that starts below `q` there is a place for it. -/
theorem descents_sweep_of_lt (htotal : ∀ x ∈ l, lt q x = true ∨ lt x q = true) (ha : lt a q = true)
    (h : descents lt (a :: l) = 0) : descents lt (sweep lt q a l) = 0 := by
  induction l generalizing a with
  | nil => simp [sweep, descents, ha]
  | cons b l ih =>
    rw [descents, Nat.add_eq_zero_iff] at h
    rw [sweep]
    cases hb : lt q b with
    | true => simp [descents, ha, hb, h.2]
    | false =>
      have hbq : lt b q = true := (htotal b (by simp)).resolve_left (by simp [hb])
      rw [Bool.and_false, if_neg Bool.false_ne_true, descents_cons_sweep, h.1,
        ih (fun x hx => htotal x (List.mem_cons_of_mem b hx)) hbq h.2]

/-- The queue keeps a single turning point. -/
theorem descents_sweep_le (htotal : ∀ x ∈ l, lt q x = true ∨ lt x q = true)
    (h : descents lt (a :: l) ≤ 1) : descents lt (sweep lt q a l) ≤ 1 := by
  induction l generalizing a with
  | nil =>
    simp only [sweep, descents]
    split <;> decide
  | cons b l ih =>
    rw [descents] at h
    rw [sweep]
    split
    · next hplace =>
        obtain ⟨hplace, hb⟩ := Bool.and_eq_true_iff.mp hplace
        rw [descents, descents, if_pos hb, Nat.zero_add]
        rcases Bool.or_eq_true_iff.mp hplace with ha | ha
        · rw [if_pos ha]
          omega
        · rw [if_neg (by simpa using ha)] at h
          split <;> omega
    · next hplace =>
        have htotal' : ∀ x ∈ l, lt q x = true ∨ lt x q = true := fun x hx =>
          htotal x (List.mem_cons_of_mem b hx)
        rw [descents_cons_sweep]
        cases hab : lt a b with
        | true =>
          rw [if_pos rfl, Nat.zero_add]
          exact ih htotal' (Nat.le_trans (Nat.le_add_left ..) h)
        | false =>
          -- the turning point is here, and `q` belongs into the sweep that starts with `b`
          have hbq : lt b q = true := by
            refine (htotal b (by simp)).resolve_left fun hqb => hplace ?_
            rw [hab, hqb]
            simp
          rw [hab] at h
          have hzero : descents lt (b :: l) = 0 := Nat.le_zero.mp (Nat.le_of_add_le_add_left h)
          rw [descents_sweep_of_lt htotal' hbq hzero]
          simp

end LinuxRv.Sweep
