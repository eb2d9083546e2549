import Mathlib.Data.Set.Insert
import Mathlib.Tactic.Common

/-!
A table of slots that cache named things.

A slot is empty or has a name, and some names are allocated. The table is
consistent when no two slots have one name and every name in it is allocated.
Then a name that is not allocated is in no slot, so that allocating it and
giving it a slot keeps the table consistent.
-/

namespace LinuxRv.NameTable

open Function

variable {ι κ : Type*} {key : ι → Option κ} {names : Set κ}

structure Consistent (key : ι → Option κ) (names : Set κ) : Prop where
  unique : ∀ i j k, key i = some k → key j = some k → i = j
  allocated : ∀ i k, key i = some k → k ∈ names

theorem Consistent.mono {names' : Set κ} (h : Consistent key names) (hsub : names ⊆ names') :
    Consistent key names' :=
  ⟨h.unique, fun i k hi => hsub (h.allocated i k hi)⟩

variable [DecidableEq ι]

theorem update_none_eq_some {i j : ι} {k : κ} :
    update key i none j = some k ↔ j ≠ i ∧ key j = some k := by
  rcases eq_or_ne j i with rfl | hne
  · simp
  · simp [hne]

namespace Consistent

/-- The name of a slot is given up, and may be used again. -/
theorem free (h : Consistent key names) (i : ι) :
    Consistent (update key i none) {k | k ∈ names ∧ key i ≠ some k} where
  unique j j' k hj hj' :=
    h.unique j j' k (update_none_eq_some.mp hj).2 (update_none_eq_some.mp hj').2
  allocated j k hj := by
    obtain ⟨hne, hkey⟩ := update_none_eq_some.mp hj
    exact ⟨h.allocated j k hkey, fun hi => hne (h.unique j i k hkey hi)⟩

/-- The slot is emptied, and its name stays allocated. -/
theorem evict (h : Consistent key names) (i : ι) : Consistent (update key i none) names :=
  (h.free i).mono fun _ hk => hk.1

/-- A slot gets an allocated name that no slot has. -/
theorem enter (h : Consistent key names) (i : ι) {k : κ} (hk : k ∈ names)
    (hnew : ∀ j, key j ≠ some k) : Consistent (update key i (some k)) names := by
  have hother {j : ι} {k' : κ} (hj : update key i (some k) j = some k') :
      j = i ∧ k' = k ∨ j ≠ i ∧ key j = some k' := by
    rcases eq_or_ne j i with rfl | hne
    · rw [update_self] at hj
      exact Or.inl ⟨rfl, (Option.some.inj hj).symm⟩
    · rw [update_of_ne hne] at hj
      exact Or.inr ⟨hne, hj⟩
  constructor
  · intro j j' k' hj hj'
    rcases hother hj with ⟨rfl, rfl⟩ | ⟨_, hold⟩
    · rcases hother hj' with ⟨rfl, _⟩ | ⟨_, hold'⟩
      · rfl
      · exact (hnew j' hold').elim
    · rcases hother hj' with ⟨rfl, rfl⟩ | ⟨_, hold'⟩
      · exact (hnew j hold).elim
      · exact h.unique j j' k' hold hold'
  · intro j k' hj
    rcases hother hj with ⟨_, rfl⟩ | ⟨_, hold⟩
    · exact hk
    · exact h.allocated j k' hold

/-- A slot gets a new name. -/
theorem create (h : Consistent key names) (i : ι) {k : κ} (hk : k ∉ names) :
    Consistent (update key i (some k)) (insert k names) :=
  (h.mono (Set.subset_insert k names)).enter i (Set.mem_insert k names)
    fun j hj => hk (h.allocated j k hj)

end Consistent

end LinuxRv.NameTable
