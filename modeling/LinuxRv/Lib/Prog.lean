import Mathlib.Data.List.FinRange

/-!
Weakest preconditions for imperative code that may stop.

A procedure is an `EStateM ε σ α`: it either returns a value or stops for a
reason `ε` it never comes back from, and in both cases it leaves a state.
`wp c Q E s` says that running `c` from `s` ends either in a return that
satisfies `Q` or in a stop that satisfies `E`; code that must not stop is
specified with an `E` that is false of the stops in question.

Each construct has a rule, an equivalence where the construct is primitive, so
a specification of straight-line code is unfolded by rewriting. The two loops
are the C `for` over an index range, with and without a `return` in its body;
their rules take an invariant of the number of iterations done.
-/

namespace LinuxRv.Prog

open List

variable {ε σ α β ρ ι : Type}

/-- Irreducible, so that elaborating a statement about a loop does not run it. -/
@[irreducible] def wp (c : EStateM ε σ α) (Q : α → σ → Prop) (E : ε → σ → Prop) (s : σ) : Prop :=
  match c s with
  | .ok a s' => Q a s'
  | .error e s' => E e s'

section

variable {Q : α → σ → Prop} {E : ε → σ → Prop} {s : σ} {c : EStateM ε σ α} {s' : σ} {a : α} {e : ε}
  {Q' : α → σ → Prop} {E' : ε → σ → Prop} {p : Prop}

theorem wp_of_ok (h : c s = .ok a s') : wp c Q E s ↔ Q a s' := by
  rw [wp, h]

theorem wp_of_error (h : c s = .error e s') : wp c Q E s ↔ E e s' := by
  rw [wp, h]

/-- A run with a known precondition, read backwards. -/
theorem wp.of_ok (hwp : wp c Q E s) (h : c s = .ok a s') : Q a s' :=
  (wp_of_ok h).mp hwp

theorem wp.of_error (hwp : wp c Q E s) (h : c s = .error e s') : E e s' :=
  (wp_of_error h).mp hwp

/-- To be evaluated. -/
instance decidableWp {c : EStateM ε σ α} [∀ a s', Decidable (Q a s')] [∀ e s', Decidable (E e s')] :
    Decidable (wp c Q E s) :=
  match h : c s with
  | .ok _ _ => decidable_of_iff' _ (wp_of_ok h)
  | .error _ _ => decidable_of_iff' _ (wp_of_error h)

theorem exists_of_wp (h : wp c Q (fun _ _ => False) s) : ∃ a s', c s = .ok a s' ∧ Q a s' := by
  cases hc : c s with
  | ok a s' => exact ⟨a, s', rfl, h.of_ok hc⟩
  | error e s' => exact (h.of_error hc).elim

/-- A computation with one possible result has it. -/
theorem ok_of_wp (h : wp c (fun a' s'' => a' = a ∧ s'' = s') (fun _ _ => False) s) :
    c s = .ok a s' := by
  obtain ⟨_, _, hc, rfl, rfl⟩ := exists_of_wp h
  exact hc

theorem wp_of_results (h : ∀ a s', c s = .ok a s' → Q a s')
    (h' : ∀ e s', c s = .error e s' → E e s') : wp c Q E s := by
  unfold wp
  split
  · next hc => exact h _ _ hc
  · next hc => exact h' _ _ hc

theorem wp.mono (h : wp c Q E s) (hQ : ∀ a s', Q a s' → Q' a s') (hE : ∀ e s', E e s' → E' e s') :
    wp c Q' E' s := by
  unfold wp at *
  split at h
  · exact hQ _ _ h
  · exact hE _ _ h

/-- The common case of `wp.mono`: what is said about stops stays. -/
theorem wp_of_forall (h : ∀ a s', Q a s') (h' : ∀ e s', E e s') : wp c Q E s := by
  unfold wp
  cases c s
  · exact h _ _
  · exact h' _ _

theorem wp.imp (h : wp c Q E s) (hQ : ∀ a s', Q a s' → Q' a s') : wp c Q' E s :=
  h.mono hQ fun _ _ he => he

@[simp] theorem wp_pure : wp (pure a) Q E s ↔ Q a s := by
  unfold wp
  rfl

@[simp] theorem wp_bind {f : α → EStateM ε σ β} {Q : β → σ → Prop} :
    wp (c >>= f) Q E s ↔ wp c (fun a s' => wp (f a) Q E s') E s := by
  unfold wp
  simp only [bind, EStateM.bind]
  cases c s <;> rfl

@[simp] theorem wp_map {f : α → β} {Q : β → σ → Prop} :
    wp (f <$> c) Q E s ↔ wp c (fun a s' => Q (f a) s') E s := by
  unfold wp
  simp only [Functor.map, EStateM.map]
  cases c s <;> rfl

@[simp] theorem wp_get {Q : σ → σ → Prop} : wp get Q E s ↔ Q s s := by
  unfold wp
  rfl

@[simp] theorem wp_set {Q : PUnit → σ → Prop} : wp (set s') Q E s ↔ Q ⟨⟩ s' := by
  unfold wp
  rfl

@[simp] theorem wp_modify {f : σ → σ} {Q : PUnit → σ → Prop} :
    wp (modify f) Q E s ↔ Q ⟨⟩ (f s) := by
  unfold wp
  rfl

@[simp] theorem wp_throw : wp (throw e) Q E s ↔ E e s := by
  unfold wp
  rfl

theorem wp_ite [Decidable p] {c' : EStateM ε σ α} :
    wp (if p then c else c') Q E s ↔ (p → wp c Q E s) ∧ (¬p → wp c' Q E s) := by
  by_cases h : p <;> simp [h]

/-- A choice that the rest of the program has been drawn into. -/
theorem wp_ite_bind {β : Type} [Decidable p] {c c' : EStateM ε σ β} {f : β → EStateM ε σ α} :
    wp (if p then c >>= f else c' >>= f) Q E s ↔
      wp (if p then c else c') (fun b s' => wp (f b) Q E s') E s := by
  by_cases h : p
  · rw [if_pos h, if_pos h, wp_bind]
  · rw [if_neg h, if_neg h, wp_bind]

/-- Whether a program returns, to be evaluated. -/
def returns (c : EStateM ε σ α) (s : σ) : Bool :=
  match c s with
  | .ok .. => true
  | .error .. => false

theorem bind_of_ok {f : α → EStateM ε σ β} {s : σ} (h : c s = .ok a s') : (c >>= f) s = f a s' := by
  change EStateM.bind c f s = _
  rw [EStateM.bind, h]

theorem exists_of_bind {f : α → EStateM ε σ β} {s s'' : σ} {b : β} (h : (c >>= f) s = .ok b s'') :
    ∃ a s', c s = .ok a s' ∧ f a s' = .ok b s'' := by
  change EStateM.bind c f s = _ at h
  rw [EStateM.bind] at h
  split at h
  · next a s' hc => exact ⟨a, s', hc, h⟩
  · cases h

theorem exists_of_returns {s : σ} (h : returns c s = true) : ∃ a s', c s = .ok a s' := by
  unfold returns at h
  cases hc : c s with
  | ok a s' => exact ⟨a, s', rfl⟩
  | error e s' => simp [hc] at h

/-- What a program stops with, to be evaluated. -/
def stop (c : EStateM ε σ α) (s : σ) : Option ε :=
  match c s with
  | .ok .. => none
  | .error e _ => some e

theorem error_of_stop {s : σ} (h : stop c s = some e) : ∃ s', c s = .error e s' := by
  unfold stop at h
  cases hc : c s with
  | ok a s' => simp [hc] at h
  | error e' s' =>
    rw [hc] at h
    exact ⟨s', by rw [Option.some.inj h]⟩

/-- The state a program leaves, to be evaluated. -/
def after (c : EStateM ε σ α) (s : σ) : σ :=
  match c s with
  | .ok _ s' => s'
  | .error _ s' => s'

theorem ok_after_of_returns {s : σ} (h : returns c s = true) : ∃ a, c s = .ok a (after c s) := by
  obtain ⟨a, s', hc⟩ := exists_of_returns h
  refine ⟨a, ?_⟩
  rw [after, hc]

/-- The rule for what comes next. -/
theorem wp.next {f : α → EStateM ε σ β} {Q : β → σ → Prop} {R : α → σ → Prop} (h : wp c R E s)
    (hf : ∀ a s', R a s' → wp (f a) Q E s') : wp (c >>= f) Q E s :=
  wp_bind.mpr (h.imp hf)

theorem wp_and (h : wp c Q E s) (h' : wp c Q' E' s) : wp c (fun a s' => Q a s' ∧ Q' a s') E s := by
  unfold wp at *
  cases hc : c s with
  | ok a s' => simp only [hc] at h h'; exact ⟨h, h'⟩
  | error e s' => simp only [hc] at h; exact h

/-- A program has an outcome. -/
theorem not_wp_false : ¬ wp c (fun _ _ => False) (fun _ _ => False) s := by
  unfold wp
  cases c s <;> exact id

end

/-! ### Loops -/

variable {E : ε → σ → Prop} {s : σ}

/-- `for (i = 0; i < n; i++)` without a `return` in the body. -/
@[irreducible] def forN (n : ℕ) (f : Fin n → EStateM ε σ PUnit) : EStateM ε σ PUnit :=
  forM (finRange n) f

/-- A loop whose body may `return`: the first value returned ends it. -/
def findRet : List ι → (ι → EStateM ε σ (Option ρ)) → EStateM ε σ (Option ρ)
  | [], _ => pure none
  | i :: l, f => do
      match ← f i with
      | some r => pure (some r)
      | none => findRet l f

/-- `for (i = 0; i < n; i++)` with a `return` in the body. -/
@[irreducible] def forNRet (n : ℕ) (f : Fin n → EStateM ε σ (Option ρ)) : EStateM ε σ (Option ρ) :=
  findRet (finRange n) f

/-- Induction on what is left of a loop over `List.finRange n`. -/
theorem finRange_induction {n : ℕ} {P : ℕ → List (Fin n) → Prop} (hnil : P n [])
    (hcons : ∀ (k : Fin n) l, P (k + 1) l → P k (k :: l)) : P 0 (finRange n) := by
  suffices H : ∀ d k, k + d = n → P k ((finRange n).drop k) from H n 0 (Nat.zero_add n)
  intro d
  induction d with
  | zero =>
    rintro k rfl
    rwa [drop_eq_nil_of_le (by simp)]
  | succ d ih =>
    intro k hk
    have hdrop : (finRange n).drop k = ⟨k, by omega⟩ :: (finRange n).drop (k + 1) := by
      rw [drop_eq_getElem_cons (by simp; omega)]
      simp
    rw [hdrop]
    exact hcons ⟨k, _⟩ _ (ih (k + 1) (by omega))

theorem wp_forN {n : ℕ} {f : Fin n → EStateM ε σ PUnit} (I : ℕ → σ → Prop)
    (hstep : ∀ (k : Fin n) (s : σ), I k s → wp (f k) (fun _ => I (k + 1)) E s) (h0 : I 0 s) :
    wp (forN n f) (fun _ => I n) E s := by
  unfold forN
  refine finRange_induction (P := fun k l => ∀ s, I k s → wp (forM l f) (fun _ => I n) E s)
    (fun s hI => wp_pure.mpr hI) (fun k l ih s hI => ?_) s h0
  rw [forM_cons, wp_bind]
  exact (hstep k s hI).imp fun _ => ih

theorem wp_forNRet {n : ℕ} {f : Fin n → EStateM ε σ (Option ρ)} (I : ℕ → σ → Prop)
    (R : ρ → σ → Prop) (hstep : ∀ (k : Fin n) (s : σ), I k s →
      wp (f k) (fun r s' => match r with | some r => R r s' | none => I (k + 1) s') E s)
    (h0 : I 0 s) :
    wp (forNRet n f) (fun r s' => match r with | some r => R r s' | none => I n s') E s := by
  unfold forNRet
  refine finRange_induction (P := fun k l => ∀ s, I k s → wp (findRet l f)
    (fun r s' => match r with | some r => R r s' | none => I n s') E s)
    (fun s hI => wp_pure.mpr hI) (fun k l ih s hI => ?_) s h0
  rw [findRet, wp_bind]
  refine (hstep k s hI).imp fun r s' hs' => ?_
  cases r with
  | some r => exact wp_pure.mpr hs'
  | none => exact ih s' hs'

/-! ### Invariants -/

/-- `c` keeps `I`, whether it returns or stops. -/
def Preserves (I : σ → Prop) (c : EStateM ε σ α) : Prop :=
  ∀ s, I s → wp c (fun _ => I) (fun _ => I) s

namespace Preserves

variable {I : σ → Prop}

theorem pure (a : α) : Preserves I (pure a : EStateM ε σ α) := fun _ h => wp_pure.mpr h

theorem throw (e : ε) : Preserves I (throw e : EStateM ε σ α) := fun _ h => wp_throw.mpr h

theorem get : Preserves I (get : EStateM ε σ σ) := fun _ h => wp_get.mpr h

theorem modify {f : σ → σ} (h : ∀ s, I s → I (f s)) : Preserves I (modify f : EStateM ε σ PUnit) :=
  fun s hs => wp_modify.mpr (h s hs)

theorem bind {c : EStateM ε σ α} {f : α → EStateM ε σ β} (hc : Preserves I c)
    (hf : ∀ a, Preserves I (f a)) : Preserves I (c >>= f) :=
  fun s hs => wp_bind.mpr ((hc s hs).imp fun a s' hs' => hf a s' hs')

theorem discard {c : EStateM ε σ α} (hc : Preserves I c) : Preserves I (discard c) :=
  fun s hs => wp_map.mpr ((hc s hs).imp fun _ _ h => h)

theorem ite {p : Prop} [Decidable p] {c c' : EStateM ε σ α} (hc : Preserves I c)
    (hc' : Preserves I c') : Preserves I (if p then c else c') := by
  split
  · exact hc
  · exact hc'

theorem forN {n : ℕ} {f : Fin n → EStateM ε σ PUnit} (hf : ∀ i, Preserves I (f i)) :
    Preserves I (forN n f) :=
  fun _ hs => wp_forN (fun _ => I) (fun k s hI => hf k s hI) hs

end Preserves

/-! ### Invariants of what returns -/

/-- `c` keeps `I` when it returns, and stops only with `E`. -/
def Keeps (I : σ → Prop) (E : ε → σ → Prop) (c : EStateM ε σ α) : Prop :=
  ∀ s, I s → wp c (fun _ => I) E s

namespace Keeps

variable {I : σ → Prop} {c : EStateM ε σ α} {f : α → EStateM ε σ β} {n : ℕ}

theorem pure (a : α) : Keeps I E (pure a : EStateM ε σ α) := fun _ h => wp_pure.mpr h

theorem throw {e : ε} (h : ∀ s, I s → E e s) : Keeps I E (throw e : EStateM ε σ α) :=
  fun s hs => wp_throw.mpr (h s hs)

theorem get : Keeps I E (get : EStateM ε σ σ) := fun _ h => wp_get.mpr h

theorem modify {f : σ → σ} (h : ∀ s, I s → I (f s)) : Keeps I E (modify f : EStateM ε σ PUnit) :=
  fun s hs => wp_modify.mpr (h s hs)

theorem bind (hc : Keeps I E c) (hf : ∀ a, Keeps I E (f a)) : Keeps I E (c >>= f) :=
  fun s hs => wp_bind.mpr ((hc s hs).imp fun a s' hs' => hf a s' hs')

theorem next {Q : β → σ → Prop} (hc : Keeps I E c) (hs : I s)
    (hf : ∀ a s', I s' → wp (f a) Q E s') : wp (c >>= f) Q E s :=
  (hc s hs).next hf

/-- A program that keeps `I`, and what comes after it. -/
theorem wp_then {E' : ε → σ → Prop} {Q : β → σ → Prop} (hc : Keeps I E c)
    (hE : ∀ e s, E e s → E' e s) (hs : I s) (hf : ∀ a s', I s' → wp (f a) Q E' s') :
    wp (c >>= f) Q E' s :=
  wp_bind.mpr ((hc s hs).mono hf hE)

theorem ite {p : Prop} [Decidable p] {c' : EStateM ε σ α} (hc : Keeps I E c) (hc' : Keeps I E c') :
    Keeps I E (if p then c else c') := by
  split
  · exact hc
  · exact hc'

theorem discard (hc : Keeps I E c) : Keeps I E (discard c) :=
  fun s hs => wp_map.mpr ((hc s hs).imp fun _ _ h => h)

theorem forN {f : Fin n → EStateM ε σ PUnit} (hf : ∀ i, Keeps I E (f i)) : Keeps I E (forN n f) :=
  fun _ hs => wp_forN (fun _ => I) (fun k s hI => hf k s hI) hs

theorem forNRet {f : Fin n → EStateM ε σ (Option ρ)} (hf : ∀ i, Keeps I E (f i)) :
    Keeps I E (forNRet n f) := by
  intro s hs
  refine (wp_forNRet (fun _ => I) (fun _ => I) (fun k s hI => ?_) hs).imp fun r s' h => ?_
  · refine (hf k s hI).imp fun r s' h => ?_
    cases r <;> exact h
  · cases r <;> exact h

theorem forM {l : List ι} {f : ι → EStateM ε σ PUnit} (hf : ∀ i, Keeps I E (f i)) :
    Keeps I E (forM l f) := by
  induction l with
  | nil => exact Keeps.pure _
  | cons i l ih => exact (hf i).bind fun _ => ih

end Keeps

end LinuxRv.Prog
