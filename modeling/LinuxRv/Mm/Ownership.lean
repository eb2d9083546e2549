import LinuxRv.Lib.RefCount
import LinuxRv.Mm.Pages
import Mathlib.Tactic.DeriveFintype

/-!
Who refers to a frame, abstracted from where the references are stored.

A reference is a task's page directory, an entry of a directory or an entry of
a table; besides, code that has obtained a frame and not yet given it away
holds it. A `View` is the content of all these places and the counters. `Inv`
is the discipline of the memory manager: counters are exact, a frame with a
directory, a table, a holder or a writable mapping has no second reference, and
a frame is mapped at one address only, however many tasks share it.

Six moves, on views, keep the discipline. Every function of the memory manager
is a sequence of them.
-/

namespace LinuxRv.Mm

open ByteMemory RefCount Function Option Multiset

def nrTasks : ℕ := 64

/-- The places a frame can be referred to from. `leaf i k j` is entry `j` of
the table that entry `k` of task `i`'s directory points to. -/
inductive Ref
  | dir (i : Fin nrTasks)
  | table (i : Fin nrTasks) (k : Fin userPgdEntries)
  | leaf (i : Fin nrTasks) (k : Fin userPgdEntries) (j : Fin ptrsPerPage)
  deriving DecidableEq, Fintype

/-- The frame an entry at this place refers to: `pgdir` is an address, the
others are page-table entries. -/
def Ref.phys : Ref → Word → Word
  | .dir _, e => e
  | .table _ _, e => ptePhys e
  | .leaf _ _ _, e => ptePhys e

def Ref.slot : Ref → Fin nrTasks
  | .dir i => i
  | .table i _ => i
  | .leaf i _ _ => i

/-- The page of the address space a leaf maps. -/
def Ref.page : Ref → Option (Fin userPgdEntries × Fin ptrsPerPage)
  | .leaf _ k j => some (k, j)
  | _ => none

def Ref.parent : Ref → Option Ref
  | .dir _ => none
  | .table i _ => some (.dir i)
  | .leaf i k _ => some (.table i k)

/-- An entry whose frame must have no other reference: all but a write
protected mapping. -/
def Ref.Exclusive : Ref → Word → Prop
  | .leaf _ _ _, e => e &&& pteW ≠ 0
  | _, _ => True

/-- Flags of an entry as the kernel writes it. -/
def Ref.WellFormed : Ref → Word → Prop
  | .dir _, _ => True
  | .table _ _, e => e &&& (pteHigh ||| 0x3ff) = pteV
  | .leaf _ _ _, e => e &&& pteUserMask = pteUserBits

@[ext] structure View where
  entry : Ref → Option Word
  held : Multiset Word
  memMap : ℕ → Byte

namespace View

variable {e f : Word} {r' : Ref}

def target (v : View) (r : Ref) : Option Word := (v.entry r).map r.phys

/-- Live references to the frame at `f`. -/
def refs (v : View) (f : Word) : ℕ := occurrences v.target f + v.held.count f

theorem target_of_entry {v : View} {r : Ref} (h : v.entry r = some e) :
    v.target r = some (r.phys e) := by
  rw [target, h]
  rfl

theorem refs_pos_of_entry {v : View} {r : Ref} (h : v.entry r = some e) : 0 < v.refs (r.phys e) :=
  Nat.add_pos_left (occurrences_pos (target_of_entry h)) _

theorem refs_pos_of_held {v : View} (h : f ∈ v.held) : 0 < v.refs f :=
  Nat.add_pos_right _ (count_pos.mpr h)

/-- A frame with one reference that is in an entry has no other entry. -/
theorem eq_of_refs_le_one {v : View} {r : Ref} (h1 : v.refs f ≤ 1) (hr : v.target r = some f)
    (hr' : v.target r' = some f) : r = r' :=
  eq_of_occurrences_le_one (le_trans (Nat.le_add_right _ _) h1) hr hr'

structure Inv (main : MainMemory) (v : View) : Prop where
  exact : ∀ n, main.Has n → (v.memMap n).toNat = v.refs (frame n)
  reserved : ∀ n < pagingPages, ¬ main.Has n → v.memMap n ≠ 0
  main_of_refs : ∀ f, 0 < v.refs f → ∃ n, main.Has n ∧ f = frame n
  exclusive : ∀ r e, v.entry r = some e → r.Exclusive e → v.refs (r.phys e) = 1
  held_exclusive : ∀ f ∈ v.held, v.refs f = 1
  same_page : ∀ r r' f, v.target r = some f → v.target r' = some f → r.page = r'.page
  parent : ∀ r r', r.parent = some r' → v.entry r ≠ none → v.entry r' ≠ none
  wellFormed : ∀ r e, v.entry r = some e → r.WellFormed e

section

variable {main : MainMemory} {v : View} (h : v.Inv main)

include h

theorem Inv.main_of_entry {r : Ref} {e : Word} (he : v.entry r = some e) :
    ∃ n, main.Has n ∧ r.phys e = frame n :=
  h.main_of_refs _ (refs_pos_of_entry he)

theorem Inv.main_of_held {f : Word} (hf : f ∈ v.held) : ∃ n, main.Has n ∧ f = frame n :=
  h.main_of_refs _ (refs_pos_of_held hf)

/-- The place of an exclusive entry is the only one with its frame. -/
theorem Inv.eq_of_exclusive {r r' : Ref} {e : Word} (he : v.entry r = some e)
    (hx : r.Exclusive e) (hr' : v.target r' = some (r.phys e)) : r' = r :=
  eq_of_refs_le_one (h.exclusive r e he hx).le hr' (target_of_entry he)

/-- A held frame is in no entry. -/
theorem Inv.target_ne_held {f : Word} (hf : f ∈ v.held) (r : Ref) : v.target r ≠ some f := by
  intro hr
  have h1 := h.held_exclusive f hf
  have h2 := occurrences_pos hr
  have h3 := count_pos.mpr hf
  unfold refs at h1
  omega

/-- No more references than address spaces, so the counter cannot wrap. -/
theorem Inv.refs_le (f : Word) : v.refs f ≤ nrTasks := by
  by_cases hheld : f ∈ v.held
  · rw [h.held_exclusive f hheld]
    decide
  · rw [refs, count_eq_zero_of_notMem hheld, Nat.add_zero]
    refine (occurrences_le_card Ref.slot ?_).trans (by simp)
    intro r r' hr hr' hslot
    -- two places of one task are told apart by the page they map
    have hpage := h.same_page r r' f hr hr'
    have hsingle (r : Ref) (hr : v.target r = some f) (hno : r.page = none) (r' : Ref)
        (hr' : v.target r' = some f) : r' = r := by
      obtain ⟨e, he, rfl⟩ := map_eq_some_iff.mp hr
      exact h.eq_of_exclusive he (by cases r <;> simp_all [Ref.page, Ref.Exclusive]) hr'
    cases r with
    | dir i => exact (hsingle _ hr rfl r' hr').symm
    | table i k => exact (hsingle _ hr rfl r' hr').symm
    | leaf i k j =>
      cases r' with
      | dir i' => exact hsingle _ hr' rfl _ hr
      | table i' k' => exact hsingle _ hr' rfl _ hr
      | leaf i' k' j' =>
        simp only [Ref.page, some.injEq, Prod.mk.injEq] at hpage
        simp only [Ref.slot] at hslot
        rw [hslot, hpage.1, hpage.2]

end

/-! ### Moves -/

def setEntry (v : View) (r : Ref) (o : Option Word) : View :=
  { v with entry := update v.entry r o }

def setHeld (v : View) (held : Multiset Word) : View := { v with held := held }

def setCount (v : View) (n : ℕ) (c : Byte) : View :=
  { v with memMap := update v.memMap n c }

section

variable (v : View) (r : Ref) (o : Option Word) (m : Multiset Word) (n : ℕ) (c : Byte)

@[simp] theorem entry_setEntry : (v.setEntry r o).entry = update v.entry r o := rfl
@[simp] theorem held_setEntry : (v.setEntry r o).held = v.held := rfl
@[simp] theorem memMap_setEntry : (v.setEntry r o).memMap = v.memMap := rfl
@[simp] theorem entry_setHeld : (v.setHeld m).entry = v.entry := rfl
@[simp] theorem held_setHeld : (v.setHeld m).held = m := rfl
@[simp] theorem memMap_setHeld : (v.setHeld m).memMap = v.memMap := rfl
@[simp] theorem entry_setCount : (v.setCount n c).entry = v.entry := rfl
@[simp] theorem held_setCount : (v.setCount n c).held = v.held := rfl
@[simp] theorem memMap_setCount : (v.setCount n c).memMap = update v.memMap n c := rfl
@[simp] theorem target_setHeld : (v.setHeld m).target = v.target := rfl
@[simp] theorem target_setCount : (v.setCount n c).target = v.target := rfl
@[simp] theorem refs_setCount : (v.setCount n c).refs = v.refs := rfl

theorem target_setEntry (r' : Ref) :
    (v.setEntry r o).target r' = if r' = r then o.map r.phys else v.target r' := by
  by_cases h : r' = r
  · subst h
    simp [target]
  · simp [target, h]

/-- One place changes: the old frame loses a reference, the new one gets it. -/
theorem refs_setEntry (f : Word) :
    (v.setEntry r o).refs f + (if v.target r = some f then 1 else 0) =
      v.refs f + (if o.map r.phys = some f then 1 else 0) := by
  have h := occurrences_update (g := v.target) (f := (v.setEntry r o).target) r
    (fun r' hr' => by rw [target_setEntry, if_neg hr']) f
  rw [target_setEntry, if_pos rfl] at h
  simp only [refs, held_setEntry]
  omega

end

variable {main : MainMemory} {v : View}

/-- Hand out a frame. -/
theorem Inv.alloc (h : v.Inv main) {n : ℕ} (hn : n < pagingPages) (hzero : v.memMap n = 0) :
    ((v.setCount n 1).setHeld (frame n ::ₘ v.held)).Inv main := by
  have hmain : main.Has n := by
    by_contra hnot
    exact h.reserved n hn hnot hzero
  have hfree : v.refs (frame n) = 0 := by
    rw [← h.exact n hmain, hzero]
    rfl
  have hrefs (f : Word) : ((v.setCount n 1).setHeld (frame n ::ₘ v.held)).refs f =
      v.refs f + if f = frame n then 1 else 0 := by
    simp only [refs, target_setHeld, target_setCount, held_setHeld, count_cons]
    omega
  have hne {f : Word} (hf : 0 < v.refs f) : f ≠ frame n := by
    rintro rfl
    omega
  refine ⟨fun n' hn' => ?_, fun n' hn' hnot => ?_, fun f hf => ?_, fun r e (he : v.entry r = some e)
    hx => ?_, fun f (hf : f ∈ frame n ::ₘ v.held) => ?_, h.same_page, h.parent, h.wellFormed⟩
  · rw [hrefs]
    by_cases hnn : n' = n
    · subst hnn
      simp [hfree]
    · have hff : frame n' ≠ frame n := fun he => hnn (frame_inj hn'.lt hn he)
      simpa [hnn, hff] using h.exact n' hn'
  · have hnn : n' ≠ n := by
      rintro rfl
      exact hnot hmain
    simpa [hnn] using h.reserved n' hn' hnot
  · rw [hrefs] at hf
    by_cases hff : f = frame n
    · exact ⟨n, hmain, hff⟩
    · exact h.main_of_refs f (by simpa [hff] using hf)
  · rw [hrefs, if_neg (hne (refs_pos_of_entry he)), Nat.add_zero]
    exact h.exclusive r e he hx
  · rw [hrefs]
    rcases mem_cons.mp hf with rfl | hf
    · simp [hfree]
    · rw [if_neg (hne (refs_pos_of_held hf)), Nat.add_zero]
      exact h.held_exclusive f hf

/-- One reference to frame `n` goes away, together with one count. Nothing
exclusive is left on the frame, since it had at least the reference that
went. -/
theorem Inv.lose (h : v.Inv main) {v' : View} {n : ℕ} (hn : main.Has n)
    (hrefs : ∀ f, v'.refs f + (if f = frame n then 1 else 0) = v.refs f)
    (hmap : v'.memMap = update v.memMap n (v.memMap n - 1))
    (hentry : ∀ r e, v'.entry r = some e → v.entry r = some e) (hheld : ∀ f ∈ v'.held, f ∈ v.held)
    (hparent : ∀ r r', r.parent = some r' → v'.entry r ≠ none → v'.entry r' ≠ none) :
    v'.Inv main := by
  have hle (f : Word) : v'.refs f ≤ v.refs f := by
    rw [← hrefs f]
    exact Nat.le_add_right _ _
  have hone (f : Word) (hpos : 0 < v'.refs f) (h1 : v.refs f = 1) : v'.refs f = 1 := by
    have := hle f
    omega
  have htarget (r : Ref) (f : Word) (hr : v'.target r = some f) : v.target r = some f := by
    obtain ⟨e, he, rfl⟩ := map_eq_some_iff.mp hr
    exact target_of_entry (hentry r e he)
  refine ⟨fun n' hn' => ?_, fun n' hn' hnot => ?_, fun f hf => ?_, fun r e he hx => ?_,
    fun f hf => ?_, fun r r' f hr hr' => ?_, hparent, fun r e he => ?_⟩
  · have hx := h.exact n' hn'
    have hr := hrefs (frame n')
    rw [hmap]
    by_cases hnn : n' = n
    · subst hnn
      rw [if_pos rfl] at hr
      have hpos : 1 ≤ (v.memMap n').toNat := by omega
      have hle : (1 : Byte) ≤ v.memMap n' := BitVec.le_def.mpr hpos
      rw [update_self, BitVec.toNat_sub_of_le hle]
      change (v.memMap n').toNat - 1 = _
      omega
    · have hff : frame n' ≠ frame n := fun he => hnn (frame_inj hn'.lt hn.lt he)
      rw [update_of_ne hnn]
      rw [if_neg hff] at hr
      omega
  · have hnn : n' ≠ n := by
      rintro rfl
      exact hnot hn
    rw [hmap, update_of_ne hnn]
    exact h.reserved n' hn' hnot
  · exact h.main_of_refs f (hf.trans_le (hle f))
  · exact hone _ (refs_pos_of_entry he) (h.exclusive r e (hentry r e he) hx)
  · exact hone _ (refs_pos_of_held hf) (h.held_exclusive f (hheld f hf))
  · exact h.same_page r r' f (htarget r f hr) (htarget r' f hr')
  · exact h.wellFormed r e (hentry r e he)

/-- Give back a held frame. -/
theorem Inv.release (h : v.Inv main) {n : ℕ} (hn : main.Has n) (hheld : frame n ∈ v.held) :
    ((v.setCount n (v.memMap n - 1)).setHeld (v.held.erase (frame n))).Inv main := by
  refine h.lose hn (fun f => ?_) rfl (fun r e he => he) (fun f hf => mem_of_mem_erase hf) h.parent
  have hpos := count_pos.mpr hheld
  simp only [refs, target_setHeld, target_setCount, held_setHeld]
  by_cases hf : f = frame n
  · subst hf
    rw [count_erase_self, if_pos rfl]
    omega
  · rw [count_erase_of_ne hf, if_neg hf]
    omega

theorem entry_of_unset {v : View} {r : Ref} (h : update v.entry r none r' = some e) :
    v.entry r' = some e := by
  by_cases hr : r' = r
  · simp [hr] at h
  · simpa [hr] using h

theorem Inv.parent_unset (h : v.Inv main) {r : Ref}
    (hchild : ∀ r', r'.parent = some r → v.entry r' = none) (r₁ r₂ : Ref) (hp : r₁.parent = some r₂)
    (hne : update v.entry r none r₁ ≠ none) : update v.entry r none r₂ ≠ none := by
  obtain ⟨e₁, hupd⟩ := ne_none_iff_exists'.mp hne
  have he₁ := entry_of_unset hupd
  have hr : r₂ ≠ r := by
    rintro rfl
    rw [hchild r₁ hp] at he₁
    cases he₁
  rw [update_of_ne hr]
  exact h.parent r₁ r₂ hp (by simp [he₁])

theorem Inv.parent_set (h : v.Inv main) {r : Ref}
    (hparent : ∀ r', r.parent = some r' → v.entry r' ≠ none) (r₁ r₂ : Ref)
    (hp : r₁.parent = some r₂) (hne : update v.entry r (some e) r₁ ≠ none) :
    update v.entry r (some e) r₂ ≠ none := by
  by_cases hr : r₂ = r
  · simp [hr]
  rw [update_of_ne hr]
  by_cases hr₁ : r₁ = r
  · exact hparent r₂ (hr₁ ▸ hp)
  · exact h.parent r₁ r₂ hp (by simpa [hr₁] using hne)

theorem Inv.wellFormed_set (h : v.Inv main) {r : Ref} (hwf : r.WellFormed e) (r' : Ref)
    (e' : Word) (he' : update v.entry r (some e) r' = some e') : r'.WellFormed e' := by
  by_cases hr : r' = r
  · subst hr
    rw [update_self, some.injEq] at he'
    rwa [← he']
  · exact h.wellFormed r' e' (by simpa [hr] using he')

/-- Empty a place that nothing hangs from, with its count. -/
theorem Inv.drop (h : v.Inv main) {r : Ref} {n : ℕ} (he : v.entry r = some e) (hn : main.Has n)
    (hphys : r.phys e = frame n) (hchild : ∀ r', r'.parent = some r → v.entry r' = none) :
    ((v.setEntry r none).setCount n (v.memMap n - 1)).Inv main := by
  refine h.lose hn (fun f => ?_) rfl (fun r' e' he' => entry_of_unset he') (fun f hf => hf)
    (h.parent_unset hchild)
  · have hx := v.refs_setEntry r none f
    rw [target_of_entry he, hphys] at hx
    rw [refs_setCount]
    by_cases hf : f = frame n
    · subst hf
      simpa using hx
    · have hf' : frame n ≠ f := fun e => hf e.symm
      simpa [hf, hf'] using hx

/-- Put a held frame into an empty place. No frame gains or loses a
reference. -/
theorem Inv.place (h : v.Inv main) {r : Ref} (hempty : v.entry r = none) (hheld : r.phys e ∈ v.held)
    (hwf : r.WellFormed e) (hparent : ∀ r', r.parent = some r' → v.entry r' ≠ none) :
    ((v.setEntry r (some e)).setHeld (v.held.erase (r.phys e))).Inv main := by
  have hrefs (f : Word) :
      ((v.setEntry r (some e)).setHeld (v.held.erase (r.phys e))).refs f = v.refs f := by
    have hx := v.refs_setEntry r (some e) f
    have hnone : v.target r = none := by rw [target, hempty]; rfl
    have hpos := count_pos.mpr hheld
    simp only [hnone, map_some, some.injEq, reduceCtorEq, if_false] at hx
    simp only [refs, target_setHeld, held_setHeld, held_setEntry] at hx ⊢
    by_cases hf : f = r.phys e
    · subst hf
      rw [if_pos rfl] at hx
      rw [count_erase_self]
      omega
    · have hf' : r.phys e ≠ f := fun e => hf e.symm
      rw [if_neg hf'] at hx
      rw [count_erase_of_ne hf]
      omega
  have hone : v.refs (r.phys e) = 1 := h.held_exclusive _ hheld
  refine ⟨fun n hn => ?_, h.reserved, fun f hf => ?_, fun r' e' he' hx => ?_, fun f hf => ?_,
    fun r₁ r₂ f hr₁ hr₂ => ?_, h.parent_set hparent, h.wellFormed_set hwf⟩
  · rw [hrefs]
    exact h.exact n hn
  · rw [hrefs] at hf
    exact h.main_of_refs f hf
  · rw [hrefs]
    by_cases hr : r' = r
    · subst hr
      simp only [entry_setHeld, entry_setEntry, update_self, some.injEq] at he'
      rw [← he']
      exact hone
    · exact h.exclusive r' e' (by simpa [hr] using he') hx
  · rw [hrefs]
    exact h.held_exclusive f (mem_of_mem_erase hf)
  · by_cases hf : f = r.phys e
    · subst hf
      rw [eq_of_refs_le_one (by rw [hrefs, hone]) hr₁ hr₂]
    · have hne (r' : Ref) (hr' : (v.setEntry r (some e)).target r' = some f) :
          v.target r' = some f := by
        rw [target_setEntry] at hr'
        by_cases hr : r' = r
        · rw [if_pos hr, map_some, some.injEq] at hr'
          exact absurd hr'.symm hf
        · rwa [if_neg hr] at hr'
      exact h.same_page r₁ r₂ f (hne r₁ hr₁) (hne r₂ hr₂)

/-- Take the frame out of a place that nothing hangs from, and hold it. No frame
gains or loses a reference. -/
theorem Inv.unplace (h : v.Inv main) {r : Ref} (he : v.entry r = some e) (hx : r.Exclusive e)
    (hchild : ∀ r', r'.parent = some r → v.entry r' = none) :
    ((v.setEntry r none).setHeld (r.phys e ::ₘ v.held)).Inv main := by
  have hone : v.refs (r.phys e) = 1 := h.exclusive r e he hx
  have hrefs (f : Word) : ((v.setEntry r none).setHeld (r.phys e ::ₘ v.held)).refs f = v.refs f := by
    have hset := v.refs_setEntry r none f
    rw [target_of_entry he] at hset
    simp only [map_none, reduceCtorEq, if_false, some.injEq, Nat.add_zero] at hset
    simp only [refs, target_setHeld, held_setHeld, held_setEntry, count_cons] at hset ⊢
    rw [← hset]
    by_cases hf : f = r.phys e
    · rw [if_pos hf, if_pos hf.symm]
      omega
    · rw [if_neg hf, if_neg fun h => hf h.symm]
      omega
  have htarget (r' : Ref) (f : Word) (hr' : (v.setEntry r none).target r' = some f) :
      v.target r' = some f := by
    obtain ⟨e', he', rfl⟩ := map_eq_some_iff.mp hr'
    exact target_of_entry (entry_of_unset he')
  refine ⟨fun n hn => ?_, h.reserved, fun f hf => ?_, fun r' e' he' hx' => ?_, fun f hf => ?_,
    fun r₁ r₂ f hr₁ hr₂ => ?_, h.parent_unset hchild, fun r' e' he' => ?_⟩
  · rw [hrefs]
    exact h.exact n hn
  · rw [hrefs] at hf
    exact h.main_of_refs f hf
  · rw [hrefs]
    exact h.exclusive r' e' (entry_of_unset he') hx'
  · rw [hrefs]
    rcases mem_cons.mp hf with rfl | hf
    · exact hone
    · exact h.held_exclusive f hf
  · exact h.same_page r₁ r₂ f (htarget r₁ f hr₁) (htarget r₂ f hr₂)
  · exact h.wellFormed r' e' (entry_of_unset he')

/-- Change the flags of a mapping; `W` only where the frame has no other
reference. -/
theorem Inv.reflag (h : v.Inv main) {r : Ref} (e' : Word) (he : v.entry r = some e)
    (hphys : r.phys e' = r.phys e) (hwf : r.WellFormed e')
    (hx : r.Exclusive e' → v.refs (r.phys e) = 1) : (v.setEntry r (some e')).Inv main := by
  have htarget : (v.setEntry r (some e')).target = v.target := by
    funext r'
    rw [target_setEntry]
    by_cases hr : r' = r
    · rw [if_pos hr, hr, target_of_entry he, map_some, hphys]
    · rw [if_neg hr]
  have hrefs : (v.setEntry r (some e')).refs = v.refs := by
    funext f
    rw [refs, htarget]
    rfl
  refine ⟨fun n hn => ?_, h.reserved, fun f hf => ?_, fun r' e₁ he₁ hx' => ?_, fun f hf => ?_,
    fun r₁ r₂ f hr₁ hr₂ => ?_, h.parent_set fun r' hp => h.parent r r' hp (by simp [he]),
    h.wellFormed_set hwf⟩
  · rw [hrefs]
    exact h.exact n hn
  · rw [hrefs] at hf
    exact h.main_of_refs f hf
  · rw [hrefs]
    by_cases hr : r' = r
    · subst hr
      simp only [entry_setEntry, update_self, some.injEq] at he₁
      subst he₁
      rw [hphys]
      exact hx hx'
    · exact h.exclusive r' e₁ (by simpa [hr] using he₁) hx'
  · rw [hrefs]
    exact h.held_exclusive f hf
  · rw [htarget] at hr₁ hr₂
    exact h.same_page r₁ r₂ f hr₁ hr₂

/-- Map a write protected page a second time, at the same address of another
task, with one more count. -/
theorem Inv.share (h : v.Inv main) {r : Ref} (r' : Ref) {n : ℕ} (he : v.entry r = some e)
    (hn : main.Has n) (hphys : r.phys e = frame n) (hphys' : r'.phys e = frame n)
    (hx : ¬ r.Exclusive e) (hx' : ¬ r'.Exclusive e) (hpage : r'.page = r.page)
    (hwf : r'.WellFormed e) (hempty : v.entry r' = none)
    (hparent : ∀ q, r'.parent = some q → v.entry q ≠ none) :
    ((v.setEntry r' (some e)).setCount n (v.memMap n + 1)).Inv main := by
  have hold : v.target r = some (frame n) := hphys ▸ target_of_entry he
  have hrefs (f : Word) : ((v.setEntry r' (some e)).setCount n (v.memMap n + 1)).refs f =
      v.refs f + if f = frame n then 1 else 0 := by
    have hs := v.refs_setEntry r' (some e) f
    have hnone : v.target r' = none := by rw [target, hempty]; rfl
    simp only [hnone, map_some, hphys', some.injEq, reduceCtorEq, if_false] at hs
    rw [refs_setCount]
    by_cases hf : f = frame n
    · subst hf
      simpa using hs
    · have hf' : frame n ≠ f := fun e => hf e.symm
      simpa [hf, hf'] using hs
  -- whatever is exclusive is not on this frame, where the mapping shared is
  have hne {r₁ : Ref} {e₁ : Word} (he₁ : v.entry r₁ = some e₁) (hx₁ : r₁.Exclusive e₁) :
      r₁.phys e₁ ≠ frame n := by
    intro hf
    have hr := h.eq_of_exclusive he₁ hx₁ (by rw [hf]; exact hold)
    subst hr
    rw [he₁, some.injEq] at he
    exact hx (he ▸ hx₁)
  have htarget {q : Ref} {f : Word} (hq : (v.setEntry r' (some e)).target q = some f) :
      (q = r' ∧ f = frame n) ∨ v.target q = some f := by
    rw [target_setEntry] at hq
    by_cases hqr : q = r'
    · rw [if_pos hqr, map_some, hphys', some.injEq] at hq
      exact Or.inl ⟨hqr, hq.symm⟩
    · rw [if_neg hqr] at hq
      exact Or.inr hq
  refine ⟨fun n' hn' => ?_, fun n' hn' hnot => ?_, fun f hf => ?_, fun r₁ e₁ he₁ hx₁ => ?_,
    fun f hf => ?_, fun r₁ r₂ f hr₁ hr₂ => ?_, h.parent_set hparent, h.wellFormed_set hwf⟩
  · rw [hrefs]
    have hexact := h.exact n' hn'
    by_cases hnn : n' = n
    · subst hnn
      have hbound := h.refs_le (frame n')
      have hadd : (v.memMap n' + 1).toNat = (v.memMap n').toNat + 1 := by
        rw [BitVec.toNat_add]
        change ((v.memMap n').toNat + 1) % 2 ^ 8 = _
        unfold nrTasks at hbound
        omega
      rw [View.memMap_setCount, update_self, hadd, hexact, if_pos rfl]
    · have hff : frame n' ≠ frame n := fun he => hnn (frame_inj hn'.lt hn.lt he)
      simpa [hnn, hff] using hexact
  · have hnn : n' ≠ n := by
      rintro rfl
      exact hnot hn
    simpa [hnn] using h.reserved n' hn' hnot
  · rw [hrefs] at hf
    by_cases hff : f = frame n
    · exact ⟨n, hn, hff⟩
    · exact h.main_of_refs f (by simpa [hff] using hf)
  · by_cases hr : r₁ = r'
    · subst hr
      simp only [entry_setCount, entry_setEntry, update_self, some.injEq] at he₁
      exact absurd (he₁ ▸ hx₁) hx'
    · have he₂ : v.entry r₁ = some e₁ := by simpa [hr] using he₁
      rw [hrefs, if_neg (hne he₂ hx₁), Nat.add_zero]
      exact h.exclusive r₁ e₁ he₂ hx₁
  · have hff : f ≠ frame n := by
      rintro rfl
      exact h.target_ne_held hf r hold
    rw [hrefs, if_neg hff, Nat.add_zero]
    exact h.held_exclusive f hf
  · rcases htarget hr₁ with ⟨rfl, rfl⟩ | hv₁
    · rcases htarget hr₂ with ⟨rfl, -⟩ | hv₂
      · rfl
      · rw [hpage]
        exact h.same_page r r₂ _ hold hv₂
    · rcases htarget hr₂ with ⟨rfl, rfl⟩ | hv₂
      · rw [hpage]
        exact h.same_page r₁ r _ hv₁ hold
      · exact h.same_page r₁ r₂ f hv₁ hv₂

end View

end LinuxRv.Mm
