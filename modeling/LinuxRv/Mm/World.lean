import LinuxRv.Mm.Ownership

/-!
The page tables in memory, seen as references.

A `World` is the memory manager's state with the directory of every task and
the frames that have been obtained and not yet given away. Its view reads the
references out of memory. What a store into a directory or a table does to the
view, and that a store anywhere else does nothing, are the lemmas through which
the functions of `mm/memory.c` are related to the moves on views.
-/

namespace LinuxRv.Mm

open ByteMemory RefCount Function View.Inv Ref
open Option (bind_congr bind_none bind_some some)

variable {i : ℕ} {p : Word}

@[ext] structure World where
  mm : State
  /-- `task[i]->pgdir`, if task `i` exists and has an address space. -/
  pgdir : Fin nrTasks → Option Word
  held : Multiset Word

def validEntry (e : Word) : Option Word := if e &&& pteV = 0 then none else some e

/-- A valid entry of the directory or table at `p`. -/
def entryAt (μ : Mem) (p : Word) (i : ℕ) : Option Word := validEntry (word μ p i)

def entries (pgdir : Fin nrTasks → Option Word) (μ : Mem) : Ref → Option Word
  | .dir i => pgdir i
  | .table i k => (pgdir i).bind fun d => entryAt μ d k
  | .leaf i k j => ((pgdir i).bind fun d => entryAt μ d k).bind fun e => entryAt μ (ptePhys e) j

def World.view (w : World) : View where
  entry := entries w.pgdir w.mm.mem
  held := w.held
  memMap := w.mm.memMap

def World.Inv (main : MainMemory) (w : World) : Prop := w.view.Inv main

theorem entryAt_congr {μ μ' : Mem} (h : word μ' p i = word μ p i) :
    entryAt μ' p i = entryAt μ p i := by
  rw [entryAt, entryAt, h]

theorem validEntry_of_valid {e : Word} (h : e &&& pteV ≠ 0) : validEntry e = some e := if_neg h

theorem entryAt_eq_some {μ : Mem} {e : Word} (h : entryAt μ p i = some e) :
    word μ p i = e ∧ e &&& pteV ≠ 0 := by
  unfold entryAt validEntry at h
  by_cases hv : word μ p i &&& pteV = 0
  · rw [if_pos hv] at h
    cases h
  · rw [if_neg hv, some.injEq] at h
    exact ⟨h, h ▸ hv⟩

theorem entryAt_eq_none_iff {μ : Mem} : entryAt μ p i = none ↔ word μ p i &&& pteV = 0 := by
  unfold entryAt validEntry
  by_cases hv : word μ p i &&& pteV = 0 <;> simp [hv]

theorem entryAt_setWord {μ : Mem} {q x : Word} {j : ℕ} (hp : IsFrame p) (hq : IsFrame q)
    (hi : i < ptrsPerPage) (hj : j < ptrsPerPage) :
    entryAt (setWord μ p i x) q j = if q = p ∧ j = i then validEntry x else entryAt μ q j := by
  rw [entryAt, word_setWord hp hq hi hj]
  by_cases h : q = p ∧ j = i
  · rw [if_pos h, if_pos h]
  · rw [if_neg h, if_neg h, entryAt]

/-! ### Reading entries -/

section

variable {i : Fin nrTasks} {pgdir : Fin nrTasks → Option Word} {μ : Mem}

theorem entries_table {d : Word} (hd : pgdir i = some d)
    (k : Fin userPgdEntries) : entries pgdir μ (.table i k) = entryAt μ d k := by
  simp [entries, hd]

theorem entries_leaf {k : Fin userPgdEntries} {e : Word}
    (he : entries pgdir μ (.table i k) = some e) (j : Fin ptrsPerPage) :
    entries pgdir μ (.leaf i k j) = entryAt μ (ptePhys e) j := by
  have he' : ((pgdir i).bind fun d => entryAt μ d k) = some e := he
  simp [entries, he']

theorem entries_leaf_of_none {k : Fin userPgdEntries} (he : entries pgdir μ (.table i k) = none)
    (j : Fin ptrsPerPage) : entries pgdir μ (.leaf i k j) = none := by
  have he' : ((pgdir i).bind fun d => entryAt μ d k) = none := he
  simp [entries, he']

/-- The entries are `g` if `g` agrees with memory level by level. -/
theorem entries_eq_of {g : Ref → Option Word} (hdir : ∀ i, g (.dir i) = pgdir i)
    (htable : ∀ i k, g (.table i k) = (g (.dir i)).bind fun d => entryAt μ d k)
    (hleaf : ∀ i k j, g (.leaf i k j) = (g (.table i k)).bind fun e => entryAt μ (ptePhys e) j) :
    entries pgdir μ = g := by
  funext r
  cases r with
  | dir i => exact (hdir i).symm
  | table i k => rw [htable, hdir, entries]
  | leaf i k j => rw [hleaf, htable, hdir, entries]

theorem entries_table_bind (i : Fin nrTasks) (k : Fin userPgdEntries) :
    entries pgdir μ (.table i k) = (entries pgdir μ (.dir i)).bind fun d => entryAt μ d k := rfl

theorem entries_leaf_bind (i : Fin nrTasks) (k : Fin userPgdEntries) (j : Fin ptrsPerPage) :
    entries pgdir μ (.leaf i k j) =
      (entries pgdir μ (.table i k)).bind fun e => entryAt μ (ptePhys e) j := rfl

/-- A task whose directory maps nothing gets another one that maps nothing, or
none. -/
theorem entries_update_dir {o : Option Word} (hold : ∀ k, entries pgdir μ (.table i k) = none)
    (hnew : ∀ d, o = some d → ∀ k < userPgdEntries, word μ d k = 0) : entries (update pgdir i o) μ =
      update (entries pgdir μ) (.dir i) o := by
  have htable (i' : Fin nrTasks) (k : Fin userPgdEntries) :
      entries (update pgdir i o) μ (.table i' k) = entries pgdir μ (.table i' k) := by
    by_cases hi : i' = i
    · subst hi
      rw [hold]
      cases o with
      | none => simp [entries]
      | some d =>
        rw [entries_table (update_self ..), entryAt_eq_none_iff, hnew d rfl k k.isLt]
        rfl
    · simp [entries, hi]
  funext r
  cases r with
  | dir i' =>
    by_cases hi : i' = i
    · subst hi
      simp [entries]
    · simp [entries, hi]
  | table i' k => rw [htable, update_of_ne (by simp)]
  | leaf i' k j =>
    rw [entries_leaf_bind, htable, ← entries_leaf_bind, update_of_ne (by simp)]

end

/-! ### Stores

`hI` is only used for what it says about places: directories and tables are
frames, and no two places share one. -/

section

variable {d e x : Word} {i : Fin nrTasks} {k : Fin userPgdEntries} {r : Ref} {main : MainMemory}
  {w : World} (hI : w.Inv main)

include hI

theorem World.Inv.isFrame (he : w.view.entry r = some e) : IsFrame (r.phys e) := by
  obtain ⟨n, hn, hf⟩ := main_of_entry hI he
  exact ⟨n, hn.lt, hf⟩

theorem World.Inv.isFrame_dir (hd : w.pgdir i = some d) : IsFrame d :=
  isFrame hI (r := .dir i) hd

theorem World.Inv.isFrame_held {f : Word} (hf : f ∈ w.held) : IsFrame f := by
  obtain ⟨n, hn, hf⟩ := main_of_held hI hf
  exact ⟨n, hn.lt, hf⟩

/-- The frame of a directory or a table is in no other place. -/
theorem World.Inv.phys_ne {r' : Ref} {e' : Word} (he : w.view.entry r = some e)
    (hpage : r.page = none) (he' : w.view.entry r' = some e') (hne : r' ≠ r) :
    r'.phys e' ≠ r.phys e := by
  intro h
  refine hne (eq_of_exclusive hI he ?_ (h ▸ View.target_of_entry he'))
  cases r <;> simp_all [page, Ref.Exclusive]

theorem World.Inv.phys_ne_held {f : Word} (he : w.view.entry r = some e)
    (hf : f ∈ w.held) : r.phys e ≠ f := fun h =>
  target_ne_held hI hf r (h ▸ View.target_of_entry he)

omit hI in
/-- Memory that agrees on all directories and tables has the same entries. -/
theorem entries_congr {μ' : Mem}
    (h : ∀ r e, r.page = none → w.view.entry r = some e → ∀ j < ptrsPerPage,
      word μ' (r.phys e) j = word w.mm.mem (r.phys e) j) : entries w.pgdir μ' = w.view.entry := by
  refine entries_eq_of (fun i => rfl) (fun i k => ?_) (fun i k j => ?_)
  · refine (entries_table_bind i k).trans (bind_congr fun d hd => ?_)
    have hk : k.1 < ptrsPerPage := k.isLt.trans (by decide)
    exact (entryAt_congr (h (.dir i) d rfl hd k hk)).symm
  · refine (entries_leaf_bind i k j).trans (bind_congr fun e he => ?_)
    exact (entryAt_congr (h (.table i k) e rfl he j j.isLt)).symm

/-- A store into a table. -/
theorem entries_setWord_leaf (he : w.view.entry (.table i k) = some e) (j : Fin ptrsPerPage) :
    entries w.pgdir (setWord w.mm.mem (ptePhys e) j x) = update w.view.entry
      (.leaf i k j) (validEntry x) := by
  have hframe : IsFrame (ptePhys e) := World.Inv.isFrame hI he
  refine entries_eq_of (fun i' => rfl) (fun i' k' => ?_) (fun i' k' j' => ?_)
  · rw [update_of_ne (by simp), update_of_ne (by simp)]
    refine (entries_table_bind i' k').trans (bind_congr fun d hd => ?_)
    have hk' : k'.1 < ptrsPerPage := k'.isLt.trans (by decide)
    have hne : d ≠ ptePhys e := World.Inv.phys_ne hI he rfl
      (show w.view.entry (.dir i') = _ from hd) (by simp)
    have hd' : IsFrame d := World.Inv.isFrame_dir hI hd
    rw [entryAt_setWord hframe hd' j.isLt hk', if_neg fun h => hne h.1]
  · have htable (o : Option Word) : update w.view.entry (.leaf i k j) o (.table i' k') =
        w.view.entry (.table i' k') := update_of_ne (by simp) _ _
    rw [htable]
    cases he' : w.view.entry (.table i' k') with
    | none =>
      rw [update_of_ne, bind_none]
      · exact entries_leaf_of_none he' j'
      · intro h
        simp only [leaf.injEq] at h
        rw [h.1, h.2.1, he] at he'
        cases he'
    | some e' =>
      have hframe' : IsFrame (ptePhys e') := World.Inv.isFrame hI he'
      rw [bind_some, entryAt_setWord hframe hframe' j.isLt j'.isLt]
      by_cases hr : leaf i' k' j' = .leaf i k j
      · simp only [leaf.injEq] at hr
        obtain ⟨rfl, rfl, rfl⟩ := hr
        rw [he, some.injEq] at he'
        subst he'
        rw [update_self, if_pos ⟨rfl, rfl⟩]
      · rw [update_of_ne hr, if_neg]
        · exact entries_leaf he' j'
        · rintro ⟨hp, hj⟩
          have hsame : table i' k' = .table i k := by
            by_contra hne
            exact World.Inv.phys_ne hI he rfl he' hne hp
          simp only [table.injEq] at hsame
          exact hr (by rw [hsame.1, hsame.2, Fin.ext hj])

/-- What the directories say after a store into one of them. -/
theorem bind_setWord_dir (hd : w.pgdir i = some d)
    (k : Fin userPgdEntries) (i' : Fin nrTasks) (k' : Fin userPgdEntries) :
    ((w.pgdir i').bind fun d' => entryAt (setWord w.mm.mem d k x) d' k') =
      if table i' k' = .table i k then validEntry x else w.view.entry (.table i' k') := by
  have hk : k.1 < ptrsPerPage := k.isLt.trans (by decide)
  have hk' : k'.1 < ptrsPerPage := k'.isLt.trans (by decide)
  have hframe : IsFrame d := World.Inv.isFrame_dir hI hd
  cases hd' : w.pgdir i' with
  | none =>
    rw [bind_none, if_neg]
    · simp [World.view, entries, hd']
    · intro h
      simp only [table.injEq] at h
      rw [h.1, hd] at hd'
      cases hd'
  | some d' =>
    have hframe' : IsFrame d' := World.Inv.isFrame_dir hI hd'
    rw [bind_some, entryAt_setWord hframe hframe' hk hk']
    by_cases hr : table i' k' = .table i k
    · simp only [table.injEq] at hr
      obtain ⟨rfl, rfl⟩ := hr
      rw [hd, some.injEq] at hd'
      rw [if_pos ⟨hd'.symm, rfl⟩, if_pos rfl]
    · rw [if_neg hr, if_neg]
      · exact (entries_table hd' k').symm
      · rintro ⟨hp, hj⟩
        have hsame : dir i' = .dir i := by
          by_contra hne
          exact World.Inv.phys_ne hI (r := .dir i) hd rfl
            (show w.view.entry (.dir i') = _ from hd') hne hp
        simp only [dir.injEq] at hsame
        exact hr (by rw [hsame, Fin.ext hj])

/-- The tables do not see a store into a directory. -/
theorem entryAt_setWord_dir {i' : Fin nrTasks} {k' : Fin userPgdEntries}
    (hd : w.pgdir i = some d) (he : w.view.entry (.table i' k') = some e) (j : Fin ptrsPerPage) :
    entryAt (setWord w.mm.mem d k x) (ptePhys e) j = w.view.entry (.leaf i' k' j) := by
  have hk : k.1 < ptrsPerPage := k.isLt.trans (by decide)
  have hframe : IsFrame d := World.Inv.isFrame_dir hI hd
  have hframe' : IsFrame (ptePhys e) := World.Inv.isFrame hI he
  have hne : ptePhys e ≠ d := World.Inv.phys_ne hI (r := .dir i) hd rfl he (by simp)
  rw [entryAt_setWord hframe hframe' hk j.isLt, if_neg fun h => hne h.1]
  exact (entries_leaf he j).symm

/-- Entering an empty table in a directory. -/
theorem entries_setWord_table (hd : w.pgdir i = some d) (hempty : w.view.entry (.table i k) = none)
    (hx : x &&& pteV ≠ 0) (hheld : ptePhys x ∈ w.held)
    (hzero : ∀ j < ptrsPerPage, word w.mm.mem (ptePhys x) j = 0) :
    entries w.pgdir (setWord w.mm.mem d k x) =
      update w.view.entry (.table i k) (some x) := by
  have hk : k.1 < ptrsPerPage := k.isLt.trans (by decide)
  have hframe : IsFrame d := World.Inv.isFrame_dir hI hd
  have hne : ptePhys x ≠ d := fun h => World.Inv.phys_ne_held hI (r := .dir i) hd hheld h.symm
  refine entries_eq_of (fun i' => rfl) (fun i' k' => ?_) (fun i' k' j' => ?_)
  · refine Eq.trans ?_ (bind_setWord_dir hI hd k i' k').symm
    rw [validEntry_of_valid hx]
    by_cases hr : table i' k' = .table i k
    · rw [hr, update_self, if_pos rfl]
    · rw [update_of_ne hr, if_neg hr]
  · by_cases hr : table i' k' = .table i k
    · rw [hr, update_self, update_of_ne (by simp), bind_some]
      simp only [table.injEq] at hr
      rw [hr.1, hr.2]
      refine (entries_leaf_of_none hempty j').trans (entryAt_eq_none_iff.mpr ?_).symm
      rw [word_setWord hframe (World.Inv.isFrame_held hI hheld) hk j'.isLt,
        if_neg fun h => hne h.1, hzero j' j'.isLt]
      rfl
    · rw [update_of_ne (by simp), update_of_ne hr]
      cases he : w.view.entry (.table i' k') with
      | none => exact entries_leaf_of_none he j'
      | some e => exact (entryAt_setWord_dir hI hd he j').symm

/-- Clearing an entry of a directory removes the table and what it maps. -/
theorem entries_clear_table (hd : w.pgdir i = some d) :
    entries w.pgdir (setWord w.mm.mem d k 0) = fun r =>
      if r = .table i k ∨ r.parent = some (.table i k) then none else w.view.entry r := by
  refine entries_eq_of (fun i' => ?_) (fun i' k' => ?_) (fun i' k' j' => ?_)
  · simp [Ref.parent, World.view, entries]
  · have h := bind_setWord_dir (x := 0) hI hd k i' k'
    simp only [Ref.parent, reduceCtorEq, some.injEq, or_false, if_false]
    refine Eq.trans ?_ h.symm
    by_cases hr : Ref.table i' k' = .table i k
    · rw [if_pos hr, if_pos hr]
      rfl
    · rw [if_neg hr, if_neg hr]
  · by_cases hr : Ref.table i' k' = .table i k
    · simp [hr, Ref.parent]
    · simp only [Ref.parent, hr, some.injEq, reduceCtorEq, or_self, if_false]
      cases he : w.view.entry (.table i' k') with
      | none => exact entries_leaf_of_none he j'
      | some e => exact (entryAt_setWord_dir hI hd he j').symm

end

/-! ### What is kept

A frame in use that is neither a directory nor a table holds data: a mapped
page, or one somebody holds. The functions of the memory manager leave the
bytes of data frames alone, and the upper half of every directory, which maps
nothing. -/

def World.DataFrame (w : World) (q : Word) : Prop :=
  0 < w.view.refs q ∧ ∀ r e, r.page = none → w.view.entry r = some e → r.phys e ≠ q

def SameBytes (μ μ' : Mem) (p : Word) : Prop :=
  ∀ o < 4096, μ' (p + .ofNat 32 o) = μ (p + .ofNat 32 o)

structure World.Keeps (w : World) (μ' : Mem) : Prop where
  data : ∀ q, w.DataFrame q → SameBytes w.mm.mem μ' q
  upper : ∀ i d k, w.pgdir i = some d → userPgdEntries ≤ k → k < ptrsPerPage →
    word μ' d k = word w.mm.mem d k

/-- A table or a free frame. -/
structure World.Scratch (w : World) (p : Word) : Prop where
  isFrame : IsFrame p
  not_data : ¬ w.DataFrame p
  not_dir : ∀ i, w.pgdir i ≠ some p

theorem World.Keeps.refl (w : World) : w.Keeps w.mm.mem :=
  ⟨fun _ _ _ _ => rfl, fun _ _ _ _ _ _ => rfl⟩

section

variable {i : Fin nrTasks} {μ : Mem} {main : MainMemory} {w : World} (hI : w.Inv main)

include hI

theorem World.Inv.isFrame_data {q : Word} (hq : w.DataFrame q) : IsFrame q := by
  obtain ⟨n, hn, rfl⟩ := main_of_refs hI q hq.1
  exact ⟨n, hn.lt, rfl⟩

theorem World.Inv.dataFrame_held {f : Word} (hf : f ∈ w.held) : w.DataFrame f :=
  ⟨View.refs_pos_of_held hf, fun _ _ _ he => phys_ne_held hI he hf⟩

theorem World.Inv.dataFrame_leaf {k : Fin userPgdEntries} {j : Fin ptrsPerPage}
    {e : Word} (he : w.view.entry (.leaf i k j) = some e) : w.DataFrame (ptePhys e) := by
  refine ⟨View.refs_pos_of_entry he, fun r e' hpage he' h => ?_⟩
  refine phys_ne hI he' hpage he ?_ h.symm
  rintro rfl
  cases hpage

theorem World.Inv.scratch_table {k : Fin userPgdEntries} {e : Word}
    (he : w.view.entry (.table i k) = some e) : w.Scratch (ptePhys e) where
  isFrame := isFrame hI he
  not_data hq := hq.2 _ _ rfl he rfl
  not_dir i' hd := phys_ne hI he rfl (show w.view.entry (.dir i') = _ from hd) (by simp) rfl

omit hI in
theorem World.scratch_of_refs {n : ℕ} (hn : n < pagingPages)
    (hfree : w.view.refs (frame n) = 0) : w.Scratch (frame n) where
  isFrame := ⟨n, hn, rfl⟩
  not_data hq := hq.1.ne' hfree
  not_dir i hd := by
    have hpos := View.refs_pos_of_entry (v := w.view) (r := .dir i) hd
    rw [phys, hfree] at hpos
    exact absurd hpos (lt_irrefl 0)

theorem World.Keeps.setWord {p x : Word} {i : ℕ} (h : w.Keeps μ) (hp : w.Scratch p)
    (hi : i < ptrsPerPage) : w.Keeps (setWord μ p i x) where
  data q hq o ho := by
    have hne : q ≠ p := fun he => hp.not_data (he ▸ hq)
    rw [setWord_apply hp.isFrame (hI.isFrame_data hq) hne hi ho]
    exact h.data q hq o ho
  upper i' d k hd hlow hk := by
    have hne : d ≠ p := fun he => hp.not_dir i' (he ▸ hd)
    rw [word_setWord hp.isFrame (World.Inv.isFrame_dir hI hd) hi hk, if_neg fun he => hne he.1]
    exact h.upper i' d k hd hlow hk

theorem World.Keeps.setWord_dir {d x : Word} (h : w.Keeps μ)
    (hd : w.pgdir i = some d) (k : Fin userPgdEntries) : w.Keeps (Mm.setWord μ d k x) where
  data q hq o ho := by
    have hk : k.1 < ptrsPerPage := k.isLt.trans (by decide)
    have hne : q ≠ d := fun he => hq.2 (.dir i) d rfl hd he.symm
    rw [setWord_apply (World.Inv.isFrame_dir hI hd) (hI.isFrame_data hq) hne hk ho]
    exact h.data q hq o ho
  upper i' d' k' hd' hlow hk' := by
    have hk : k.1 < ptrsPerPage := k.isLt.trans (by decide)
    have hlt := k.isLt
    rw [word_setWord (World.Inv.isFrame_dir hI hd)
      (World.Inv.isFrame_dir hI hd') hk hk', if_neg fun he => by omega]
    exact h.upper i' d' k' hd' hlow hk'

theorem World.Keeps.fillN {p : Word} {f : ℕ → Byte} (h : w.Keeps μ)
    (hp : w.Scratch p) : w.Keeps (fillN 4096 μ p f) where
  data q hq o ho := by
    have hne : q ≠ p := fun he => hp.not_data (he ▸ hq)
    rw [fillN_apply_ne hp.isFrame (hI.isFrame_data hq) hne ho]
    exact h.data q hq o ho
  upper i' d k hd hlow hk := by
    have hne : d ≠ p := fun he => hp.not_dir i' (he ▸ hd)
    rw [word_fillN hp.isFrame (World.Inv.isFrame_dir hI hd) hne hk]
    exact h.upper i' d k hd hlow hk

omit hI in
/-- A world that still maps and holds what `w` does keeps the data frames. -/
theorem World.Inv.dataFrame_of {w' : World} (hI' : w'.Inv main) (hheld : ∀ f ∈ w.held, f ∈ w'.held)
    (hleaf : ∀ i k j e, w.view.entry (.leaf i k j) = some e →
      ∃ e', w'.view.entry (.leaf i k j) = some e' ∧ ptePhys e' = ptePhys e)
    {q : Word} (hq : w.DataFrame q) : w'.DataFrame q := by
  by_cases hf : q ∈ w.held
  · exact hI'.dataFrame_held (hheld q hf)
  · have hpos := hq.1
    have hcount : w.view.held.count q = 0 := Multiset.count_eq_zero_of_notMem hf
    rw [View.refs, hcount, Nat.add_zero, occurrences_pos_iff] at hpos
    obtain ⟨r, hr⟩ := hpos
    obtain ⟨e, he, rfl⟩ := Option.map_eq_some_iff.mp hr
    cases r with
    | dir i => exact absurd rfl (hq.2 _ _ rfl he)
    | table i k => exact absurd rfl (hq.2 _ _ rfl he)
    | leaf i k j =>
      obtain ⟨e', he', hphys⟩ := hleaf i k j e he
      rw [phys, ← hphys]
      exact hI'.dataFrame_leaf he'

omit hI in
theorem World.Keeps.trans {w' : World} (h : w.Keeps w'.mm.mem) (h' : w'.Keeps μ)
    (hdir : w'.pgdir = w.pgdir) (hdata : ∀ q, w.DataFrame q → w'.DataFrame q) : w.Keeps μ where
  data q hq o ho := (h'.data q (hdata q hq) o ho).trans (h.data q hq o ho)
  upper i d k hd hlow hk :=
    (h'.upper i d k (hdir ▸ hd) hlow hk).trans (h.upper i d k hd hlow hk)

end

end LinuxRv.Mm
