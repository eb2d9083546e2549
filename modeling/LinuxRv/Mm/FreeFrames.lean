import LinuxRv.Mm.Isolation
import Mathlib.Order.Interval.Finset.Nat

/-!
How many frames are free.

Since the counts are exact, the free frames are those of main memory that
nothing refers to, and their number follows from the set of frames in use: it
moves by one with every frame that gets its only reference or loses it, and not
at all when a frame is shared.
-/

namespace LinuxRv.Mm

open ByteMemory RefCount Function Finset

/-- The frames `get_free_page` can still hand out. -/
def freeFrames (memMap : ℕ → Byte) : ℕ :=
  ((range pagingPages).filter fun n => memMap n = 0).card

section

variable {memMap : ℕ → Byte} {n : ℕ}

theorem freeFrames_eq_zero_iff : freeFrames memMap = 0 ↔ ∀ n < pagingPages, memMap n ≠ 0 := by
  rw [freeFrames, card_eq_zero, filter_eq_empty_iff]
  simp

theorem freeFrames_take (hn : n < pagingPages) (hzero : memMap n = 0) {c : Byte} (hc : c ≠ 0) :
    freeFrames (update memMap n c) + 1 = freeFrames memMap := by
  have hset : ((range pagingPages).filter fun m => update memMap n c m = 0) =
      ((range pagingPages).filter fun m => memMap m = 0).erase n := by
    ext m
    by_cases hm : m = n
    · rw [hm, mem_filter, update_self]
      exact iff_of_false (fun h => hc h.2) (notMem_erase n _)
    · simp [hm]
  rw [freeFrames, hset, card_erase_add_one (by simp [hn, hzero]), freeFrames]

theorem freeFrames_give (hn : n < pagingPages) (hused : memMap n ≠ 0) :
    freeFrames (update memMap n 0) = freeFrames memMap + 1 := by
  have hzero : update memMap n 0 n = 0 := update_self ..
  have h := freeFrames_take hn hzero hused
  rw [update_idem, update_eq_self] at h
  exact h.symm

end

/-! ### Frames in use -/

@[irreducible] def View.usedFrames (v : View) : Finset Word := referredOutside ∅ v.target v.held.toFinset

theorem View.mem_usedFrames {v : View} {f : Word} : f ∈ v.usedFrames ↔ 0 < v.refs f := by
  rw [usedFrames, mem_referredOutside, refs, Nat.add_pos_iff_pos_or_pos, occurrences_pos_iff,
    Multiset.count_pos, Multiset.mem_toFinset]
  simp

section

variable {main : MainMemory} {v v' : View}

theorem View.Inv.free_iff (h : v.Inv main) {n : ℕ} (hn : n < pagingPages) :
    v.memMap n = 0 ↔ main.Has n ∧ frame n ∉ v.usedFrames := by
  rw [mem_usedFrames]
  by_cases hmain : main.Has n
  · rw [← h.exact n hmain, ← BitVec.toNat_inj]
    simp [hmain]
  · exact iff_of_false (h.reserved n hn hmain) fun hfree => hmain hfree.1

/-- The frames of main memory. -/
def MainMemory.frames (main : MainMemory) : Finset ℕ := (range pagingPages).filter main.Has

theorem MainMemory.mem_frames {n : ℕ} : n ∈ main.frames ↔ main.Has n := by
  rw [frames, mem_filter, mem_range]
  exact ⟨fun h => h.2, fun h => ⟨h.lt, h⟩⟩

/-- Main memory is the free frames and the frames in use. -/
theorem View.Inv.freeFrames_add (h : v.Inv main) :
    freeFrames v.memMap + v.usedFrames.card = main.frames.card := by
  have hfree : ((range pagingPages).filter fun n => v.memMap n = 0) =
      main.frames.filter fun n => frame n ∉ v.usedFrames := by
    ext n
    rw [mem_filter, mem_filter, MainMemory.mem_frames, mem_range]
    constructor
    · rintro ⟨hn, hzero⟩
      exact (h.free_iff hn).mp hzero
    · rintro ⟨hmain, hnot⟩
      exact ⟨hmain.lt, (h.free_iff hmain.lt).mpr ⟨hmain, hnot⟩⟩
  have hused : (main.frames.filter fun n => frame n ∈ v.usedFrames).image frame = v.usedFrames := by
    ext f
    rw [mem_image]
    constructor
    · intro ⟨n, hn, hframe⟩
      rw [mem_filter, hframe] at hn
      exact hn.2
    · intro hf
      obtain ⟨n, hn, hframe⟩ := h.main_of_refs f (mem_usedFrames.mp hf)
      refine ⟨n, ?_, hframe.symm⟩
      rw [mem_filter, ← hframe]
      exact ⟨MainMemory.mem_frames.mpr hn, hf⟩
  have hinj : Set.InjOn frame (main.frames.filter fun n => frame n ∈ v.usedFrames) := by
    intro n hn n' hn' heq
    have hmem := (mem_filter.mp (mem_coe.mp hn)).1
    have hmem' := (mem_filter.mp (mem_coe.mp hn')).1
    exact frame_inj (MainMemory.mem_frames.mp hmem).lt (MainMemory.mem_frames.mp hmem').lt heq
  have hcard := card_image_of_injOn hinj
  rw [hused] at hcard
  rw [freeFrames, hfree, hcard, Nat.add_comm]
  exact card_filter_add_card_filter_not _

/-- Two views that agree outside of entries with a frame of their own. -/
theorem View.Inv.freeFrames_add_card (h : v.Inv main) (h' : v'.Inv main) (S S' : Finset Ref)
    (hS : ∀ r ∈ S, ∃ f, v.target r = some f ∧ v.refs f = 1)
    (hS' : ∀ r ∈ S', ∃ f, v'.target r = some f ∧ v'.refs f = 1)
    (hrest : ∀ f, ((∃ r, r ∉ S ∧ v.target r = some f) ∨ f ∈ v.held) ↔
      ((∃ r, r ∉ S' ∧ v'.target r = some f) ∨ f ∈ v'.held)) :
    freeFrames v.memMap + S.card = freeFrames v'.memMap + S'.card := by
  have hown {u : View} (hu : u.Inv main) {T : Finset Ref}
      (hT : ∀ r ∈ T, ∃ f, u.target r = some f ∧ u.refs f = 1) :
      ∀ r ∈ T, ∃ f, u.target r = some f ∧ f ∉ u.held.toFinset ∧
        ∀ r', u.target r' = some f → r' = r := by
    intro r hr
    obtain ⟨f, hf, hone⟩ := hT r hr
    refine ⟨f, hf, fun hheld => ?_, fun r' hr' => eq_of_refs_le_one hone.le hr' hf⟩
    exact hu.target_ne_held (Multiset.mem_toFinset.mp hheld) r hf
  have hcard := card_referred_add (hown h hS) (hown h' hS')
    (by simpa only [Multiset.mem_toFinset] using hrest)
  have hsum := h.freeFrames_add
  have hsum' := h'.freeFrames_add
  unfold usedFrames at hsum hsum'
  omega

end

/-! ### Copied tables -/

/-- The page tables of task `i` among the first `l`. -/
def World.tablesBelow (w : World) (i : Fin nrTasks) (l : ℕ) : Finset (Fin userPgdEntries) :=
  univ.filter fun k => k.1 < l ∧ w.view.entry (.table i k) ≠ none

section

variable {main : MainMemory} {w : World} {i i' : Fin nrTasks} {l : ℕ} {s : State}

theorem World.mem_tablesBelow {k : Fin userPgdEntries} :
    k ∈ w.tablesBelow i l ↔ k.1 < l ∧ w.view.entry (.table i k) ≠ none := by
  simp [tablesBelow]

/-- Copying shares the pages and takes one frame for each table. -/
theorem CopyInv.target_leaf (h : CopyInv main w i i' l s) (t : Fin nrTasks)
    (k : Fin userPgdEntries) (j : Fin ptrsPerPage) : (w.setMm s).view.target (.leaf t k j) =
      if (t = i ∨ t = i') ∧ k.1 < l then w.view.target (.leaf i k j)
      else w.view.target (.leaf t k j) := by
  rw [View.target, h.leaf, sharedTables]
  by_cases hdone : (t = i ∨ t = i') ∧ k.1 < l
  · rw [if_pos hdone, if_pos hdone, Option.map_map, View.target]
    refine congrArg (fun f => Option.map f _) (funext fun e => ?_)
    exact ptePhys_and_not_w e
  · rw [if_neg hdone, if_neg hdone, View.target]

theorem CopyInv.freeFrames_add (h : CopyInv main w i i' l s) (hI : w.Inv main)
    (hempty : ∀ k, w.view.entry (.table i' k) = none) :
    freeFrames s.memMap + (w.tablesBelow i l).card = freeFrames w.mm.memMap := by
  have hleaf (k : Fin userPgdEntries) (j : Fin ptrsPerPage) :
      w.view.target (.leaf i' k j) = none := by
    rw [View.target, show w.view.entry (.leaf i' k j) = none from
      entries_leaf_of_none (hempty k) j, Option.map_none]
  have hother {t : Fin nrTasks} (k : Fin userPgdEntries) (ht : t ≠ i') :
      (w.setMm s).view.target (.table t k) = w.view.target (.table t k) := by
    rw [View.target, h.other t k ht, View.target]
  have hdir (t : Fin nrTasks) : (w.setMm s).view.target (.dir t) = w.view.target (.dir t) := by
    rw [View.target, View.target]
    rfl
  have hinj : Injective fun k => Ref.table i' k := fun k k' hk => by
    simpa using hk
  have hnew {r : Ref} (hr : ∀ k, Ref.table i' k ≠ r) :
      r ∉ (w.tablesBelow i l).image fun k => Ref.table i' k := by
    intro hmem
    obtain ⟨k, -, hk⟩ := mem_image.mp hmem
    exact hr k hk
  have hsum := View.Inv.freeFrames_add_card hI h.inv ∅
    ((w.tablesBelow i l).image fun k => Ref.table i' k) (fun r hr => absurd hr (notMem_empty r)) ?_ ?_
  · rw [card_empty, Nat.add_zero, card_image_of_injective _ hinj] at hsum
    exact hsum.symm
  · intro r hr
    obtain ⟨k, hk, rfl⟩ := mem_image.mp hr
    obtain ⟨hlt, hsome⟩ := World.mem_tablesBelow.mp hk
    obtain ⟨e, he⟩ := Option.ne_none_iff_exists'.mp (mt (h.tables k hlt).mp hsome)
    exact ⟨_, View.target_of_entry he, View.Inv.exclusive h.inv _ _ he trivial⟩
  intro f
  refine or_congr ?_ Iff.rfl
  constructor
  · rintro ⟨r, -, hr⟩
    cases r with
    | dir t => exact ⟨.dir t, hnew (fun _ => Ref.noConfusion), (hdir t).trans hr⟩
    | table t k =>
      have ht : t ≠ i' := by
        rintro rfl
        rw [View.target, hempty k] at hr
        cases hr
      exact ⟨.table t k, hnew (fun _ he => ht (Ref.table.inj he).1.symm), (hother k ht).trans hr⟩
    | leaf t k j =>
      have ht : t ≠ i' := by
        rintro rfl
        rw [hleaf k j] at hr
        cases hr
      refine ⟨.leaf t k j, hnew (fun _ => Ref.noConfusion), ?_⟩
      rw [h.target_leaf]
      by_cases hdone : (t = i ∨ t = i') ∧ k.1 < l
      · rw [if_pos hdone, ← hdone.1.resolve_right ht, hr]
      · rw [if_neg hdone, hr]
  · rintro ⟨r, hnot, hr⟩
    cases r with
    | dir t => exact ⟨.dir t, notMem_empty _, (hdir t).symm.trans hr⟩
    | table t k =>
      by_cases ht : t = i'
      · subst ht
        have hnone : (w.setMm s).view.entry (.table t k) = none := by
          by_cases hlt : k.1 < l
          · refine (h.tables k hlt).mpr (by_contra fun hsome => hnot ?_)
            exact mem_image_of_mem _ (World.mem_tablesBelow.mpr ⟨hlt, hsome⟩)
          · exact h.fresh k (not_lt.mp hlt)
        rw [View.target, hnone] at hr
        cases hr
      · exact ⟨.table t k, notMem_empty _, (hother k ht).symm.trans hr⟩
    | leaf t k j =>
      rw [h.target_leaf] at hr
      by_cases hdone : (t = i ∨ t = i') ∧ k.1 < l
      · rw [if_pos hdone] at hr
        exact ⟨_, notMem_empty _, hr⟩
      · rw [if_neg hdone] at hr
        exact ⟨_, notMem_empty _, hr⟩

end

/-! ### Little memory left -/

/-- Holding frames leaves as few free ones as one likes. -/
theorem World.Inv.exists_few {main : MainMemory} {m : ℕ} (d : ℕ) {w : World} (hI : w.Inv main)
    (hfree : freeFrames w.mm.memMap = m + d) :
    ∃ w' : World, w'.Inv main ∧ w'.pgdir = w.pgdir ∧ w'.view.entry = w.view.entry ∧
      freeFrames w'.mm.memMap = m := by
  -- induction on the frames to be held
  induction d generalizing w with
  | zero => exact ⟨w, hI, rfl, rfl, hfree⟩
  | succ d ih =>
    have hsome : ∃ n, n < pagingPages ∧ w.mm.memMap n = 0 := by
      by_contra hnone
      have hzero : freeFrames w.mm.memMap = 0 :=
        freeFrames_eq_zero_iff.mpr fun n hn hz => hnone ⟨n, hn, hz⟩
      omega
    obtain ⟨n, hn, hzero⟩ := hsome
    have htake : freeFrames (w.alloc n).mm.memMap + 1 = freeFrames w.mm.memMap :=
      freeFrames_take hn hzero (by decide)
    obtain ⟨w', hI', hdir, hentry, hm⟩ := ih (hI.alloc hn hzero) (by omega)
    exact ⟨w', hI', hdir, hentry.trans (hI.entry_alloc hn hzero), hm⟩

/-! ### Before the first page is taken -/

/-- The counts of `mem_init` with main memory from 4 MB on. -/
def countsFrom4M (n : ℕ) : Byte := if n < 1024 then used else 0

theorem countsFrom4M_inv (μ : Mem) (full : Bool) :
    World.Inv mainFrom4M ⟨⟨μ, countsFrom4M, full⟩, fun _ => none, 0⟩ := by
  have hhas (n : ℕ) : mainFrom4M.Has n ↔ 1024 ≤ n ∧ n < 1024 + 31744 := Iff.rfl
  refine inv_of_free (fun n hn => ?_) fun n hn hnot => ?_
  · exact if_neg (not_lt.mpr ((hhas n).mp hn).1)
  · exact if_pos (not_le.mp fun hle => hnot ((hhas n).mpr ⟨hle, hn⟩))

theorem le_freeFrames_countsFrom4M : 31744 ≤ freeFrames countsFrom4M := by
  have hsub : Finset.Ico 1024 (1024 + 31744) ⊆
      (range pagingPages).filter fun n => countsFrom4M n = 0 := by
    intro n hn
    obtain ⟨hlow, hhigh⟩ := mem_Ico.mp hn
    exact mem_filter.mpr ⟨mem_range.mpr hhigh, if_neg (not_lt.mpr hlow)⟩
  have hcard := card_le_card hsub
  rwa [Nat.card_Ico] at hcard

end LinuxRv.Mm
