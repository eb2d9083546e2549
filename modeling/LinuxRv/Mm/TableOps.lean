import LinuxRv.Mm.PrivateMemory
import LinuxRv.Mm.World

/-!
The functions of `mm/memory.c` as moves on views.

Each has one specification, from any world that satisfies the invariant: the
invariant still holds, these entries changed, and no data frame was touched.
The two bulk loops, over the tables of a directory and the entries of a table,
carry the invariant from entry to entry; `sharedLeaves` and `withoutLeaves` say
how far a loop over a table has come.
-/

namespace LinuxRv.Mm

open ByteMemory Prog RefCount Function View.Inv Multiset Ref
open Option (some)

/-! ### Worlds and moves -/

def World.setMm (w : World) (s : State) : World := { w with mm := s }

@[simp] theorem World.setMm_self (w : World) : w.setMm w.mm = w := rfl

def World.setHeld (w : World) (held : Multiset Word) : World := { w with held := held }

/-- A store of the word `x` at index `i` of the frame at `p`. -/
def World.store (w : World) (p : Word) (i : ℕ) (x : Word) : World :=
  w.setMm (w.mm.setMem (setWord w.mm.mem p i x))

/-- The world after `get_free_page` has found frame `n`. -/
def World.alloc (w : World) (n : ℕ) : World where
  mm := (w.mm.setCount n 1).setMem (fillN 4096 w.mm.mem (frame n) fun _ => 0)
  pgdir := w.pgdir
  held := frame n ::ₘ w.held

@[simp] theorem World.mem_alloc (w : World) (n : ℕ) :
    (w.alloc n).mm.mem = fillN 4096 w.mm.mem (frame n) fun _ => 0 := rfl

theorem World.view_entry (w : World) : w.view.entry = entries w.pgdir w.mm.mem := rfl

/-- The counts of what is not main memory are the same. -/
def SameReserved (main : MainMemory) (s s' : State) : Prop :=
  ∀ n, ¬ main.Has n → s'.memMap n = s.memMap n

theorem SameReserved.refl (main : MainMemory) (s : State) : SameReserved main s s := fun _ _ => rfl

theorem SameReserved.setCount {main : MainMemory} {s s' : State} (h : SameReserved main s s')
    {n : ℕ} (hn : main.Has n) (c : Byte) : SameReserved main s (s'.setCount n c) := by
  intro m hm
  have hne : m ≠ n := fun he => hm (he ▸ hn)
  exact (update_of_ne hne _ _).trans (h m hm)

section

variable {i : Fin nrTasks} {k : Fin userPgdEntries} {n : ℕ} {main : MainMemory} {w : World}
  (hI : w.Inv main)

include hI

theorem World.Inv.has_of_free (hn : n < pagingPages) (hzero : w.mm.memMap n = 0) : main.Has n := by
  by_contra hnot
  exact reserved hI n hn hnot hzero

theorem World.Inv.refs_of_free (hn : n < pagingPages) (hzero : w.mm.memMap n = 0) :
    w.view.refs (frame n) = 0 := by
  rw [← exact hI n (hI.has_of_free hn hzero)]
  exact congrArg BitVec.toNat hzero

theorem World.Inv.entry_alloc (hn : n < pagingPages) (hzero : w.mm.memMap n = 0) :
    (w.alloc n).view.entry = w.view.entry := by
  rw [view_entry, mem_alloc]
  refine entries_congr (w := w) fun r e hpage he j hj => ?_
  have hframe : IsFrame (frame n) := ⟨n, hn, rfl⟩
  have hframe' := isFrame hI he
  refine word_fillN hframe hframe' ?_ hj
  intro h
  have hpos := View.refs_pos_of_entry he
  rw [h, hI.refs_of_free hn hzero] at hpos
  exact absurd hpos (lt_irrefl 0)

theorem World.Inv.alloc (hn : n < pagingPages) (hzero : w.mm.memMap n = 0) :
    (w.alloc n).Inv main := by
  have h := View.Inv.alloc hI hn hzero
  have hview : (w.alloc n).view = (w.view.setCount n 1).setHeld (frame n ::ₘ w.held) := by
    have hentry := hI.entry_alloc hn hzero
    simp only [view] at hentry
    simp only [view, View.setCount, View.setHeld, hentry]
    rfl
  rw [World.Inv, hview]
  exact h

theorem World.Inv.scratch_of_free (hn : n < pagingPages) (hzero : w.mm.memMap n = 0) :
    w.Scratch (frame n) :=
  scratch_of_refs hn (hI.refs_of_free hn hzero)

omit hI in
theorem World.word_alloc {j : ℕ} (hj : j < ptrsPerPage) : word (w.alloc n).mm.mem (frame n) j = 0 :=
  word_fillN_zero hj

omit hI in
/-- The frame a place refers to, if it does. -/
def World.lost (w : World) (r : Ref) : Multiset Word :=
  (w.view.entry r).elim 0 fun e => {r.phys e}

omit hI in
theorem World.lost_of_none {r : Ref} (h : w.view.entry r = none) : w.lost r = 0 := by
  rw [lost, h]
  rfl

omit hI in
theorem World.lost_eq_zero_iff {r : Ref} : w.lost r = 0 ↔ w.view.entry r = none := by
  cases h : w.view.entry r with
  | none => simp [lost, h]
  | some e => simp [lost, h]

/-- Entering a held frame in a table, over a page nobody else maps: that page is
held from then on. -/
theorem World.Inv.store_leaf {j : Fin ptrsPerPage}
    {e x : Word} (he : w.view.entry (.table i k) = some e)
    (hold : ∀ e', w.view.entry (.leaf i k j) = some e' → e' &&& pteW ≠ 0)
    (hheld : ptePhys x ∈ w.held) (hx : x &&& pteUserMask = pteUserBits) :
    ((w.store (ptePhys e) j x).setHeld (w.lost (.leaf i k j) + w.held.erase (ptePhys x))).Inv main ∧
      (w.store (ptePhys e) j x).view.entry = update w.view.entry (.leaf i k j) (some x) := by
  have hentry := entries_setWord_leaf (x := x) hI he j
  rw [validEntry_of_valid (and_pteV_of_userMask hx)] at hentry
  refine ⟨?_, hentry⟩
  -- the place is emptied first
  have hfree : ((w.view.setEntry (.leaf i k j) none).setHeld
      (w.lost (.leaf i k j) + w.held)).Inv main := by
    cases hleaf : w.view.entry (.leaf i k j) with
    | none =>
      rw [lost_of_none hleaf, zero_add, View.setEntry, ← hleaf, update_eq_self]
      exact hI
    | some e' =>
      rw [lost, hleaf, Option.elim_some, singleton_add]
      exact unplace hI hleaf (hold e' hleaf) fun r' hr' => by cases r' <;> simp [Ref.parent] at hr'
  have hplace := place hfree (r := .leaf i k j) (e := x) (update_self ..)
    (mem_add.mpr (.inr hheld)) hx fun r' hr' => by
      simp only [Ref.parent, some.injEq] at hr'
      rw [← hr', View.entry_setHeld, View.entry_setEntry, update_of_ne (by simp), he]
      simp
  refine (congrArg (View.Inv main) (?_ : view _ = _)).mpr hplace
  ext1
  · refine hentry.trans ?_
    rw [View.entry_setHeld, View.entry_setEntry, View.entry_setHeld, View.entry_setEntry,
      update_idem]
  · exact (erase_add_right_pos _ hheld).symm
  · rfl

/-- Entering a held, cleared frame in a directory as a table. -/
theorem World.Inv.place_table {d : Word} (hd : w.pgdir i = some d)
    (hempty : w.view.entry (.table i k) = none) (hn : n < pagingPages) (hheld : frame n ∈ w.held)
    (hzero : ∀ j < ptrsPerPage, word w.mm.mem (frame n) j = 0) :
    ((w.store d k (physPpn (frame n) ||| pteV)).setHeld (w.held.erase (frame n))).Inv main ∧
      (w.store d k (physPpn (frame n) ||| pteV)).view.entry =
        update w.view.entry (.table i k) (some (physPpn (frame n) ||| pteV)) := by
  have hphys : ptePhys (physPpn (frame n) ||| pteV) = frame n := ptePhys_frame hn (by decide)
  have hwf : (physPpn (frame n) ||| pteV) &&& (pteHigh ||| 0x3ff) = pteV :=
    physPpn_or_and (by decide)
  have hvalid : (physPpn (frame n) ||| pteV) &&& pteV ≠ 0 := by
    rw [physPpn_or_and (by decide)]
    decide
  have hentry := entries_setWord_table hI hd hempty hvalid (by rwa [hphys]) (by rwa [hphys])
  refine ⟨?_, hentry⟩
  have h := place hI (r := .table i k) (e := physPpn (frame n) ||| pteV) hempty
    (by rw [Ref.phys, hphys]; exact hheld) hwf
    (fun r' hr' => by
      simp only [Ref.parent, some.injEq] at hr'
      rw [← hr']
      simp [view, entries, hd])
  have hview : ((w.store d k (physPpn (frame n) ||| pteV)).setHeld (w.held.erase (frame n))).view =
      (w.view.setEntry (.table i k) (some (physPpn (frame n) ||| pteV))).setHeld
        (w.held.erase (frame n)) := by
    rw [View.setEntry, View.setHeld, ← hentry]
    rfl
  rw [Ref.phys, hphys] at h
  rw [World.Inv, hview]
  exact h

end

/-! ### Mapping a page -/

/-- The place in which a user address is mapped. -/
def userLeaf (i : Fin nrTasks) (a : Word) (h : a < userLimit) : Ref :=
  .leaf i (pageNr a h).1 (pageNr a h).2

section

variable {main : MainMemory} {w : World} {E : Halt → State → Prop}

/-- `put_page_pgdir` of a held page: it is mapped at the address and no other
mapping of a page changes, or nothing happens. A page that was mapped there and
that nobody else maps is held. -/
theorem World.Inv.wp_putPagePgdir_over (hI : w.Inv main) {i : Fin nrTasks} {d page a : Word}
    {Q : Word → State → Prop} (hd : w.pgdir i = some d) (hheld : page ∈ w.held)
    (hold : ∀ h e, w.view.entry (userLeaf i a h) = some e → e &&& pteW ≠ 0)
    (hfail : userLimit ≤ a → Q 0 w.mm)
    (hfull : (∀ h, w.view.entry (.table i (pageNr a h).1) = none) →
      (∀ n < pagingPages, w.mm.memMap n ≠ 0) → Q 0 w.mm.exhaust)
    (hok : ∀ w' : World, ∀ h, w'.Inv main → w'.pgdir = w.pgdir →
      w'.held = w.lost (userLeaf i a h) + w.held.erase page →
      (∀ r, r.page ≠ none ∨ r.slot ≠ i → w'.view.entry r =
        update w.view.entry (userLeaf i a h) (some (physPpn page ||| pteUserRwx)) r) →
      w.Keeps w'.mm.mem → (w.view.entry (.table i (pageNr a h).1) = none →
        ∃ n < pagingPages, w.mm.memMap n = 0) → SameReserved main w.mm w'.mm → Q page w'.mm) :
    wp (putPagePgdir d page a) Q E w.mm := by
  obtain ⟨m, hm, hpage⟩ := main_of_held hI hheld
  have hlow : ¬ page < ramBase := hpage ▸ BitVec.not_lt.mpr (ramBase_le_frame hm.lt)
  have hhigh : ¬ ramEnd ≤ page := hpage ▸ BitVec.not_le.mpr (frame_lt_ramEnd hm.lt)
  have hphys : ptePhys (physPpn page ||| pteUserRwx) = page := by
    rw [hpage]
    exact ptePhys_frame hm.lt (by decide)
  have hbits : (physPpn page ||| pteUserRwx) &&& pteUserMask = pteUserBits :=
    physPpn_or_and (by decide)
  unfold putPagePgdir
  by_cases hlim : userLimit ≤ a
  · simpa [hlim] using hfail hlim
  have h : a < userLimit := BitVec.not_le.mp hlim
  simp only [hlim, hlow, hhigh, if_false, or_self, wp_bind, wp_readWord]
  -- the page goes into the table of any world in which it is still held
  have hleaf {w₁ : World} {e : Word} (hI₁ : w₁.Inv main) (hd₁ : w₁.pgdir = w.pgdir)
      (hheld₁ : w₁.held = w.held)
      (he : w₁.view.entry (.table i ⟨dirIndex a, dirIndex_lt h⟩) = some e)
      (hentry : ∀ r, r.page ≠ none ∨ r.slot ≠ i → w₁.view.entry r = w.view.entry r)
      (hkeeps : w.Keeps (setWord w₁.mm.mem (ptePhys e) (tableIndex a)
        (physPpn page ||| pteUserRwx)))
      (hroom : w.view.entry (.table i (pageNr a h).1) = none →
        ∃ n < pagingPages, w.mm.memMap n = 0) (hres : SameReserved main w.mm w₁.mm) :
      Q page (w₁.mm.setMem (setWord w₁.mm.mem (ptePhys e) (tableIndex a)
        (physPpn page ||| pteUserRwx))) := by
    have hsame : w₁.view.entry (userLeaf i a h) = w.view.entry (userLeaf i a h) :=
      hentry _ (.inl (by simp [userLeaf, Ref.page]))
    have hlost : w₁.lost (userLeaf i a h) = w.lost (userLeaf i a h) := by
      rw [World.lost, World.lost, hsame]
    obtain ⟨hinv, hentry'⟩ := hI₁.store_leaf (j := ⟨tableIndex a, tableIndex_lt a⟩)
      (x := physPpn page ||| pteUserRwx) he (fun e' he' => hold h e' (hsame.symm.trans he'))
      (by rwa [hphys, hheld₁]) hbits
    rw [hphys, hheld₁] at hinv
    refine hok _ h hinv hd₁ (congrArg (· + _) hlost) (fun r hr => ?_) hkeeps hroom hres
    refine (congrFun hentry' r).trans ?_
    by_cases hrr : r = userLeaf i a h
    · rw [hrr, userLeaf, pageNr, update_self, update_self]
    · rw [update_of_ne hrr]
      exact (update_of_ne hrr _ _).trans (hentry r hr)
  by_cases hv : word w.mm.mem d (dirIndex a) &&& pteV = 0
  · rw [if_pos hv]
    have hnone : w.view.entry (.table i ⟨dirIndex a, dirIndex_lt h⟩) = none :=
      (entries_table hd _).trans (entryAt_eq_none_iff.mpr hv)
    refine wp_bind.mpr (wp_getFreePage (fun hall => ?_) fun n hn hzero => ?_)
    · simpa using hfull (fun _ => hnone) hall
    simp only [frame_ne_zero hn, if_false, wp_bind, wp_writeWord, wp_pure]
    have hI₁ := hI.alloc hn hzero
    have hscratch := hI.scratch_of_free hn hzero
    obtain ⟨hI₂, hentry₂⟩ := hI₁.place_table (k := ⟨dirIndex a, dirIndex_lt h⟩) hd
      (by rw [hI.entry_alloc hn hzero]; exact hnone) hn (mem_cons_self _ _)
      (fun j hj => World.word_alloc hj)
    have htphys : ptePhys (physPpn (frame n) ||| pteV) = frame n := ptePhys_frame hn (by decide)
    rw [World.alloc, erase_cons_head] at hI₂
    refine hleaf hI₂ rfl rfl ?_ (fun r hr => ?_) ?_ (fun _ => ⟨n, hn, hzero⟩) ?_
    · exact (congrFun hentry₂ _).trans (update_self ..)
    · refine (congrFun hentry₂ r).trans ?_
      rw [update_of_ne, hI.entry_alloc hn hzero]
      rintro rfl
      exact hr.elim (fun h => h rfl) fun h => h rfl
    · rw [htphys]
      exact (((World.Keeps.refl w).fillN hI hscratch).setWord_dir hI hd _).setWord hI hscratch
        (tableIndex_lt a)
    · exact (SameReserved.refl main w.mm).setCount (hI.has_of_free hn hzero) 1
  · rw [if_neg hv]
    have he : w.view.entry (.table i ⟨dirIndex a, dirIndex_lt h⟩) =
        some (word w.mm.mem d (dirIndex a)) :=
      (entries_table hd _).trans (validEntry_of_valid hv)
    simp only [wp_bind, wp_writeWord, wp_pure]
    exact hleaf hI rfl rfl he (fun r _ => rfl) ((World.Keeps.refl w).setWord hI (hI.scratch_table
      he) (tableIndex_lt a)) (fun hnone => absurd (he.symm.trans hnone) (by simp)) (.refl _ _)

/-- `put_page_pgdir` of a held page at an address where nothing is mapped. -/
theorem World.Inv.wp_putPagePgdir (hI : w.Inv main) {i : Fin nrTasks} {d page a : Word}
    {Q : Word → State → Prop} (hd : w.pgdir i = some d) (hheld : page ∈ w.held)
    (hempty : ∀ h, w.view.entry (userLeaf i a h) = none) (hfail : userLimit ≤ a → Q 0 w.mm)
    (hfull : (∀ h, w.view.entry (.table i (pageNr a h).1) = none) →
      (∀ n < pagingPages, w.mm.memMap n ≠ 0) → Q 0 w.mm.exhaust)
    (hok : ∀ w' : World, ∀ h, w'.Inv main → w'.pgdir = w.pgdir → w'.held = w.held.erase page →
      (∀ r, r.page ≠ none → w'.view.entry r =
        update w.view.entry (userLeaf i a h) (some (physPpn page ||| pteUserRwx)) r) →
      w.Keeps w'.mm.mem → (w.view.entry (.table i (pageNr a h).1) = none →
        ∃ n < pagingPages, w.mm.memMap n = 0) → Q page w'.mm) :
    wp (putPagePgdir d page a) Q E w.mm := by
  refine hI.wp_putPagePgdir_over hd hheld (fun h e he => ?_) hfail hfull
    fun w' h hinv hpgdir hheld' hentry hkeeps hroom _ => ?_
  · exact absurd ((hempty h).symm.trans he) (by simp)
  · rw [lost_of_none (hempty h), zero_add] at hheld'
    exact hok w' h hinv hpgdir hheld' (fun r hr => hentry r (.inl hr)) hkeeps hroom

/-- What `un_wp_page` leaves of the entry `e` in the leaf `r`: a writable entry
of a page with the same bytes. -/
structure Unprotected (main : MainMemory) (w : World) (r : Ref) (e : Word) (w' : World) : Prop where
  inv : w'.Inv main
  pgdir : w'.pgdir = w.pgdir
  held : w'.held = w.held
  entry : ∃ e', e' &&& pteW ≠ 0 ∧ w'.view.entry = update w.view.entry r (some e') ∧
    ∀ o < 4096, w'.mm.mem (ptePhys e' + .ofNat 32 o) = w.mm.mem (ptePhys e + .ofNat 32 o)
  keeps : w.Keeps w'.mm.mem

section

variable {i : Fin nrTasks} {k : Fin userPgdEntries} {j : Fin ptrsPerPage} {et e : Word}

/-- The only user of the page takes it over as it is. -/
theorem World.Inv.unprotect_in_place (hI : w.Inv main) (het : w.view.entry (.table i k) = some et)
    (he : w.view.entry (.leaf i k j) = some e) (hone : w.view.refs (ptePhys e) = 1) :
    Unprotected main w (.leaf i k j) e (w.store (ptePhys et) j (e ||| pteW)) := by
  have hbits : (e ||| pteW) &&& pteUserMask = pteUserBits := by
    rw [or_w_userMask]
    exact wellFormed hI _ _ he
  have hentry := entries_setWord_leaf (x := e ||| pteW) hI het j
  rw [validEntry_of_valid (and_pteV_of_userMask hbits)] at hentry
  have hinv := reflag hI (e ||| pteW) he (ptePhys_or_w e) hbits fun _ => hone
  have hview : (w.store (ptePhys et) j (e ||| pteW)).view =
      w.view.setEntry (.leaf i k j) (some (e ||| pteW)) := by
    rw [View.setEntry, ← hentry]
    rfl
  have hkeeps : w.Keeps (setWord w.mm.mem (ptePhys et) j (e ||| pteW)) :=
    (World.Keeps.refl w).setWord hI (hI.scratch_table het) j.isLt
  refine ⟨?_, rfl, rfl, ⟨e ||| pteW, or_w_and_w e, hentry, fun o ho => ?_⟩, hkeeps⟩
  · rw [World.Inv, hview]
    exact hinv
  · rw [ptePhys_or_w]
    exact hkeeps.data _ (hI.dataFrame_leaf he) o ho

/-- Frame `m`, which other tasks still use, is replaced by a copy in the free
frame `n`. -/
theorem World.Inv.unprotect_copy (hI : w.Inv main) {m n : ℕ}
    (het : w.view.entry (.table i k) = some et) (he : w.view.entry (.leaf i k j) = some e)
    (hm : main.Has m) (hphys : ptePhys e = frame m) (hn : n < pagingPages)
    (hzero : w.mm.memMap n = 0) :
    Unprotected main w (.leaf i k j) e (w.setMm ((((w.alloc n).mm.setCount m (w.mm.memMap m - 1)).setMem
      (setWord (w.alloc n).mm.mem (ptePhys et) j (physPpn (frame n) ||| pteUserRw))).setMem
      (fillN 4096 (setWord (w.alloc n).mm.mem (ptePhys et) j (physPpn (frame n) ||| pteUserRw))
        (frame n) fun o => setWord (w.alloc n).mm.mem (ptePhys et) j
          (physPpn (frame n) ||| pteUserRw) (frame m + .ofNat 32 o)))) := by
  set x := physPpn (frame n) ||| pteUserRw with hx
  have hxphys : ptePhys x = frame n := ptePhys_frame hn (by decide)
  have hxbits : x &&& pteUserMask = pteUserBits := physPpn_or_and (by decide)
  have hxw : x &&& pteW ≠ 0 := by
    rw [hx, physPpn_or_and (by decide)]
    decide
  have hmn : m ≠ n := by
    rintro rfl
    have hpos := View.refs_pos_of_entry he
    rw [Ref.phys, hphys, hI.refs_of_free hn hzero] at hpos
    exact absurd hpos (lt_irrefl 0)
  have hI₁ := hI.alloc hn hzero
  have hentry₁ := hI.entry_alloc hn hzero
  have het₁ : (w.alloc n).view.entry (.table i k) = some et := (congrFun hentry₁ _).trans het
  have he₁ : (w.alloc n).view.entry (.leaf i k j) = some e := (congrFun hentry₁ _).trans he
  -- the world between the store into the table and the copy
  let w₃ : World := w.setMm (((w.alloc n).mm.setCount m (w.mm.memMap m - 1)).setMem
    (setWord (w.alloc n).mm.mem (ptePhys et) j x))
  have hentry₃ : w₃.view.entry = update w.view.entry (.leaf i k j) (some x) := by
    have h := entries_setWord_leaf (x := x) hI₁ het₁ j
    rw [validEntry_of_valid (and_pteV_of_userMask hxbits), hentry₁] at h
    exact h
  have hI₃ : w₃.Inv main := by
    have hdrop := drop hI₁ he₁ hm hphys (fun r' hr' => by
      cases r' <;> simp [Ref.parent] at hr')
    have hplace := place hdrop (r := .leaf i k j) (e := x) (by simp)
      (by rw [Ref.phys, hxphys]; exact mem_cons_self _ _) hxbits
      (fun r' hr' => by
        simp only [Ref.parent, some.injEq] at hr'
        subst hr'
        simp [hentry₁, het])
    refine (congrArg (View.Inv main) (?_ : w₃.view = _)).mpr hplace
    ext1
    · rw [hentry₃, View.entry_setHeld, View.entry_setEntry, View.entry_setCount,
        View.entry_setEntry, update_idem, hentry₁]
    · rw [View.held_setHeld, Ref.phys, hxphys]
      exact (erase_cons_head _ _).symm
    · have hcount : (w.alloc n).mm.memMap m = w.mm.memMap m := update_of_ne hmn _ _
      change update (w.alloc n).mm.memMap m (w.mm.memMap m - 1) =
        update (w.alloc n).mm.memMap m ((w.alloc n).mm.memMap m - 1)
      rw [hcount]
  have hleaf₃ : w₃.view.entry (.leaf i k j) = some x := by rw [hentry₃, update_self]
  have hscratch := hI.scratch_of_free hn hzero
  have hkeeps₃ : w.Keeps w₃.mm.mem :=
    ((World.Keeps.refl w).fillN hI hscratch).setWord hI (hI.scratch_table het) j.isLt
  -- the copy writes into a page that is no directory and no table
  have hentry₄ (f : ℕ → Byte) :
      entries w.pgdir (fillN 4096 w₃.mm.mem (frame n) f) = w₃.view.entry := by
    refine entries_congr (w := w₃) fun r e' hpage he' l hl => ?_
    refine word_fillN ⟨n, hn, rfl⟩ (isFrame hI₃ he') ?_ hl
    intro h
    refine phys_ne hI₃ he' hpage hleaf₃ ?_ (by rw [h, Ref.phys, hxphys])
    rintro rfl
    cases hpage
  refine ⟨?_, rfl, rfl, ⟨x, hxw, (hentry₄ _).trans hentry₃, fun o ho => ?_⟩,
    hkeeps₃.fillN hI hscratch⟩
  · have hview : ∀ f, (w.setMm (w₃.mm.setMem (fillN 4096 w₃.mm.mem (frame n) f))).view =
        w₃.view := by
      intro f
      ext1
      · exact hentry₄ f
      · rfl
      · rfl
    exact (congrArg (View.Inv main) (hview _)).mpr hI₃
  · rw [hxphys]
    refine (fillN_apply_self ho).trans ?_
    rw [hphys]
    exact hkeeps₃.data _ (hphys ▸ hI.dataFrame_leaf he) o ho

/-- `un_wp_page` of a mapped page; it stops only when no frame is left. -/
theorem World.Inv.wp_unWpPage (hI : w.Inv main) {Q : PUnit → State → Prop}
    (het : w.view.entry (.table i k) = some et) (he : w.view.entry (.leaf i k j) = some e)
    (hok : ∀ w', Unprotected main w (.leaf i k j) e w' → Q ⟨⟩ w'.mm)
    (hexit : E (.exit 11) w.mm.exhaust) : wp (unWpPage (ptePhys et) j) Q E w.mm := by
  obtain ⟨m, hm, hphys⟩ := main_of_entry hI he
  rw [phys] at hphys
  have hword : word w.mm.mem (ptePhys et) j = e :=
    (entryAt_eq_some ((entries_leaf het j).symm.trans he)).1
  simp only [unWpPage, wp_bind, wp_readWord, wp_readCount, hword, hphys, mapNr_frame hm.lt,
    ramBase_le_frame hm.lt, true_and, if_true]
  by_cases hone : w.mm.memMap m = 1
  · rw [if_pos hone, wp_writeWord]
    refine hok _ (hI.unprotect_in_place het he ?_)
    rw [hphys, ← exact hI m hm]
    exact congrArg BitVec.toNat hone
  · rw [if_neg hone, wp_bind]
    refine wp_getFreePage (fun _ => ?_) fun n hn hzero => ?_
    · simpa using hexit
    have hmn : m ≠ n := by
      rintro rfl
      have hpos := View.refs_pos_of_entry he
      rw [phys, hphys, hI.refs_of_free hn hzero] at hpos
      exact absurd hpos (lt_irrefl 0)
    simp only [frame_ne_zero hn, if_false, wp_bind, wp_readCount, wp_writeCount, wp_writeWord]
    refine (wp_copyPage ⟨m, hm.lt, rfl⟩ ⟨n, hn, rfl⟩ fun h => hmn (frame_inj hm.lt hn h)).imp ?_
    rintro _ _ rfl
    have hcount : update w.mm.memMap n 1 m = w.mm.memMap m := update_of_ne hmn _ _
    rw [memMap_setMem, memMap_setCount, hcount]
    exact hok _ (hI.unprotect_copy het he hm hphys hn hzero)

end

/-! ### Freeing an address space -/

/-- A frame a view has a reference to has a nonzero counter. -/
theorem View.Inv.memMap_ne_zero {v : View} (h : v.Inv main) {n : ℕ} (hn : main.Has n)
    (hpos : 0 < v.refs (frame n)) : v.memMap n ≠ 0 := by
  intro hzero
  have hx := h.exact n hn
  rw [hzero] at hx
  exact hpos.ne hx

/-- The entries with the first `l` leaves of a table gone. -/
def withoutLeaves (g : Ref → Option Word) (i : Fin nrTasks) (k : Fin userPgdEntries) (l : ℕ) :
    Ref → Option Word
  | .leaf i' k' j' => if i' = i ∧ k' = k ∧ j'.1 < l then none else g (.leaf i' k' j')
  | r => g r

theorem withoutLeaves_zero (g : Ref → Option Word) (i : Fin nrTasks) (k : Fin userPgdEntries) :
    withoutLeaves g i k 0 = g := by
  funext r
  cases r <;> simp [withoutLeaves]

theorem withoutLeaves_succ (g : Ref → Option Word) (i : Fin nrTasks) (k : Fin userPgdEntries)
    (j : Fin ptrsPerPage) : withoutLeaves g i k (j + 1) =
      update (withoutLeaves g i k j) (.leaf i k j) none := by
  funext r
  by_cases hr : r = .leaf i k j
  · subst hr
    simp [withoutLeaves]
  · rw [update_of_ne hr]
    cases r with
    | dir i' => rfl
    | table i' k' => rfl
    | leaf i' k' j' =>
      refine if_congr ?_ rfl rfl
      simp only [leaf.injEq, not_and, Fin.ext_iff] at hr
      constructor
      · rintro ⟨hi, hk, hj⟩
        have := hr (by rw [hi]) (by rw [hk])
        exact ⟨hi, hk, by omega⟩
      · rintro ⟨hi, hk, hj⟩
        exact ⟨hi, hk, by omega⟩

/-- The entries with the first `l` tables of a directory gone, and all they
map. -/
def withoutTables (g : Ref → Option Word) (i : Fin nrTasks) (l : ℕ) : Ref → Option Word
  | .dir i' => g (.dir i')
  | .table i' k' => if i' = i ∧ k'.1 < l then none else g (.table i' k')
  | .leaf i' k' j' => if i' = i ∧ k'.1 < l then none else g (.leaf i' k' j')

theorem withoutTables_zero (g : Ref → Option Word) (i : Fin nrTasks) : withoutTables g i 0 = g := by
  funext r
  cases r <;> simp [withoutTables]

theorem withoutTables_succ (g : Ref → Option Word) (i : Fin nrTasks) (k : Fin userPgdEntries)
    (r : Ref) : withoutTables g i (k + 1) r =
      if r = .table i k ∨ r.parent = some (.table i k) then none else withoutTables g i k r := by
  have hlt (k' : Fin userPgdEntries) : k'.1 < k + 1 ↔ k' = k ∨ k'.1 < k := by
    rw [Fin.ext_iff]
    omega
  cases r with
  | dir i' => simp [withoutTables, Ref.parent]
  | table i' k' =>
    simp only [withoutTables, Ref.parent, hlt, Ref.table.injEq, some.injEq, reduceCtorEq, or_false]
    by_cases hi : i' = i <;> by_cases hk : k' = k <;> simp [hi, hk]
  | leaf i' k' j' =>
    simp only [withoutTables, Ref.parent, hlt, Ref.table.injEq, some.injEq, reduceCtorEq, false_or]
    by_cases hi : i' = i <;> by_cases hk : k' = k <;> simp [hi, hk]

section

variable {i : Fin nrTasks} {k : Fin userPgdEntries} {et d : Word}

/-- The pages a table maps are given back; the table still names them. -/
theorem World.Inv.wp_freeLeaves (hI : w.Inv main) (het : w.view.entry (.table i k) = some et) :
    wp (freeLeaves (ptePhys et)) (fun _ s' => s'.mem = w.mm.mem ∧
      s'.exhausted = w.mm.exhausted ∧ SameReserved main w.mm s' ∧
      (View.mk (withoutLeaves w.view.entry i k ptrsPerPage) w.held s'.memMap).Inv main) E w.mm := by
  refine wp_forN (fun l (s' : State) => s'.mem = w.mm.mem ∧ s'.exhausted = w.mm.exhausted ∧
    SameReserved main w.mm s' ∧
    (View.mk (withoutLeaves w.view.entry i k l) w.held s'.memMap).Inv main) ?_
    ⟨rfl, rfl, .refl _ _, by rw [withoutLeaves_zero]; exact hI⟩
  rintro j s ⟨hmem, hflag, hres, hinv⟩
  have hentry : w.view.entry (.leaf i k j) = entryAt w.mm.mem (ptePhys et) j := entries_leaf het j
  have hstill : withoutLeaves w.view.entry i k j (.leaf i k j) = w.view.entry (.leaf i k j) := by
    simp [withoutLeaves]
  simp only [wp_bind, wp_readWord, hmem]
  by_cases hv : word w.mm.mem (ptePhys et) j &&& pteV = 0
  · rw [if_pos hv, wp_pure]
    refine ⟨hmem, hflag, hres, ?_⟩
    have hnone : withoutLeaves w.view.entry i k j (.leaf i k j) = none := by
      rw [hstill, hentry, entryAt_eq_none_iff]
      exact hv
    rw [withoutLeaves_succ, ← hnone, update_eq_self]
    exact hinv
  · rw [if_neg hv]
    let v : View := ⟨withoutLeaves w.view.entry i k j, w.held, s.memMap⟩
    have hsome : v.entry (.leaf i k j) = some (word w.mm.mem (ptePhys et) j) := by
      refine hstill.trans ?_
      rw [hentry, entryAt, validEntry_of_valid hv]
    obtain ⟨n, hn, hphys⟩ := hinv.main_of_entry hsome
    have hpos : 0 < v.refs (frame n) := hphys ▸ View.refs_pos_of_entry hsome
    have hphys' : ptePhys (word w.mm.mem (ptePhys et) j) = frame n := hphys
    rw [hphys']
    refine wp_freePage hn.lt (hinv.memMap_ne_zero hn hpos) ⟨hmem, hflag, hres.setCount hn _, ?_⟩
    have hdrop := hinv.drop hsome hn hphys fun r' hr' => by cases r' <;> simp [Ref.parent] at hr'
    rw [withoutLeaves_succ]
    exact hdrop

/-- One iteration of `free_page_tables`. -/
theorem World.Inv.wp_freeTable (hI : w.Inv main) {Q : PUnit → State → Prop}
    (hd : w.pgdir i = some d) (het : w.view.entry (.table i k) = some et)
    (hQ : ∀ s' : State, (w.setMm s').Inv main → ((w.setMm s').view.entry = fun r =>
        if r = .table i k ∨ r.parent = some (.table i k) then none else w.view.entry r) →
      s'.mem = setWord w.mm.mem d k 0 → s'.exhausted = w.mm.exhausted →
      SameReserved main w.mm s' → Q ⟨⟩ s') :
    wp (do freeLeaves (ptePhys et); freePage (ptePhys et); writeWord d k 0) Q E w.mm := by
  rw [wp_bind]
  refine (hI.wp_freeLeaves het).imp ?_
  rintro _ s₁ ⟨hmem₁, hflag₁, hres₁, hinv₁⟩
  let v₁ : View := ⟨withoutLeaves w.view.entry i k ptrsPerPage, w.held, s₁.memMap⟩
  have het₁ : v₁.entry (.table i k) = some et := het
  obtain ⟨n, hn, hphys⟩ := hinv₁.main_of_entry het₁
  have hpos : 0 < v₁.refs (frame n) := hphys ▸ View.refs_pos_of_entry het₁
  have hphys' : ptePhys et = frame n := hphys
  have hchild (r : Ref) (hr : r.parent = some (.table i k)) : v₁.entry r = none := by
    cases r with
    | dir i' => cases hr
    | table i' k' => simp [Ref.parent] at hr
    | leaf i' k' j' =>
      simp only [Ref.parent, some.injEq, Ref.table.injEq] at hr
      exact if_pos ⟨hr.1, hr.2, j'.isLt⟩
  rw [wp_bind, hphys']
  refine wp_freePage hn.lt (hinv₁.memMap_ne_zero hn hpos) ?_
  have hdrop := hinv₁.drop het₁ hn hphys hchild
  rw [wp_writeWord, mem_setCount, hmem₁]
  have hentry := entries_clear_table (k := k) hI hd
  refine hQ _ ?_ hentry rfl hflag₁ (hres₁.setCount hn _)
  refine (congrArg (View.Inv main) (?_ : view _ = _)).mpr hdrop
  ext1
  · refine hentry.trans (funext fun r => ?_)
    rw [View.entry_setCount, View.entry_setEntry]
    by_cases hr : r = .table i k
    · rw [if_pos (Or.inl hr), hr, update_self]
    · rw [update_of_ne hr]
      by_cases hp : r.parent = some (.table i k)
      · rw [if_pos (Or.inr hp)]
        exact (hchild r hp).symm
      · rw [if_neg (not_or.mpr ⟨hr, hp⟩)]
        cases r with
        | dir i' => rfl
        | table i' k' => rfl
        | leaf i' k' j' =>
          refine (if_neg fun h => hp ?_).symm
          rw [Ref.parent, h.1, h.2.1]
  · rfl
  · rfl

/-- `free_page_tables` of a task's directory: the task has no address space any
more, and the others have what they had. -/
theorem World.Inv.wp_freePageTables (hI : w.Inv main) {Q : PUnit → State → Prop}
    (hd : w.pgdir i = some d) (hQ : ∀ w' : World, w'.Inv main → w'.pgdir = update w.pgdir i none →
      w'.held = w.held → (∀ r, r.slot ≠ i → w'.view.entry r = w.view.entry r) →
      w.Keeps w'.mm.mem → w'.mm.exhausted = w.mm.exhausted →
      SameReserved main w.mm w'.mm → Q ⟨⟩ w'.mm) : wp (freePageTables d) Q E w.mm := by
  obtain ⟨n, hn, hdn⟩ := main_of_entry hI (r := .dir i) hd
  have hd0 : d ≠ 0 := by
    rw [show d = frame n from hdn]
    exact frame_ne_zero hn.lt
  simp only [freePageTables, hd0, if_false, wp_bind]
  refine (wp_forN (fun l (s : State) => (w.setMm s).Inv main ∧
    (w.setMm s).view.entry = withoutTables w.view.entry i l ∧ w.Keeps s.mem ∧
      s.exhausted = w.mm.exhausted ∧ SameReserved main w.mm s) ?_
    ⟨hI, (withoutTables_zero _ i).symm, World.Keeps.refl w, rfl, .refl _ _⟩).imp ?_
  · rintro k s ⟨hinv, hentry, hkeeps, hflag, hres⟩
    have hword : (w.setMm s).view.entry (.table i k) = entryAt s.mem d k :=
      entries_table hd k
    rw [wp_bind, wp_readWord]
    by_cases hv : word s.mem d k &&& pteV = 0
    · rw [if_pos hv, wp_pure]
      refine ⟨hinv, hentry.trans (funext fun r => ?_), hkeeps, hflag, hres⟩
      rw [withoutTables_succ, ← hentry]
      have hnone : (w.setMm s).view.entry (.table i k) = none :=
        hword.trans (entryAt_eq_none_iff.mpr hv)
      by_cases hr : r = .table i k ∨ r.parent = some (.table i k)
      · rw [if_pos hr]
        rcases hr with rfl | hp
        · exact hnone
        · by_contra hne
          exact parent hinv r _ hp hne hnone
      · rw [if_neg hr]
    · rw [if_neg hv]
      have hsome : (w.setMm s).view.entry (.table i k) = some (word s.mem d k) :=
        hword.trans (validEntry_of_valid hv)
      refine hinv.wp_freeTable (w := w.setMm s) hd hsome
        fun s' hinv' hentry' hmem' hflag' hres' => ?_
      refine ⟨hinv', hentry'.trans (funext fun r => ?_), ?_, hflag'.trans hflag,
        fun n hn => (hres' n hn).trans (hres n hn)⟩
      · rw [withoutTables_succ, hentry]
      · rw [hmem']
        exact hkeeps.setWord_dir hI hd k
  · rintro _ s ⟨hinv, hentry, hkeeps, hflag, hres⟩
    have hnone (r : Ref) (hslot : r.slot = i) (hr : r ≠ .dir i) :
        (w.setMm s).view.entry r = none := by
      rw [hentry]
      cases r with
      | dir i' => exact absurd (congrArg Ref.dir hslot) hr
      | table i' k' => exact if_pos ⟨hslot, k'.isLt⟩
      | leaf i' k' j' => exact if_pos ⟨hslot, k'.isLt⟩
    have hpos : 0 < (w.setMm s).view.refs (frame n) :=
      hdn ▸ View.refs_pos_of_entry (v := (w.setMm s).view) (r := .dir i) hd
    have hdrop := drop hinv (r := .dir i) hd hn hdn fun r' hr' =>
      hnone r' (by cases r' <;> simp_all [Ref.parent, Ref.slot]) (by rintro rfl; cases hr')
    rw [show d = frame n from hdn]
    refine wp_freePage hn.lt (memMap_ne_zero hinv hn hpos) ?_
    let w' : World := ⟨s.setCount n (s.memMap n - 1), update w.pgdir i none, w.held⟩
    have hentry' : w'.view.entry = update (w.setMm s).view.entry (.dir i) none :=
      entries_update_dir (fun k => hnone (.table i k) rfl (by simp)) (fun d hd => by cases hd)
    refine hQ w' ?_ rfl rfl (fun r hr => ?_) hkeeps hflag (hres.setCount hn _)
    · refine (congrArg (View.Inv main) (?_ : w'.view = _)).mpr hdrop
      ext1
      · exact hentry'
      · rfl
      · rfl
    · rw [hentry', update_of_ne (by rintro rfl; exact hr rfl), hentry]
      cases r with
      | dir i' => rfl
      | table i' k' => exact if_neg fun h => hr h.1
      | leaf i' k' j' => exact if_neg fun h => hr h.1

end

/-! ### Copying an address space -/

def clearW (e : Word) : Word := e &&& ~~~pteW

/-- The entries with the first `l` leaves of table `k` write protected in task
`i` and the same in task `i'`. -/
def sharedLeaves (g : Ref → Option Word) (i i' : Fin nrTasks) (k : Fin userPgdEntries) (l : ℕ) :
    Ref → Option Word
  | .leaf t k' j => if (t = i ∨ t = i') ∧ k' = k ∧ j.1 < l then (g (.leaf i k' j)).map clearW
      else g (.leaf t k' j)
  | r => g r

theorem sharedLeaves_zero (g : Ref → Option Word) (i i' : Fin nrTasks) (k : Fin userPgdEntries) :
    sharedLeaves g i i' k 0 = g := by
  funext r
  cases r <;> simp [sharedLeaves]

theorem sharedLeaves_succ (g : Ref → Option Word) {i i' : Fin nrTasks} (hne : i ≠ i')
    (k : Fin userPgdEntries) (j : Fin ptrsPerPage) : sharedLeaves g i i' k (j + 1) =
      update (update (sharedLeaves g i i' k j) (.leaf i k j)
        ((g (.leaf i k j)).map clearW)) (.leaf i' k j) ((g (.leaf i k j)).map clearW) := by
  funext r
  cases r with
  | dir t => rfl
  | table t k' => rfl
  | leaf t k' j' =>
    by_cases hk : k' = k ∧ j' = j
    · obtain ⟨rfl, rfl⟩ := hk
      by_cases ht' : t = i'
      · subst ht'
        simp [sharedLeaves]
      · rw [update_of_ne (by simp [ht'])]
        by_cases ht : t = i
        · subst ht
          simp [sharedLeaves]
        · rw [update_of_ne (by simp [ht])]
          simp [sharedLeaves, ht, ht']
    · have h1 (t' : Fin nrTasks) : leaf t k' j' ≠ .leaf t' k j := by
        simp only [ne_eq, leaf.injEq, not_and]
        exact fun _ h => not_and.mp hk h
      rw [update_of_ne (h1 i'), update_of_ne (h1 i)]
      have hlt : k' = k ∧ j'.1 < j + 1 ↔ k' = k ∧ j'.1 < j := by
        refine and_congr_right fun h => ?_
        have := not_and.mp hk h
        rw [Fin.ext_iff] at this
        omega
      simp only [sharedLeaves, hlt]

section

variable {i i' : Fin nrTasks} {k : Fin userPgdEntries} {et et' : Word}

/-- One iteration of the inner loop on a valid entry `e`. -/
theorem World.Inv.share_leaf (hI : w.Inv main) {j : Fin ptrsPerPage} {e : Word} {n : ℕ}
    (hne : i ≠ i') (het : w.view.entry (.table i k) = some et)
    (het' : w.view.entry (.table i' k) = some et') (he : w.view.entry (.leaf i k j) = some e)
    (hempty : w.view.entry (.leaf i' k j) = none) (hn : main.Has n) (hphys : ptePhys e = frame n) :
    let w' := w.setMm ((w.mm.setMem (setWord (setWord w.mm.mem (ptePhys et) j (clearW e))
      (ptePhys et') j (clearW e))).setCount n (w.mm.memMap n + 1))
    w'.Inv main ∧ w'.view.entry = update (update w.view.entry (.leaf i k j)
      (some (clearW e))) (.leaf i' k j) (some (clearW e)) := by
  intro w'
  have hbits : clearW e &&& pteUserMask = pteUserBits := by
    rw [clearW, and_not_w_userMask]
    exact wellFormed hI _ _ he
  have hvalid := validEntry_of_valid (and_pteV_of_userMask hbits)
  have hx (t : Fin nrTasks) : ¬ (Ref.leaf t k j).Exclusive (clearW e) := fun h =>
    h (and_not_w_and_w e)
  -- the parent's entry loses `W`
  let w₁ := w.store (ptePhys et) j (clearW e)
  have hentry₁ : w₁.view.entry = update w.view.entry (.leaf i k j) (some (clearW e)) := by
    have h := entries_setWord_leaf (x := clearW e) hI het j
    rwa [hvalid] at h
  have hI₁ : w₁.Inv main := by
    have h := reflag hI (clearW e) he (ptePhys_and_not_w e) hbits fun h => absurd h (hx i)
    refine (congrArg (View.Inv main) (?_ : w₁.view = _)).mpr h
    ext1
    · exact hentry₁
    · rfl
    · rfl
  have hentry₂ : w'.view.entry =
      update w₁.view.entry (.leaf i' k j) (some (clearW e)) := by
    have h := entries_setWord_leaf (x := clearW e) (e := et') (i := i') (k := k) hI₁
      (by rw [hentry₁, update_of_ne (by simp)]; exact het') j
    rwa [hvalid] at h
  refine ⟨?_, by rw [hentry₂, hentry₁]⟩
  -- the child's entry comes with a count
  have hphys' : ptePhys (clearW e) = frame n := (ptePhys_and_not_w e).trans hphys
  have h := share hI₁ (r := .leaf i k j) (.leaf i' k j) (e := clearW e)
    (by rw [hentry₁, update_self]) hn hphys' hphys' (hx i) (hx i') rfl hbits
    (by rw [hentry₁, update_of_ne (by simp [hne.symm])]; exact hempty)
    (fun q hq => by
      simp only [Ref.parent, some.injEq] at hq
      subst hq
      rw [hentry₁, update_of_ne (by simp), het']
      simp)
  refine (congrArg (View.Inv main) (?_ : w'.view = _)).mpr h
  ext1
  · exact hentry₂
  · rfl
  · rfl

theorem World.Inv.wp_shareLeaves (hI : w.Inv main) (hne : i ≠ i')
    (het : w.view.entry (.table i k) = some et) (het' : w.view.entry (.table i' k) = some et')
    (hempty : ∀ j, w.view.entry (.leaf i' k j) = none) :
    wp (shareLeaves (ptePhys et) (ptePhys et')) (fun _ s' => (w.setMm s').Inv main ∧
      (w.setMm s').view.entry = sharedLeaves w.view.entry i i' k ptrsPerPage ∧
      w.Keeps s'.mem) E w.mm := by
  refine wp_forN (fun l (s' : State) => (w.setMm s').Inv main ∧
    (w.setMm s').view.entry = sharedLeaves w.view.entry i i' k l ∧ w.Keeps s'.mem) ?_
    ⟨hI, (sharedLeaves_zero ..).symm, World.Keeps.refl w⟩
  rintro j s ⟨hinv, hentry, hkeeps⟩
  have het₁ : (w.setMm s).view.entry (.table i k) = some et := by rw [hentry]; exact het
  have het₁' : (w.setMm s).view.entry (.table i' k) = some et' := by rw [hentry]; exact het'
  have hold : (w.setMm s).view.entry (.leaf i k j) = w.view.entry (.leaf i k j) := by
    rw [hentry]
    simp [sharedLeaves]
  have hnone : (w.setMm s).view.entry (.leaf i' k j) = none := by
    rw [hentry, ← hempty j]
    simp [sharedLeaves]
  have hread : (w.setMm s).view.entry (.leaf i k j) = entryAt s.mem (ptePhys et) j :=
    entries_leaf het₁ j
  rw [wp_bind, wp_readWord]
  by_cases hv : word s.mem (ptePhys et) j &&& pteV = 0
  · rw [if_pos hv, wp_pure]
    refine ⟨hinv, hentry.trans ?_, hkeeps⟩
    have hgone : w.view.entry (.leaf i k j) = none := by
      rw [← hold, hread, entryAt_eq_none_iff]
      exact hv
    rw [sharedLeaves_succ _ hne, hgone, Option.map_none]
    have hself : sharedLeaves w.view.entry i i' k j (.leaf i k j) = none := by
      rw [← hentry, hold, hgone]
    have hself' : sharedLeaves w.view.entry i i' k j (.leaf i' k j) = none := by
      rw [← hentry, hnone]
    rw [← hself, update_eq_self, hself, ← hself', update_eq_self]
  · rw [if_neg hv]
    set e := word s.mem (ptePhys et) j with he
    have hsome : (w.setMm s).view.entry (.leaf i k j) = some e :=
      hread.trans (validEntry_of_valid hv)
    obtain ⟨n, hn, hphys⟩ := main_of_entry hinv hsome
    rw [phys] at hphys
    have hphys' : ptePhys (e &&& ~~~pteW) = frame n := (ptePhys_and_not_w e).trans hphys
    simp only [wp_bind, wp_writeWord, hphys', ramBase_le_frame hn.lt, if_true, wp_readCount,
      wp_writeCount, mapNr_frame hn.lt, mem_setMem, memMap_setMem]
    obtain ⟨hinv', hentry'⟩ := hinv.share_leaf hne het₁ het₁' hsome hnone hn hphys
    refine ⟨hinv', hentry'.trans ?_, ?_⟩
    · rw [sharedLeaves_succ _ hne, ← hentry, ← hold, hsome, Option.map_some]
    · exact (hkeeps.setWord hI (hI.scratch_table het) j.isLt).setWord hI
        (hI.scratch_table het') j.isLt

/-- The entries after `copy_page_tables` has done the first `l` tables: what
task `i` maps is write protected, and task `i'` maps the same. -/
def sharedTables (g : Ref → Option Word) (i i' : Fin nrTasks) (l : ℕ) : Ref → Option Word
  | .leaf t k j => if (t = i ∨ t = i') ∧ k.1 < l then (g (.leaf i k j)).map clearW
      else g (.leaf t k j)
  | r => g r

/-- What the outer loop of `copy_page_tables` maintains. -/
structure CopyInv (main : MainMemory) (w : World) (i i' : Fin nrTasks) (l : ℕ) (s : State) :
    Prop where
  inv : (w.setMm s).Inv main
  leaf : ∀ t k j, (w.setMm s).view.entry (.leaf t k j) =
    sharedTables w.view.entry i i' l (.leaf t k j)
  other : ∀ t k, t ≠ i' → (w.setMm s).view.entry (.table t k) = w.view.entry (.table t k)
  fresh : ∀ k : Fin userPgdEntries, l ≤ k.1 → (w.setMm s).view.entry (.table i' k) = none
  tables : ∀ k : Fin userPgdEntries, k.1 < l →
    ((w.setMm s).view.entry (.table i' k) = none ↔ w.view.entry (.table i k) = none)
  untouched : (∀ k : Fin userPgdEntries, k.1 < l → w.view.entry (.table i k) = none) →
    s.memMap = w.mm.memMap
  keeps : w.Keeps s.mem

section

variable {d' : Word} {s : State}

/-- A table the parent does not have leaves nothing to copy. -/
theorem CopyInv.skip (h : CopyInv main w i i' k s)
    (hnone : (w.setMm s).view.entry (.table i k) = none)
    (hnone' : w.view.entry (.table i k) = none) : CopyInv main w i i' (k + 1) s where
  inv := h.inv
  leaf t k' j := by
    rw [h.leaf]
    have hgone (t' : Fin nrTasks) (ht : t' = i ∨ t' = i') :
        (w.setMm s).view.entry (.leaf t' k j) = none := by
      refine entries_leaf_of_none ?_ j
      rcases ht with rfl | rfl
      · exact hnone
      · exact h.fresh k le_rfl
    by_cases hk : k' = k
    · subst hk
      by_cases ht : t = i ∨ t = i'
      · have h1 := hgone i (Or.inl rfl)
        have h2 := hgone t ht
        rw [h.leaf] at h1 h2
        simp only [sharedTables, lt_irrefl, and_false, if_false] at h1 h2 ⊢
        simp [h1, h2]
      · simp [sharedTables, ht]
    · have hlt : k'.1 < k + 1 ↔ k'.1 < k := by
        rw [Fin.ext_iff] at hk
        omega
      simp only [sharedTables, hlt]
  other := h.other
  fresh k' hk' := h.fresh k' (by omega)
  tables k' hk' := by
    by_cases hk : k' = k
    · subst hk
      exact iff_of_true (h.fresh k' le_rfl) hnone'
    · exact h.tables k' (by rw [Fin.ext_iff] at hk; omega)
  untouched hall := h.untouched fun k' hk' => hall k' (by omega)
  keeps := h.keeps

/-- The iteration for a table the parent has: a new table for the child, then
the inner loop. -/
theorem CopyInv.wp_copyTable (h : CopyInv main w i i' k s) (hd' : w.pgdir i' = some d')
    (hempty : ∀ k, w.view.entry (.table i' k) = none)
    (het : (w.setMm s).view.entry (.table i k) = some et) {n : ℕ}
    (hn : n < pagingPages) (hzero : s.memMap n = 0) :
    wp (do writeWord d' k (physPpn (frame n) ||| pteV); shareLeaves (ptePhys et) (frame n))
      (fun _ s' => CopyInv main w i i' (k + 1) s') E ((w.setMm s).alloc n).mm := by
  have hnone := h.fresh k le_rfl
  have hne : i ≠ i' := by
    rintro rfl
    rw [het] at hnone
    cases hnone
  set x := physPpn (frame n) ||| pteV with hx
  have hxphys : ptePhys x = frame n := ptePhys_frame hn (by decide)
  have hentry₁ := h.inv.entry_alloc hn hzero
  -- the world in which the child has its empty table
  let w₂ : World := w.setMm (((w.setMm s).alloc n).mm.setMem
    (setWord ((w.setMm s).alloc n).mm.mem d' k x))
  obtain ⟨hI₂, hentry₂⟩ := (h.inv.alloc hn hzero).place_table (k := k) hd' ((congrFun hentry₁
    _).trans hnone) hn (mem_cons_self _ _) (fun j hj => World.word_alloc hj)
  rw [World.alloc, erase_cons_head] at hI₂
  replace hI₂ : w₂.Inv main := hI₂
  replace hentry₂ : w₂.view.entry =
      update (w.setMm s).view.entry (.table i' k) (some x) := by
    rw [← hentry₁]
    exact hentry₂
  have hleaf₂ (t : Fin nrTasks) (k' : Fin userPgdEntries) (j : Fin ptrsPerPage) :
      w₂.view.entry (.leaf t k' j) = (w.setMm s).view.entry (.leaf t k' j) := by
    rw [hentry₂, update_of_ne (by simp)]
  have hscratch := h.inv.scratch_of_free hn hzero
  have hkeeps₂ : (w.setMm s).Keeps w₂.mm.mem :=
    ((World.Keeps.refl _).fillN h.inv hscratch).setWord_dir h.inv hd' k
  rw [wp_bind, wp_writeWord, ← hxphys]
  refine (hI₂.wp_shareLeaves (k := k) hne (by rw [hentry₂, update_of_ne (by simp [hne])]; exact het)
    (by rw [hentry₂, update_self])
    fun j => (hleaf₂ i' k j).trans (entries_leaf_of_none hnone j)).imp ?_
  rintro _ s' ⟨hinv, hentry, hkeeps⟩
  refine ⟨hinv, fun t k' j => ?_, fun t k' ht => ?_, fun k' hk' => ?_, fun k' hk' => ?_,
    fun hall => ?_, ?_⟩
  · refine (congrFun hentry _).trans ?_
    simp only [sharedLeaves, hleaf₂, h.leaf, j.isLt, and_true]
    by_cases hk : k' = k
    · subst hk
      simp [sharedTables]
    · have hlt : k'.1 < k + 1 ↔ k'.1 < k := by
        rw [Fin.ext_iff] at hk
        omega
      simp [sharedTables, hk, hlt]
  · refine (congrFun hentry _).trans ?_
    refine (congrFun hentry₂ _).trans ?_
    rw [update_of_ne (by simp [ht])]
    exact h.other t k' ht
  · refine (congrFun hentry _).trans ?_
    refine (congrFun hentry₂ _).trans ?_
    have hk : k' ≠ k := by
      rintro rfl
      omega
    rw [update_of_ne (by simp [hk])]
    exact h.fresh k' (by omega)
  · have hnew : (w.setMm s').view.entry (.table i' k') = w₂.view.entry (.table i' k') :=
      congrFun hentry _
    rw [hnew, hentry₂]
    by_cases hk : k' = k
    · subst hk
      rw [update_self]
      refine iff_of_false (by simp) fun hgone => ?_
      rw [h.other i k' hne, hgone] at het
      cases het
    · rw [update_of_ne (by simp [hk])]
      exact h.tables k' (by rw [Fin.ext_iff] at hk; omega)
  · rw [h.other i k hne, hall k (Nat.lt_succ_self _)] at het
    cases het
  · -- the data of `w` are still data in between
    have hdata (q : Word) (hq : w.DataFrame q) : (w.setMm s).DataFrame q := by
      refine h.inv.dataFrame_of (w := w) (fun f hf => hf) (fun t k' j e he => ?_) hq
      rw [h.leaf, sharedTables]
      by_cases hdone : (t = i ∨ t = i') ∧ k'.1 < k
      · rcases hdone with ⟨rfl | rfl, hk⟩
        · exact ⟨clearW e, by simp [hk, he], ptePhys_and_not_w e⟩
        · rw [World.view_entry, entries_leaf_of_none (hempty k')] at he
          cases he
      · exact ⟨e, by rw [if_neg hdone]; exact he, rfl⟩
    refine h.keeps.trans (hkeeps₂.trans hkeeps rfl fun q hq => ?_) rfl hdata
    exact hI₂.dataFrame_of (w := w.setMm s) (fun f hf => hf)
      (fun t k' j e he => ⟨e, (hleaf₂ t k' j).trans he, rfl⟩) hq

/-- `copy_page_tables` into an empty directory; `-1` when a table cannot be
had, with what has been copied so far. -/
theorem World.Inv.wp_copyPageTables (hI : w.Inv main) {d : Word} {Q : ℤ → State → Prop}
    (hd : w.pgdir i = some d) (hd' : w.pgdir i' = some d')
    (hempty : ∀ k, w.view.entry (.table i' k) = none)
    (hfail : ∀ (k : Fin userPgdEntries) s', CopyInv main w i i' k s' →
      w.view.entry (.table i k) ≠ none → (∀ n < pagingPages, s'.memMap n ≠ 0) →
      Q (-1) s'.exhaust) (hok : ∀ s', CopyInv main w i i' userPgdEntries s' → Q 0 s') :
    wp (copyPageTables d d') Q E w.mm := by
  have hdir0 {t : Fin nrTasks} {p : Word} (hp : w.pgdir t = some p) : p ≠ 0 := by
    obtain ⟨n, hn, rfl⟩ := hI.isFrame_dir hp
    exact frame_ne_zero hn
  simp only [copyPageTables, hdir0 hd, hdir0 hd', or_self, if_false, wp_bind, wp_pure]
  refine (wp_forNRet (CopyInv main w i i') (fun r s' => ∃ (k : Fin userPgdEntries) (s : State),
    r = -1 ∧ s' = s.exhaust ∧ CopyInv main w i i' k s ∧ w.view.entry (.table i k) ≠ none ∧
    ∀ n < pagingPages, s.memMap n ≠ 0) ?_
    ⟨hI, fun t k j => by simp [sharedTables, setMm], fun t k _ => rfl,
      fun k _ => hempty k, fun k hk => absurd hk (Nat.not_lt_zero _), fun _ => rfl,
      World.Keeps.refl w⟩).imp ?_
  · intro k s h
    have hread {t : Fin nrTasks} {p : Word} (hp : w.pgdir t = some p) :
        (w.setMm s).view.entry (.table t k) = entryAt s.mem p k := entries_table hp k
    have hparent : (w.setMm s).view.entry (.table i k) = w.view.entry (.table i k) := by
      by_cases hne : i = i'
      · subst hne
        rw [h.fresh k le_rfl, hempty k]
      · exact h.other i k hne
    rw [wp_bind, wp_readWord]
    by_cases hv : word s.mem d k &&& pteV = 0
    · rw [if_pos hv, wp_pure]
      have hnone := (hread hd).trans (entryAt_eq_none_iff.mpr hv)
      exact h.skip hnone (hparent.symm.trans hnone)
    · rw [if_neg hv, wp_bind, wp_readWord]
      have hfree : word s.mem d' k &&& pteV = 0 :=
        entryAt_eq_none_iff.mp ((hread hd').symm.trans (h.fresh k le_rfl))
      simp only [hfree, ne_eq, not_true_eq_false, if_false]
      rw [wp_bind]
      refine wp_getFreePage (fun hall => ?_) fun n hn hzero => ?_
      · refine wp_pure.mpr ⟨k, s, rfl, rfl, h, ?_, hall⟩
        rw [← hparent, hread hd]
        exact mt entryAt_eq_none_iff.mp hv
      · have hstep := h.wp_copyTable (E := E) hd' hempty
          ((hread hd).trans (validEntry_of_valid hv)) hn hzero
        simp only [frame_ne_zero hn, if_false, wp_bind, wp_pure] at hstep ⊢
        exact hstep
  · intro r s' hr
    cases r with
    | some r =>
      obtain ⟨k, s, rfl, rfl, hcopy, htable, hall⟩ := hr
      exact hfail k s hcopy htable hall
    | none => exact hok s' hr

end

end

end

end LinuxRv.Mm
