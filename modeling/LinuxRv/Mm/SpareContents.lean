import LinuxRv.Mm.UserMemory

/-!
What the program of an address space under construction will see.

The new space is a function from addresses to bytes. Taking a frame and writing
to one that is not mapped yet leave it as it is, and mapping a page puts the
bytes of its frame at the addresses of the page, over those of a page that was
mapped there before.
-/

namespace LinuxRv.Mm

open ByteMemory Prog RefCount Function World.Inv View.Inv Multiset

/-- The view with a page at the address `a`. -/
def UserView.mapPage (V : UserView) (a : Word) (bytes : PageBytes) : UserView := fun b =>
  if b.toNat / 4096 = a.toNat / 4096 then some (bytes ⟨b.toNat % 4096, Nat.mod_lt _ (by decide)⟩)
  else V b

/-- The directory `d` besides `w₀` gives the view `V`, and the frames in `own`
are not mapped. -/
def Showing (main : MainMemory) (w₀ : World) (j : Fin nrTasks) (d : Word) (own : Multiset Word)
    (V : UserView) (s : State) : Prop :=
  ∃ (w : World) (lost : Multiset Word), w.mm = s ∧ w.pgdir j = some d ∧
    Beside main w₀ j (own + lost) w ∧ userByte s.mem d = V

section

variable {main : MainMemory} {w w' : World} {j : Fin nrTasks} {d : Word}

/-- Leaves with the same frames and the same bytes give the same view. -/
theorem World.Inv.userByte_congr (hI : w.Inv main) (hI' : w'.Inv main) (hd : w.pgdir j = some d)
    (hd' : w'.pgdir j = some d) (hentry : ∀ k l, w'.view.entry (.leaf j k l) =
      w.view.entry (.leaf j k l)) (hbytes : ∀ k l e, w.view.entry (.leaf j k l) = some e →
      SameBytes w.mm.mem w'.mm.mem (ptePhys e)) : userByte w'.mm.mem d = userByte w.mm.mem d := by
  funext b
  have hleaf : w'.leafAt j b = w.leafAt j b := by
    unfold leafAt
    split
    · exact hentry _ _
    · rfl
  rw [hI.userByte_eq hd, hI'.userByte_eq hd', physAddr, hleaf, physAddr]
  cases he : w.leafAt j b with
  | none => rfl
  | some e =>
    refine congrArg some ?_
    unfold leafAt at he
    split at he
    · exact hbytes _ _ e he _ (pageOffset_lt b)
    · cases he

variable {w₀ : World} {dir : Option Word} {page a : Word} {own : Multiset Word} {pages : Set ℕ}
  {s : State} {E : Halt → State → Prop}

theorem SpareSpace.showing (h : SpareSpace main w₀ j (some d) own pages s) :
    Showing main w₀ j d 0 (userByte s.mem d) s := by
  obtain ⟨w, hmm, hd, hw, -⟩ := h
  exact ⟨w, own, hmm, hd, by rwa [zero_add], rfl⟩

/-- Taking a frame changes no other one, and nothing of the view. -/
theorem SpareSpace.wp_getFreePage (h : SpareSpace main w₀ j dir own pages s) :
    wp getFreePage (fun page s' => (∀ q ∈ own, SameBytes s.mem s'.mem q) ∧
      (∀ a, main.Outside a → s'.mem a = s.mem a) ∧
      (∀ d, dir = some d → userByte s'.mem d = userByte s.mem d) ∧
      if page = 0 then SpareSpace main w₀ j dir own pages s' ∧ freeFrames s.memMap = 0
      else SpareSpace main w₀ j dir (page ::ₘ own) pages s' ∧
        (frameBytes s'.mem page = fun _ => 0) ∧
        freeFrames s'.memMap + 1 = freeFrames s.memMap) E s := by
  obtain ⟨w, rfl, hdir, hw, hpages⟩ := h
  refine Mm.wp_getFreePage (fun hall => ?_) fun n hn hzero => ?_
  · rw [if_pos rfl]
    exact ⟨fun _ _ _ _ => rfl, fun _ _ => rfl, fun _ _ => rfl,
      ⟨w.setMm w.mm.exhaust, rfl, hdir, hw.exhaust, hpages⟩, freeFrames_eq_zero_iff.mpr hall⟩
  · rw [if_neg (frame_ne_zero hn)]
    have hentry := hw.inv.entry_alloc hn hzero
    have hkeeps := (World.Keeps.refl w).fillN (f := fun _ => 0) hw.inv
      (hw.inv.scratch_of_free hn hzero)
    have hw' := hw.alloc hn hzero
    have hview (d : Word) (hd : w.pgdir j = some d) :
        userByte (w.alloc n).mm.mem d = userByte w.mm.mem d :=
      hw.inv.userByte_congr hw'.inv hd hd (fun k l => by rw [hentry])
        fun k l e he => hkeeps.data _ (hw.inv.dataFrame_leaf he)
    refine ⟨fun q hq => hkeeps.data q (hw.inv.dataFrame_held (hw.mem_held hq)), fun a ha => ?_,
      fun d hd => hview d (hdir.trans hd), ⟨w.alloc n, rfl, hdir, hw', fun k l => ?_⟩, ?_,
      freeFrames_take hn hzero (by decide)⟩
    · refine fillN_of_le (not_lt.mp fun hlt => ha.ne (hw.inv.has_of_free hn hzero) hlt ?_)
      rw [BitVec.ofNat_toNat, BitVec.setWidth_eq, BitVec.add_comm, BitVec.sub_add_cancel]
    · rw [hentry]
      exact hpages k l
    · exact funext fun o => fillN_apply_self o.isLt

/-- A frame that is not mapped is written. -/
theorem SpareSpace.write (h : SpareSpace main w₀ j dir own pages s) (hpage : page ∈ own) {μ : Mem}
    (hμ : ∀ q, IsFrame q → q ≠ page → SameBytes s.mem μ q) :
    SpareSpace main w₀ j dir own pages (s.setMem μ) ∧
      ∀ d, dir = some d → userByte μ d = userByte s.mem d := by
  obtain ⟨w, rfl, hdir, hw, hpages⟩ := h
  obtain ⟨hw', hentry⟩ := hw.write hpage hμ
  have hview (d : Word) (hd : w.pgdir j = some d) :
      userByte (w.setMm (w.mm.setMem μ)).mm.mem d = userByte w.mm.mem d :=
    hw.inv.userByte_congr hw'.inv hd hd (fun k l => by rw [hentry]) fun k l e he =>
      hμ _ (World.Inv.isFrame hw.inv he) (World.Inv.phys_ne_held hw.inv he (hw.mem_held hpage))
  refine ⟨⟨w.setMm (w.mm.setMem μ), rfl, hdir, hw', fun k l => ?_⟩,
    fun d hd => hview d (hdir.trans hd)⟩
  rw [hentry]
  exact hpages k l

/-- A page is mapped, over what there was before. One is lost exactly if it was
mapped there. -/
theorem SpareSpace.wp_putPage (h : SpareSpace main w₀ j (some d) (page ::ₘ own) pages s) :
    wp (putPagePgdir d page a) (fun r s' =>
      if r = 0 then SpareSpace main w₀ j (some d) (page ::ₘ own) pages s' ∧
        (a < userLimit → freeFrames s.memMap = 0)
      else (∀ q ∈ own, SameBytes s.mem s'.mem q) ∧ freeFrames s.memMap ≤ freeFrames s'.memMap + 1 ∧
        userByte s'.mem d = UserView.mapPage (userByte s.mem d) a (frameBytes s.mem page) ∧
        ∃ lost, (lost = 0 ↔ a.toNat / 4096 ∉ pages) ∧
          SpareSpace main w₀ j (some d) (lost + own) (insert (a.toNat / 4096) pages) s') E s := by
  obtain ⟨w, rfl, hd, hw, hpages⟩ := h
  obtain ⟨n, hn, hpage⟩ := main_of_held hw.inv (hw.mem_held (mem_cons_self ..))
  have hframes := wp_putPagePgdir_frames (d := d) (a := a) (E := E) (s := w.mm) hn.lt
  rw [← hpage] at hframes
  refine (wp_and hframes (hw.putPage (E := E) hd)).imp fun r s' ⟨⟨hfail, hfree⟩, w', hmm, hpgdir, h'⟩ => ?_
  subst hmm
  have hd' : w'.pgdir j = some d := by rw [hpgdir]; exact hd
  by_cases hr : r = 0
  · rw [if_pos hr] at h' ⊢
    refine ⟨⟨w', rfl, hd', h'.1, fun k l => ?_⟩, hfail hr⟩
    rw [h'.2]
    exact hpages k l
  rw [if_neg hr] at h' ⊢
  obtain ⟨hlim, hw', hkeeps, hentry⟩ := h'
  have hnr := pageNr_toNat hlim
  have hmem {q : Word} (hq : q ∈ page ::ₘ own) : SameBytes w.mm.mem w'.mm.mem q :=
    hkeeps.data q (hw.inv.dataFrame_held (hw.mem_held hq))
  refine ⟨fun q hq => hmem (mem_cons_of_mem hq), hfree, funext fun b => ?_,
    w.lost (userLeaf j a hlim), ?_, w', rfl, hd', hw', fun k l => ?_⟩
  · have hleaf {b : Word} (hb : b < userLimit) : w'.leafAt j b =
        update w.view.entry (userLeaf j a hlim) (some (physPpn page ||| pteUserRwx))
          (userLeaf j b hb) := by
      rw [World.leafAt, dif_pos hb]
      exact hentry _ (by simp [userLeaf, Ref.page])
    rw [hw'.inv.userByte_eq hd', World.physAddr, UserView.mapPage]
    by_cases hb : b.toNat / 4096 = a.toNat / 4096
    · have hphys : ptePhys (physPpn page ||| pteUserRwx) = page := by
        rw [hpage]
        exact ptePhys_frame hn.lt (by decide)
      rw [if_pos hb, w'.leafAt_eq hb, hleaf hlim, update_self, Option.map_some,
        Option.map_some, hphys, pageOffset_eq]
      exact congrArg some (hmem (mem_cons_self ..) _ (Nat.mod_lt _ (by decide)))
    · have hsame : w'.leafAt j b = w.leafAt j b := by
        by_cases hlim' : b < userLimit
        · rw [hleaf hlim', update_of_ne, World.leafAt, dif_pos hlim']
          intro heq
          rw [userLeaf, userLeaf, Ref.leaf.injEq] at heq
          rw [← hnr, ← pageNr_toNat hlim', heq.2.1, heq.2.2] at hb
          exact hb rfl
        · rw [World.leafAt, dif_neg hlim', World.leafAt, dif_neg hlim']
      rw [if_neg hb, hsame, hw.inv.userByte_eq hd, World.physAddr]
      cases he : w.leafAt j b with
      | none => rfl
      | some e =>
        exact congrArg some (hkeeps.data _ (hw.inv.dataFrame_leafAt he) _ (pageOffset_lt b))
  · rw [World.lost_eq_zero_iff, ← hnr, ← hpages, not_not]
    rfl
  · rw [hentry _ (by simp [Ref.page])]
    by_cases hleaf : Ref.leaf j k l = userLeaf j a hlim
    · rw [hleaf, update_self]
      simp only [userLeaf, Ref.leaf.injEq, true_and] at hleaf
      rw [hleaf.1, hleaf.2, hnr]
      exact iff_of_true (Option.some_ne_none _) (Set.mem_insert ..)
    · rw [update_of_ne hleaf, hpages k l, Set.mem_insert_iff, or_iff_right]
      intro hsame
      apply hleaf
      have hk := (pageNr a hlim).2.isLt
      have hl := l.isLt
      unfold ptrsPerPage at hk hl
      rw [← hnr] at hsame
      rw [userLeaf, Ref.leaf.injEq]
      exact ⟨rfl, Fin.ext (by omega), Fin.ext (by omega)⟩

/-- A new directory shows nothing. -/
theorem SpareSpace.wp_newDirectory (h : SpareSpace main w₀ j none (page ::ₘ own) ∅ s) :
    wp (fillPage page fun _ => 0) (fun _ s' => (∀ q ∈ own, SameBytes s.mem s'.mem q) ∧
      s'.memMap = s.memMap ∧ (userByte s'.mem page = fun _ => none) ∧
      SpareSpace main w₀ j (some page) own ∅ s') E s := by
  obtain ⟨w, rfl, hdir, hw, hpages⟩ := h
  have hheld := hw.mem_held (mem_cons_self page own)
  have hnew := hw.newDirectory hdir
  have hentry := hw.inv.entry_newDirectory hdir hheld
  rw [fillPage, wp_modify]
  refine ⟨fun q hq => ?_, rfl, funext fun b => ?_, ⟨_, rfl, update_self .., hnew, fun k l => ?_⟩⟩
  · refine sameBytes_fillN (hw.isFrame (mem_cons_self ..))
      (hw.isFrame (mem_cons_of_mem hq)) ?_ le_rfl
    rintro rfl
    have hone := held_exclusive hw.inv q hheld
    have htwo : 1 < (q ::ₘ own).count q := by
      rw [count_cons_self]
      exact Nat.succ_lt_succ (count_pos.mpr hq)
    have hle := hw.refs_le q
    omega
  · refine (hnew.inv.userByte_eq (update_self ..) b).trans ?_
    have hnone : World.leafAt ⟨w.mm.setMem (fillN 4096 w.mm.mem page fun _ => 0),
        update w.pgdir j (some page), w.held.erase page⟩ j b = none := by
      unfold World.leafAt
      split
      · next hlim =>
        have hne : userLeaf j b hlim ≠ .dir j := by simp [userLeaf]
        refine (congrFun hentry _).trans ((update_of_ne hne ..).trans ?_)
        exact not_not.mp (mt (hpages _ _).mp (Set.notMem_empty _))
      · rfl
    rw [World.physAddr, hnone]
    rfl
  · have hleaf := (congrFun hentry (.leaf j k l)).trans (update_of_ne (by simp) ..)
    rw [← hpages k l, ← hleaf]
    rfl

end

/-! ### One space alone -/

/-- Some of the entries, with the counts they have. -/
theorem View.Inv.restrict {main : MainMemory} {v : View} (h : v.Inv main)
    {entry : Ref → Option Word} (hsub : ∀ r e, entry r = some e → v.entry r = some e)
    (hparent : ∀ r r', r.parent = some r' → entry r ≠ none → entry r' ≠ none) :
    ∃ memMap, (View.mk entry 0 memMap).Inv main := by
  let v' (memMap : ℕ → Byte) : View := ⟨entry, 0, memMap⟩
  have hrefs (memMap memMap' : ℕ → Byte) (f : Word) : (v' memMap).refs f = (v' memMap').refs f := rfl
  have htarget {memMap : ℕ → Byte} {r : Ref} {f : Word} (hr : (v' memMap).target r = some f) :
      v.target r = some f := by
    obtain ⟨e, he, rfl⟩ := Option.map_eq_some_iff.mp hr
    exact View.target_of_entry (hsub r e he)
  have hle (memMap : ℕ → Byte) (f : Word) : (v' memMap).refs f ≤ v.refs f := by
    have hocc : occurrences (v' memMap).target f ≤ occurrences v.target f :=
      occurrences_mono fun r hr => htarget hr
    rw [View.refs, View.refs]
    have hzero : (v' memMap).held.count f = 0 := count_zero f
    omega
  refine ⟨fun n => if main.Has n then .ofNat 8 ((v' v.memMap).refs (frame n)) else v.memMap n,
    ⟨fun n hn => ?_, fun n hn hnot => ?_, fun f hf => h.main_of_refs f (hf.trans_le (hle _ f)),
      fun r e he hx => ?_, fun f hf => absurd hf (notMem_zero f), fun r r' f hr hr' =>
        h.same_page r r' f (htarget hr) (htarget hr'), hparent, fun r e he =>
        h.wellFormed r e (hsub r e he)⟩⟩
  · have hfit := (hle v.memMap (frame n)).trans (h.refs_le (frame n))
    have hlt : (v' v.memMap).refs (frame n) < 2 ^ 8 := hfit.trans_lt (by decide)
    show (if main.Has n then _ else _ : Byte).toNat = _
    rw [if_pos hn, BitVec.toNat_ofNat, Nat.mod_eq_of_lt hlt]
    exact hrefs ..
  · show (if main.Has n then _ else _ : Byte) ≠ 0
    rw [if_neg hnot]
    exact h.reserved n hn hnot
  · have hone := h.exclusive r e (hsub r e he) hx
    have hpos := View.refs_pos_of_entry (v := v' _) he
    exact le_antisymm ((hle _ _).trans hone.le) hpos

section

variable {main : MainMemory} {w : World} {i j : Fin nrTasks} {d p : Word} {μ : Mem}

/-- The entries of one task. -/
def View.only (v : View) (j : Fin nrTasks) : Ref → Option Word := fun r =>
  if r.slot = j then v.entry r else none

theorem View.only_of_slot (v : View) (j : Fin nrTasks) (r : Ref) (h : r.slot = j) :
    v.only j r = v.entry r :=
  if_pos h

theorem View.only_of_ne {v : View} {r : Ref} (h : r.slot ≠ j) : v.only j r = none :=
  if_neg h

/-- In other memory a directory has the same entries, if the frames of its
tables have the same bytes. -/
theorem World.entries_alone (hd : w.pgdir j = some d)
    (hsame : ∀ r e, w.view.entry r = some e → r.slot = j → r.page = none →
      SameBytes w.mm.mem μ (r.phys e)) :
    entries (fun i => if i = j then some d else none) μ = w.view.only j := by
  refine entries_eq_of (fun i => ?_) (fun i k => ?_) fun i k l => ?_
  · by_cases hi : i = j
    · subst hi
      rw [if_pos rfl]
      exact (w.view.only_of_slot i (.dir i) rfl).trans hd
    · rw [if_neg hi]
      exact View.only_of_ne (r := .dir i) hi
  · by_cases hi : i = j
    · subst hi
      have hdir : w.view.entry (.dir i) = some d := hd
      rw [w.view.only_of_slot i (.dir i) rfl, hdir]
      refine (w.view.only_of_slot i (.table i k) rfl).trans ((entries_table hd k).trans ?_)
      exact (entryAt_congr (word_of_sameBytes (hsame _ _ hdir rfl rfl)
        (k.isLt.trans (by decide)))).symm
    · rw [View.only_of_ne (r := .table i k) hi, View.only_of_ne (r := .dir i) hi]
      rfl
  · by_cases hi : i = j
    · subst hi
      refine (w.view.only_of_slot i (.leaf i k l) rfl).trans ?_
      rw [w.view.only_of_slot i (.table i k) rfl]
      cases he : w.view.entry (.table i k) with
      | none => exact entries_leaf_of_none he l
      | some e =>
        exact (entries_leaf he l).trans
          (entryAt_congr (word_of_sameBytes (hsame _ _ he rfl rfl) l.isLt)).symm
    · rw [View.only_of_ne (r := .leaf i k l) hi, View.only_of_ne (r := .table i k) hi]
      rfl

theorem View.Inv.only {v : View} (h : v.Inv main) (j : Fin nrTasks) :
    ∃ memMap, (View.mk (v.only j) 0 memMap).Inv main := by
  refine h.restrict (fun r e he => ?_) fun r r' hr hne => ?_
  · unfold View.only at he
    split at he
    · exact he
    · cases he
  · have hslot : r'.slot = r.slot := by cases r <;> cases hr <;> rfl
    unfold View.only at hne ⊢
    rw [hslot]
    split at hne
    · next hj =>
      rw [if_pos hj]
      exact h.parent r r' hr hne
    · exact absurd rfl hne

/-- The space of `d` does not depend on the directory of another task. -/
theorem World.Inv.ownSpace (hI : w.Inv main) (hd : w.pgdir j = some d)
    (hW : ∀ k l e, w.view.entry (.leaf j k l) = some e → e &&& pteW ≠ 0) (hp : w.pgdir i = some p)
    (hij : i ≠ j) (hμ : ∀ q, IsFrame q → q ≠ p → SameBytes w.mm.mem μ q) :
    OwnSpace main j d μ ∧ userByte μ d = userByte w.mm.mem d := by
  have hsame (r : Ref) (e : Word) (hr : w.view.entry r = some e) (hslot : r.slot = j) :
      SameBytes w.mm.mem μ (r.phys e) := by
    refine hμ _ (isFrame hI hr) ?_
    refine phys_ne hI (r := .dir i) (show w.view.entry (.dir i) = _ from hp) rfl hr ?_
    rintro rfl
    exact hij hslot
  obtain ⟨memMap, hinv⟩ := only hI j
  have hentry := World.entries_alone hd fun r e hr hslot _ => hsame r e hr hslot
  let w' : World := ⟨⟨μ, memMap, false⟩, fun i => if i = j then some d else none, 0⟩
  have hinv' : w'.Inv main := by
    rw [← hentry] at hinv
    exact hinv
  have hself : w'.pgdir j = some d := if_pos rfl
  have hleaf (k : Fin userPgdEntries) (l : Fin ptrsPerPage) :
      w'.view.entry (.leaf j k l) = w.view.entry (.leaf j k l) := by
    rw [World.view_entry]
    exact (congrFun hentry _).trans (w.view.only_of_slot j (.leaf j k l) rfl)
  have hview : userByte w'.mm.mem d = userByte w.mm.mem d :=
    hI.userByte_congr hinv' hd hself hleaf fun k l e he => hsame _ e he rfl
  exact ⟨⟨w', rfl, hinv', hself, fun k l e he => hW k l e ((hleaf k l).symm.trans he)⟩, hview⟩

/-! ### Giving up the old one -/

variable {s s' : State}

theorem wp_freePage_mem (q : Word) :
    wp (freePage q) (fun _ s' => s'.mem = s.mem) (fun _ _ => True) s := by
  unfold freePage
  refine wp_ite.mpr ⟨fun _ => wp_pure.mpr rfl, fun _ => wp_ite.mpr
    ⟨fun _ => wp_bind.mpr (wp_throw.mpr trivial), fun _ => ?_⟩⟩
  rw [wp_bind, wp_readCount]
  refine wp_ite.mpr ⟨fun _ => wp_bind.mpr (wp_throw.mpr trivial), fun _ => ?_⟩
  rw [wp_writeCount]
  rfl

theorem wp_freeLeaves_mem (pt : Word) :
    wp (freeLeaves pt) (fun _ s' => s'.mem = s.mem) (fun _ _ => True) s := by
  refine wp_forN (fun _ (s' : State) => s'.mem = s.mem) (fun i s' h => ?_) rfl
  rw [wp_bind, wp_readWord]
  refine wp_ite.mpr ⟨fun _ => wp_pure.mpr h, fun _ => ?_⟩
  exact (wp_freePage_mem _).imp fun _ _ h' => h'.trans h

/-- `free_page_tables` writes the directory only. -/
theorem wp_freePageTables_frames (hp : IsFrame p) : wp (freePageTables p)
    (fun _ s' => ∀ q, IsFrame q → q ≠ p → SameBytes s.mem s'.mem q) (fun _ _ => True) s := by
  have hp0 : p ≠ 0 := by
    obtain ⟨n, hn, rfl⟩ := hp
    exact frame_ne_zero hn
  rw [freePageTables, if_neg hp0, wp_bind]
  refine (wp_forN (fun _ (s' : State) => ∀ q, IsFrame q → q ≠ p → SameBytes s.mem s'.mem q)
    (fun i s' h => ?_) fun _ _ _ _ _ => rfl).imp fun _ s' h => ?_
  · rw [wp_bind, wp_readWord]
    refine wp_ite.mpr ⟨fun _ => wp_pure.mpr h, fun _ => ?_⟩
    refine (wp_freeLeaves_mem _).next fun _ s₁ h₁ => ?_
    refine (wp_freePage_mem _).next fun _ s₂ h₂ => wp_writeWord.mpr fun q hq hne o ho => ?_
    refine (setWord_apply hp hq hne (i.isLt.trans (by decide)) ho).trans ?_
    rw [h₂, h₁]
    exact h q hq hne o ho
  · refine (wp_freePage_mem _).imp fun _ s'' h' q hq hne o ho => ?_
    rw [h']
    exact h q hq hne o ho

/-- The space is left, whatever the counts are. -/
theorem Showing.wp_freeOld {w₀ : World} {own : Multiset Word} {V : UserView}
    (h : Showing main w₀ j d own V s) (hp : p ≠ 0 → ∃ i, w₀.pgdir i = some p)
    (hmem : s'.mem = s.mem) : wp (freePageTables p)
      (fun _ s'' => OwnSpace main j d s''.mem ∧ userByte s''.mem d = V) (fun _ _ => True) s' := by
  obtain ⟨w, lost, rfl, hd, hw, rfl⟩ := h
  by_cases h0 : p = 0
  · rw [freePageTables, if_pos h0, wp_pure, hmem]
    exact ⟨⟨w, rfl, hw.inv, hd, hw.writable⟩, rfl⟩
  · obtain ⟨i, hi⟩ := hp h0
    have hi' : w.pgdir i = some p := (hw.pgdir i (hw.ne_spare hi)).trans hi
    refine (wp_freePageTables_frames (isFrame_dir hw.inv hi')).imp fun _ s'' h => ?_
    rw [hmem] at h
    exact hw.inv.ownSpace hd hw.writable hi' (hw.ne_spare hi) h

end

end LinuxRv.Mm
