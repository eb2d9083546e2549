import LinuxRv.Mm.DemandPaging

/-!
What a page fault does to a page that is mapped.

`page_fault_handler` looks at two bits of the entry. A valid entry without `W`
goes to `un_wp_page`. Every other goes to `do_no_page`, which maps a fresh page
of zeros over whatever is there and never looks at what it replaces: after a
fault on a writable page its bytes are gone, and the frame they are in stays
counted though nobody maps it.
-/

namespace LinuxRv.Mm

open ByteMemory Prog RefCount Function Option View.Inv

/-- Some task maps the frame at `f`. -/
def World.Maps (w : World) (f : Word) : Prop :=
  ∃ (i : Fin nrTasks) (p : PageNr), w.view.target (.leaf i p.1 p.2) = some f

/-- In `s'` every page of every task holds what it held in `w`, and a frame that
is no longer mapped has been freed. -/
structure Undamaged (w : World) (s' : State) : Prop where
  contents : (w.setMm s').contents = w.contents
  freed : ∀ n < pagingPages, w.Maps (frame n) → (w.setMm s').Maps (frame n) ∨ s'.memMap n = 0

section

variable {main : MainMemory} {w w' : World} {i : Fin nrTasks} {d a e : Word} {p : PageNr}

theorem Ref.exists_leaf_of_page {r : Ref} (h : r.page = some p) : ∃ i, r = .leaf i p.1 p.2 := by
  cases r with
  | dir i => cases h
  | table i k => cases h
  | leaf i k j =>
    obtain rfl : (k, j) = p := some.inj h
    exact ⟨i, rfl⟩

/-- `un_wp_page` keeps every page, and the frame it may take a copy of is mapped
elsewhere. -/
theorem Unprotected.undamaged (hI : w.Inv main) (he : w.view.entry (.leaf i p.1 p.2) = some e)
    (h : Unprotected main w (.leaf i p.1 p.2) e w') : Undamaged w w'.mm := by
  have hworld : w.setMm w'.mm = w' := World.ext rfl h.pgdir.symm h.held.symm
  obtain ⟨e', -, hentry, hbytes⟩ := h.entry
  have hother {r : Ref} (hr : r ≠ .leaf i p.1 p.2) : w'.view.target r = w.view.target r := by
    rw [View.target, View.target, hentry, update_of_ne hr]
  refine ⟨?_, fun n hn hmap => ?_⟩
  · rw [hworld]
    funext i' p'
    by_cases hself : (i', p') = (i, p)
    · obtain ⟨rfl, rfl⟩ := Prod.mk.inj hself
      have he' : w'.view.entry (.leaf i' p'.1 p'.2) = some e' := by
        rw [hentry, update_self]
      rw [World.contents_of_entry he, World.contents_of_entry he', some.injEq]
      exact funext fun o => hbytes o o.isLt
    · refine hI.contents_eq h.keeps ?_
      rw [← World.view_entry, hentry, update_of_ne (leaf_ne hself)]
  · rw [hworld]
    obtain ⟨i₀, p₀, hmap⟩ := hmap
    refine or_iff_not_imp_right.mpr fun hcount => ?_
    -- what still counts the frame is a mapping: it was one in `w` unless it is new
    obtain ⟨r, hr⟩ : ∃ r, w'.view.target r = some (frame n) := by
      obtain ⟨m, hm, heq⟩ := main_of_refs hI (frame n) (Nat.add_pos_left (occurrences_pos hmap) _)
      obtain rfl : n = m := frame_inj hn hm.lt heq
      have hrefs : (w'.mm.memMap n).toNat = w'.view.refs (frame n) := exact h.inv n hm
      have hheld : w'.held.count (frame n) = 0 := by
        rw [h.held]
        exact Multiset.count_eq_zero.mpr fun hmem => target_ne_held hI hmem _ hmap
      rw [View.refs, show w'.view.held.count (frame n) = 0 from hheld, Nat.add_zero] at hrefs
      refine occurrences_pos_iff.mp (hrefs ▸ Nat.pos_of_ne_zero fun hzero => hcount ?_)
      exact BitVec.eq_of_toNat_eq hzero
    by_cases hself : r = .leaf i p.1 p.2
    · exact ⟨i, p, hself ▸ hr⟩
    · have hpage := same_page hI r _ _ ((hother hself).symm.trans hr) hmap
      obtain ⟨i₁, rfl⟩ := Ref.exists_leaf_of_page hpage
      exact ⟨i₁, p₀, hr⟩

/-- A fresh page of zeros has been mapped over the entry `e` of page `p`, whose
frame is left to nobody. -/
structure Overwritten (main : MainMemory) (w : World) (i : Fin nrTasks) (p : PageNr) (e : Word)
    (w' : World) : Prop where
  inv : w'.Inv main
  pgdir : w'.pgdir = w.pgdir
  held : w'.held = ptePhys e ::ₘ w.held
  zeros : w'.contents i p = some fun _ => 0

/-- `do_no_page` at an address that is mapped writable. -/
theorem World.Inv.wp_doNoPage_over (hI : w.Inv main) (hd : w.pgdir i = some d) (h : a < userLimit)
    (he : w.view.entry (userLeaf i a h) = some e) (hw : e &&& pteW ≠ 0) {Q : PUnit → State → Prop}
    {E : Halt → State → Prop} (hok : ∀ n < pagingPages, w.mm.memMap n = 0 →
      ∀ w', Overwritten main w i (pageNr a h) e w' → Q ⟨⟩ w'.mm)
    (hexit : (∀ n < pagingPages, w.mm.memMap n ≠ 0) → E (.exit 11) w.mm.exhaust) :
    wp (doNoPage d (a &&& 0xfffff000)) Q E w.mm := by
  have h' := page_lt_userLimit h
  have hleaf := userLeaf_page i h h'
  rw [doNoPage, page_page, getEmptyPage, wp_bind]
  refine wp_getFreePage (fun hall => ?_) fun n hn hzero => ?_
  · simp only [if_true, freePage_zero, wp_bind, wp_pure, wp_throw]
    exact hexit hall
  · have hfresh := hI.fresh hn hzero
    have hmapped : (w.alloc n).view.entry (userLeaf i (a &&& 0xfffff000) h') = some e := by
      rw [hleaf]
      exact (congrFun hfresh.entry _).trans he
    simp only [frame_ne_zero hn, if_false, wp_bind]
    refine hfresh.inv.wp_putPagePgdir_over (w := w.alloc n) hd hfresh.mem_held
      (fun _ e' he' => ?_) (fun hlim => absurd h' (BitVec.not_lt.mpr hlim)) (fun hnone => ?_)
      fun w' _ hinv hpgdir hheld hentry hkeeps _ _ => ?_
    · obtain rfl : e = e' := some.inj (hmapped.symm.trans he')
      exact hw
    · have hleaf : (w.alloc n).view.entry (userLeaf i (a &&& 0xfffff000) h') = none :=
        entries_leaf_of_none (hnone h') _
      cases hmapped.symm.trans hleaf
    · simp only [frame_ne_zero hn, if_false, wp_pure]
      refine hok n hn hzero w' ⟨hinv, hpgdir, ?_, ?_⟩
      · rw [hheld, lost, hmapped, hfresh.held, Multiset.erase_cons_head]
        rfl
      · have hself : w'.view.entry (userLeaf i a h) = some (physPpn (frame n) ||| pteUserRwx) := by
          rw [← hleaf, hentry _ (.inl (by simp [userLeaf, Ref.page])), update_self]
        rw [contents_of_entry hself, ptePhys_frame hn (by decide), some.injEq]
        refine funext fun o => ?_
        exact (hkeeps.data _ (hfresh.inv.dataFrame_held hfresh.mem_held) o o.isLt).trans
          (fillN_apply_self o.isLt)

/-- The frame is counted and mapped by nobody. -/
theorem Overwritten.lost (h : Overwritten main w i p e w') {n : ℕ} (hn : n < pagingPages)
    (hphys : ptePhys e = frame n) : ¬ (w.setMm w'.mm).Maps (frame n) ∧ w'.mm.memMap n = 1 := by
  have hmem : frame n ∈ w'.held := by
    rw [h.held, ← hphys]
    exact Multiset.mem_cons_self _ _
  refine ⟨?_, ?_⟩
  · rintro ⟨i', p', hmap⟩
    refine target_ne_held h.inv hmem (.leaf i' p'.1 p'.2) ?_
    rw [← hmap, View.target, View.target, World.view_entry, World.view_entry, h.pgdir]
    rfl
  · obtain ⟨m, hm, heq⟩ := main_of_held h.inv hmem
    obtain rfl : n = m := frame_inj hn hm.lt heq
    have hone : w'.view.refs (frame n) = 1 := held_exclusive h.inv _ hmem
    exact BitVec.eq_of_toNat_eq ((exact h.inv n hm).trans hone)

theorem Overwritten.not_undamaged (hI : w.Inv main) (he : w.view.entry (.leaf i p.1 p.2) = some e)
    (h : Overwritten main w i p e w') : ¬ Undamaged w w'.mm := by
  intro hkept
  obtain ⟨n, hn, hphys⟩ := main_of_entry hI he
  obtain ⟨hgone, hcount⟩ := h.lost hn.lt hphys
  have hmaps : w.Maps (frame n) := ⟨i, p, by rw [View.target_of_entry he, hphys]⟩
  rcases hkept.freed n hn.lt hmaps with hmap | hzero
  · exact hgone hmap
  · exact absurd (hcount.symm.trans hzero) (by decide)

/-- For every page table, every fault that `trap_handler` sends to
`page_fault_handler` and every mapped user address: the task is ended, or its
pages keep their bytes and no frame is lost, if and only if the fault is not
from user mode, the page is write protected, or there is no free frame. -/
theorem page_fault_undamaged_iff (hI : w.Inv main) (hd : w.pgdir i = some d) (h : a < userLimit)
    (he : w.view.entry (userLeaf i a h) = some e) {cause : Word} (hcause : cause = 12 ∨ cause = 15)
    (timer ecall : M PUnit) (fromUser : Bool) :
    wp (trapHandler timer ecall fromUser d cause a) (fun _ s' => Undamaged w s')
        (fun halt _ => halt = .exit 11) w.mm ↔
      fromUser = false ∨ e &&& pteW = 0 ∨ ∀ n < pagingPages, w.mm.memMap n ≠ 0 := by
  have htrap : trapHandler timer ecall fromUser d cause a = pageFaultHandler fromUser d a := by
    rcases hcause with rfl | rfl <;> rfl
  rw [htrap]
  cases fromUser with
  | false => simp [pageFaultHandler]
  | true =>
    simp only [Bool.true_eq_false, false_or]
    by_cases hw : e &&& pteW = 0
    · refine iff_of_true ?_ (.inl hw)
      exact hI.wp_pageFaultHandler_of_protected hd h he hw (fun w' hw' => hw'.undamaged hI he) rfl
    by_cases hall : ∀ n < pagingPages, w.mm.memMap n ≠ 0
    · refine iff_of_true ?_ (.inr hall)
      refine hI.wp_pageFaultHandler_of_mapped hd h he (fun hw' => absurd hw' hw) fun _ => ?_
      exact hI.wp_doNoPage_over hd h he hw (fun n hn hzero => absurd hzero (hall n hn)) fun _ => rfl
    · refine iff_of_false (fun hkept => ?_) (not_or.mpr ⟨hw, hall⟩)
      have hover : wp (pageFaultHandler true d a) (fun _ s' => ¬ Undamaged w s')
          (fun _ _ => False) w.mm := by
        refine hI.wp_pageFaultHandler_of_mapped hd h he (fun hw' => absurd hw' hw) fun _ => ?_
        exact hI.wp_doNoPage_over hd h he hw
          (fun _ _ _ w' hw' => hw'.not_undamaged hI he) fun hall' => absurd hall' hall
      exact not_wp_false ((wp_and hover hkept).imp fun _ _ hboth => hboth.1 hboth.2)

end

/-! ### A page without `X` -/

/-- Task 0 with one page of its own at address 0, full of 42s, that is mapped as
`un_wp_page` maps a copy. -/
structure CopiedPage (w : World) : Prop where
  inv : w.Inv mainFrom4M
  dir : w.pgdir 0 = some (frame 1024)
  entry : w.view.entry (userLeaf 0 0 (by decide)) = some (physPpn (frame 1026) ||| pteUserRw)
  contents : w.contents 0 (0, 0) = some fun _ => 42
  free : w.mm.memMap 1027 = 0

theorem exists_copiedPage : ∃ w, CopiedPage w := by
  obtain ⟨w₀, h₀⟩ := exists_oneTable
  have hphys : ptePhys (physPpn (frame 1026) ||| pteUserRw) = frame 1026 :=
    ptePhys_frame (by decide) (by decide)
  obtain ⟨w₁, h₁, hdir⟩ := h₀.inv.exists_leaf (j := 0) h₀.upper (n := 1026) (by decide)
    (h₀.free _ le_rfl (by decide)) h₀.table (h₀.leaf _ _ _) hphys (physPpn_or_and (by decide))
  have he : w₁.view.entry (.leaf 0 0 0) = some (physPpn (frame 1026) ||| pteUserRw) := by
    rw [h₁.entry, update_self]
  have hdata : w₁.DataFrame (frame 1026) := hphys ▸ h₁.inv.dataFrame_leaf he
  refine ⟨w₁.setMm (w₁.mm.setMem (fillN 4096 w₁.mm.mem (frame 1026) fun _ => 42)),
    h₁.inv.writeData hdata _, hdir ▸ h₀.dir, ?_, ?_, ?_⟩
  · exact (congrFun (h₁.inv.entry_writeData hdata _) _).trans he
  · refine (h₁.inv.contents_writeData hdata _ 0 (0, 0)).trans ?_
    rw [he, map_some, hphys, if_pos rfl]
    rfl
  · change w₁.mm.memMap 1027 = 0
    rw [h₁.memMap, update_of_ne (by decide)]
    exact h₀.free _ (by decide) (by decide)

/-- Jumping into a copied page, which has lost its `X`, empties it and leaves its
frame counted and mapped by nobody. -/
theorem fetch_fault_empties_page : ∃ w : World, w.Inv mainFrom4M ∧ w.pgdir 0 = some (frame 1024) ∧
    w.view.entry (userLeaf 0 0 (by decide)) = some (physPpn (frame 1026) ||| pteUserRw) ∧
    (physPpn (frame 1026) ||| pteUserRw) &&& pteX = 0 ∧
    w.contents 0 (0, 0) = some (fun _ => 42) ∧ ∀ timer ecall,
      wp (trapHandler timer ecall true (frame 1024) 12 0)
        (fun _ s' => (w.setMm s').contents 0 (0, 0) = some (fun _ => 0) ∧
          ¬ (w.setMm s').Maps (frame 1026) ∧ s'.memMap 1026 = 1) (fun _ _ => False) w.mm := by
  obtain ⟨w, hw⟩ := exists_copiedPage
  have hphys : ptePhys (physPpn (frame 1026) ||| pteUserRw) = frame 1026 :=
    ptePhys_frame (by decide) (by decide)
  have hwritable : (physPpn (frame 1026) ||| pteUserRw) &&& pteW ≠ 0 := by
    rw [physPpn_or_and (by decide)]
    decide
  refine ⟨w, hw.inv, hw.dir, hw.entry, ?_, hw.contents, fun timer ecall => ?_⟩
  · exact physPpn_or_and (by decide)
  · change wp (pageFaultHandler true (frame 1024) 0) _ _ _
    refine hw.inv.wp_pageFaultHandler_of_mapped hw.dir (by decide) hw.entry
      (fun hzero => absurd hzero hwritable) fun _ => ?_
    refine hw.inv.wp_doNoPage_over hw.dir (by decide) hw.entry hwritable
      (fun n hn hzero w' hover => ⟨?_, hover.lost (by decide) hphys⟩)
      fun hall => hall 1027 (by decide) hw.free
    have hsame : (w.setMm w'.mm).contents = w'.contents := by
      rw [World.contents, World.contents, hover.pgdir]
      rfl
    rw [hsame]
    exact hover.zeros

/-- The same fault at a write protected page. -/
theorem fetch_fault_keeps_protected_page : ∃ (w : World) (e : Word),
    w.view.entry (userLeaf 0 0 (by decide)) = some e ∧ e &&& pteW = 0 ∧ ∀ timer ecall,
      wp (trapHandler timer ecall true (frame 1024) 12 0) (fun _ s' => Undamaged w s')
        (fun halt _ => halt = .exit 11) w.mm := by
  obtain ⟨w₀, h₀⟩ := exists_oneTable
  obtain ⟨w, hw, hdir⟩ := h₀.inv.exists_leaf (j := 0) (x := physPpn (frame 1026) ||| pteUserBits)
    h₀.upper (n := 1026) (by decide) (h₀.free _ le_rfl (by decide)) h₀.table (h₀.leaf _ _ _)
    (ptePhys_frame (by decide) (by decide)) (physPpn_or_and (by decide))
  have he : w.view.entry (userLeaf 0 0 (by decide)) = some (physPpn (frame 1026) ||| pteUserBits) := by
    rw [hw.entry]
    exact update_self ..
  have hprot : (physPpn (frame 1026) ||| pteUserBits) &&& pteW = 0 := physPpn_or_and (by decide)
  refine ⟨w, _, he, hprot, fun timer ecall => ?_⟩
  exact (page_fault_undamaged_iff hw.inv (hdir ▸ h₀.dir) (by decide) he (.inl rfl) timer ecall
    true).mpr (.inr (.inl hprot))

end LinuxRv.Mm
