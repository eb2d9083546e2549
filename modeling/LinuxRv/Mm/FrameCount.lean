import LinuxRv.Mm.TableOps

/-!
Frame counts are exact in every reachable state.

The calls are those of `mm/memory.c` together with what their callers do to
pages: write data into one, and clear one they hold to make it a task's
directory. A call may be made in any order and with any arguments its callers can have: a page is freed
or mapped by somebody who holds it, mapped where nothing is mapped, and
un-write-protected where a write protected mapping is. The invariant of the
views is preserved by each, so it holds after any sequence of them, from the
state `mem_init` leaves.
-/

namespace LinuxRv.Mm

open ByteMemory Prog RefCount Function View.Inv

/-- Replace the bytes of a page. -/
def fillPage (page : Word) (bytes : ℕ → Byte) : M PUnit :=
  modify fun s => s.setMem (fillN 4096 s.mem page bytes)

inductive Call
  | getFreePage
  | freePage (page : Word)
  | writeData (page : Word) (bytes : ℕ → Byte)
  | newDirectory (i : Fin nrTasks) (page : Word)
  | putPage (i : Fin nrTasks) (page address : Word)
  | copyPageTables (i i' : Fin nrTasks)
  | unWpPage (i : Fin nrTasks) (k : Fin userPgdEntries) (j : Fin ptrsPerPage)
  | freePageTables (i : Fin nrTasks)

/-- What a caller has when it makes the call. -/
def Call.Enabled (w : World) : Call → Prop
  | .getFreePage => True
  | .freePage page => page ∈ w.held
  | .writeData page _ => w.DataFrame page
  | .newDirectory i page => w.pgdir i = none ∧ page ∈ w.held
  | .putPage i page a => w.pgdir i ≠ none ∧ page ∈ w.held ∧
      ∀ h, w.view.entry (userLeaf i a h) = none
  | .copyPageTables i i' => w.pgdir i ≠ none ∧ w.pgdir i' ≠ none ∧
      ∀ k, w.view.entry (.table i' k) = none
  | .unWpPage i k j => ∃ e, w.view.entry (.leaf i k j) = some e ∧ e &&& pteW = 0
  | .freePageTables i => w.pgdir i ≠ none

/-- A procedure of the memory manager, run in a world. -/
def liftMm {α : Type} (c : M α) : EStateM Halt World α := fun w =>
  match c w.mm with
  | .ok a s => .ok a (w.setMm s)
  | .error e s => .error e (w.setMm s)

/-- `task[i]->pgdir`, 0 if there is none. -/
def World.dirOf (w : World) (i : Fin nrTasks) : Word := (w.pgdir i).getD 0

/-- Make the call and record who holds what afterwards. -/
def Call.run : Call → EStateM Halt World PUnit
  | .getFreePage => do
      let page ← liftMm Mm.getFreePage
      if page ≠ 0 then
        modify fun w => w.setHeld (page ::ₘ w.held)
  | .freePage page => do
      liftMm (Mm.freePage page)
      modify fun w => w.setHeld (w.held.erase page)
  | .writeData page bytes => liftMm (fillPage page bytes)
  | .newDirectory i page => do
      -- `memset(page, 0, PAGE_SIZE)`
      liftMm (fillPage page fun _ => 0)
      modify fun w => ⟨w.mm, update w.pgdir i (some page), w.held.erase page⟩
  | .putPage i page a => do
      let w ← get
      let r ← liftMm (putPagePgdir (w.dirOf i) page a)
      if r ≠ 0 then
        modify fun w => w.setHeld (w.held.erase page)
  | .copyPageTables i i' => do
      let w ← get
      let _ ← liftMm (Mm.copyPageTables (w.dirOf i) (w.dirOf i'))
  | .unWpPage i k j => do
      let w ← get
      liftMm (Mm.unWpPage (ptePhys ((w.view.entry (.table i k)).getD 0)) j)
  | .freePageTables i => do
      let w ← get
      liftMm (Mm.freePageTables (w.dirOf i))
      modify fun w => { w with pgdir := update w.pgdir i none }

/-- Worlds after any sequence of calls. A call that ends in `do_exit` leaves
the world it left off in to the calls that follow. -/
inductive Reachable (main : MainMemory) : World → Prop
  | boot {s s' : State} (hrun : memInit main.startMem main.endMem s = .ok ⟨⟩ s') :
      Reachable main ⟨s', fun _ => none, 0⟩
  | call {w w' : World} (c : Call) (hw : Reachable main w) (hc : c.Enabled w)
      (hrun : c.run w = .ok ⟨⟩ w') : Reachable main w'
  | exit {w w' : World} {code : ℕ} (c : Call) (hw : Reachable main w) (hc : c.Enabled w)
      (hrun : c.run w = .error (.exit code) w') : Reachable main w'

section

variable {main : MainMemory} {w : World} {E : Halt → World → Prop} {page : Word} {i : Fin nrTasks}
  {s : State}

theorem wp_liftMm {α : Type} {c : M α} {Q : α → World → Prop} :
    wp (liftMm c) Q E w ↔ wp c (fun a s => Q a (w.setMm s)) (fun e s => E e (w.setMm s)) w.mm := by
  unfold wp liftMm
  cases c w.mm <;> rfl

/-- A world without references in which exactly main memory is free. -/
theorem inv_of_free (hfree : ∀ n, main.Has n → s.memMap n = 0)
    (hused : ∀ n < pagingPages, ¬ main.Has n → s.memMap n = used) :
    World.Inv main ⟨s, fun _ => none, 0⟩ := by
  let w₀ : World := ⟨s, fun _ => none, 0⟩
  have hentry (r : Ref) : w₀.view.entry r = none := by cases r <;> rfl
  have hrefs (f : Word) : w₀.view.refs f = 0 := by
    rw [View.refs, Nat.add_eq_zero_iff]
    refine ⟨?_, Multiset.count_zero f⟩
    by_contra hne
    obtain ⟨r, hr⟩ := occurrences_pos_iff.mp (Nat.pos_of_ne_zero hne)
    rw [View.target, hentry] at hr
    cases hr
  refine ⟨fun n hn => ?_, fun n hn hnot => ?_, fun f hf => ?_, fun r e he => ?_, fun f hf => ?_,
    fun r r' f hr => ?_, fun r r' _ hne => ?_, fun r e he => ?_⟩
  · exact (congrArg BitVec.toNat (hfree n hn)).trans (hrefs _).symm
  · rw [show w₀.view.memMap n = used from hused n hn hnot]
    decide
  · exact absurd (hrefs f) hf.ne'
  · exact absurd ((hentry r).symm.trans he) (by simp)
  · exact absurd hf (Multiset.notMem_zero f)
  · rw [View.target, hentry] at hr
    cases hr
  · exact absurd (hentry r) hne
  · exact absurd ((hentry r).symm.trans he) (by simp)

theorem boot_inv {s' : State} (hrun : memInit main.startMem main.endMem s = .ok ⟨⟩ s') :
    World.Inv main ⟨s', fun _ => none, 0⟩ := by
  obtain ⟨-, hfree, hused⟩ := (wp_memInit main (E := fun _ _ => True)).of_ok hrun
  exact inv_of_free hfree hused

theorem memInit_ok (main : MainMemory) (s : State) :
    ∃ s', memInit main.startMem main.endMem s = .ok ⟨⟩ s' := by
  have h := wp_memInit main (E := fun _ _ => False) (s := s)
  cases hrun : memInit main.startMem main.endMem s with
  | error e s' => exact ((wp_of_error hrun).mp h).elim
  | ok a s' => exact ⟨s', rfl⟩

theorem World.Inv.freePage_held (hI : w.Inv main) {E : Halt → State → Prop}
    (hheld : page ∈ w.held) :
    wp (freePage page) (fun _ s' => ((w.setMm s').setHeld (w.held.erase page)).Inv main ∧
      s'.mem = w.mm.mem ∧ s'.exhausted = w.mm.exhausted) E w.mm := by
  obtain ⟨n, hn, rfl⟩ := main_of_held hI hheld
  exact wp_freePage hn.lt (memMap_ne_zero hI hn (View.refs_pos_of_held hheld))
    ⟨release hI hn hheld, rfl, rfl⟩

/-- The bytes of a data frame are nobody's entries. -/
theorem World.Inv.entry_writeData (hI : w.Inv main) (hdata : w.DataFrame page) (bytes : ℕ → Byte) :
    entries w.pgdir (fillN 4096 w.mm.mem page bytes) = w.view.entry :=
  entries_congr (w := w) fun r e hpage he _ hj =>
    word_fillN (hI.isFrame_data hdata) (isFrame hI he) (hdata.2 r e hpage he) hj

theorem World.Inv.writeData (hI : w.Inv main) (hdata : w.DataFrame page) (bytes : ℕ → Byte) :
    (w.setMm (w.mm.setMem (fillN 4096 w.mm.mem page bytes))).Inv main := by
  refine (congrArg (View.Inv main) (?_ : view _ = w.view)).mpr hI
  ext1
  · exact hI.entry_writeData hdata bytes
  · rfl
  · rfl

/-- A cleared page as the directory of a task that has none. -/
theorem World.Inv.entry_newDirectory (hI : w.Inv main) (hnone : w.pgdir i = none)
    (hheld : page ∈ w.held) :
    entries (update w.pgdir i (some page)) (fillN 4096 w.mm.mem page fun _ => 0) =
      update w.view.entry (.dir i) (some page) := by
  rw [← hI.entry_writeData (hI.dataFrame_held hheld) fun _ => 0]
  refine entries_update_dir (fun k => ?_) ?_
  · simp [entries, hnone]
  · rintro d hd k hk
    rw [Option.some.injEq] at hd
    subst hd
    exact word_fillN_zero (hk.trans (by decide))

theorem World.Inv.newDirectory (hI : w.Inv main) (hnone : w.pgdir i = none)
    (hheld : page ∈ w.held) : World.Inv main ⟨w.mm.setMem (fillN 4096 w.mm.mem page fun _ => 0),
      update w.pgdir i (some page), w.held.erase page⟩ := by
  have hplace := place hI (r := .dir i) (e := page) hnone hheld trivial (fun r' hr' => by cases hr')
  refine (congrArg (View.Inv main) (?_ : view _ = _)).mpr hplace
  ext1
  · exact hI.entry_newDirectory hnone hheld
  · rfl
  · rfl

/-- The upper half of every directory is empty. -/
def World.Upper (w : World) : Prop :=
  ∀ i d k, w.pgdir i = some d → userPgdEntries ≤ k → k < ptrsPerPage → word w.mm.mem d k = 0

theorem World.Upper.of_keeps {w' : World} (hupper : w.Upper) (hkeeps : w.Keeps w'.mm.mem)
    (hpgdir : w'.pgdir = w.pgdir) : w'.Upper := by
  intro i d k hd hlow hk
  rw [hpgdir] at hd
  exact (hkeeps.upper i d k hd hlow hk).trans (hupper i d k hd hlow hk)

/-- A held page that is cleared and made the directory of a task. -/
theorem World.Inv.upper_newDirectory (hI : w.Inv main) (hupper : w.Upper) (hheld : page ∈ w.held)
    (held : Multiset Word) : World.Upper ⟨w.mm.setMem (fillN 4096 w.mm.mem page fun _ => 0),
      update w.pgdir i (some page), held⟩ := by
  intro i' d k hd hlow hk
  by_cases hi : i' = i
  · subst hi
    obtain rfl : page = d := by simpa using hd
    exact word_fillN_zero hk
  · have hd' : w.pgdir i' = some d := (update_of_ne hi _ w.pgdir).symm.trans hd
    have hne : d ≠ page := phys_ne_held hI (r := .dir i') hd' hheld
    refine (word_fillN (hI.isFrame_held hheld) (hI.isFrame_dir hd') hne hk).trans ?_
    exact hupper i' d k hd' hlow hk

theorem World.Inv.upper_writeData (hI : w.Inv main) (hupper : w.Upper) (hdata : w.DataFrame page)
    (bytes : ℕ → Byte) : (w.setMm (w.mm.setMem (fillN 4096 w.mm.mem page bytes))).Upper := by
  intro i d k hd hlow hk
  refine (word_fillN (hI.isFrame_data hdata) (hI.isFrame_dir hd) (hdata.2 (.dir i) d rfl hd)
    hk).trans ?_
  exact hupper i d k hd hlow hk

theorem World.pgdir_eq_dirOf (h : w.pgdir i ≠ none) : w.pgdir i = some (w.dirOf i) := by
  obtain ⟨d, hd⟩ := Option.ne_none_iff_exists'.mp h
  rw [dirOf, hd]
  rfl

/-- Every call keeps the invariant and writes in no upper half, and it stops only
in `do_exit`. -/
theorem Call.wp_run (hI : w.Inv main) (c : Call) (hc : c.Enabled w) :
    wp c.run (fun _ w' => w'.Inv main ∧ (w.Upper → w'.Upper))
      (fun e w' => e = .exit 11 ∧ w'.Inv main ∧ (w.Upper → w'.Upper)) w := by
  have hkeep {s' : State} (hkeeps : w.Keeps s'.mem) (held : Multiset Word) (hupper : w.Upper) :
      ((w.setMm s').setHeld held).Upper :=
    hupper.of_keeps hkeeps rfl
  cases c with
  | getFreePage =>
    simp only [run, wp_bind, wp_liftMm]
    refine wp_getFreePage (fun _ => wp_pure.mpr ⟨hI, id⟩) fun n hn hzero => ?_
    simp only [ne_eq, frame_ne_zero hn, not_false_eq_true, if_true, wp_modify]
    exact ⟨hI.alloc hn hzero, hkeep ((World.Keeps.refl w).fillN hI (hI.scratch_of_free hn hzero)) _⟩
  | freePage page =>
    simp only [run, wp_bind, wp_liftMm, wp_modify]
    exact (hI.freePage_held hc).imp fun _ s' h => ⟨h.1, hkeep (h.2.1 ▸ .refl w) _⟩
  | writeData page bytes =>
    simp only [run, wp_liftMm, fillPage, wp_modify]
    exact ⟨hI.writeData hc bytes, fun hupper => hI.upper_writeData hupper hc bytes⟩
  | newDirectory i page =>
    simp only [run, wp_bind, wp_liftMm, fillPage, wp_modify]
    exact ⟨hI.newDirectory hc.1 hc.2, fun hupper => hI.upper_newDirectory hupper hc.2 _⟩
  | putPage i page a =>
    obtain ⟨hi, hheld, hempty⟩ := hc
    simp only [run, wp_bind, wp_get, wp_liftMm]
    refine hI.wp_putPagePgdir (World.pgdir_eq_dirOf hi) hheld hempty
      (fun _ => wp_pure.mpr ⟨hI, id⟩) (fun _ _ => wp_pure.mpr ⟨hI, id⟩) ?_
    intro w' h hinv hpgdir hheld' _ hkeeps _
    have hworld : (w.setMm w'.mm).setHeld ((w.setMm w'.mm).held.erase page) = w' :=
      World.ext rfl hpgdir.symm hheld'.symm
    obtain ⟨n, hn, rfl⟩ := hI.isFrame_held hheld
    simp only [ne_eq, frame_ne_zero hn, not_false_eq_true, if_true, wp_modify]
    exact ⟨hworld ▸ hinv, hkeep hkeeps _⟩
  | copyPageTables i i' =>
    obtain ⟨hi, hi', hempty⟩ := hc
    simp only [run, wp_bind, wp_get, wp_liftMm, wp_pure]
    exact hI.wp_copyPageTables (World.pgdir_eq_dirOf hi) (World.pgdir_eq_dirOf hi') hempty
      (fun _ _ h _ _ => ⟨h.inv, hkeep h.keeps w.held⟩) fun _ h => ⟨h.inv, hkeep h.keeps w.held⟩
  | unWpPage i k j =>
    obtain ⟨e, he, -⟩ := hc
    obtain ⟨et, het⟩ := Option.ne_none_iff_exists'.mp
      (parent hI _ (.table i k) rfl (by rw [he]; simp))
    simp only [run, wp_bind, wp_get, wp_liftMm, het, Option.getD_some]
    refine hI.wp_unWpPage het he (fun w' h => ?_) ⟨rfl, hI, id⟩
    have hworld : w.setMm w'.mm = w' := World.ext rfl h.pgdir.symm h.held.symm
    exact ⟨hworld ▸ h.inv, hkeep h.keeps w.held⟩
  | freePageTables i =>
    simp only [run, wp_bind, wp_get, wp_liftMm, wp_modify]
    refine hI.wp_freePageTables (World.pgdir_eq_dirOf hc) fun w' hinv hpgdir hheld _ hkeeps _ _ => ?_
    have hworld : { w.setMm w'.mm with pgdir := update (w.setMm w'.mm).pgdir i none } =
        w' := World.ext rfl hpgdir.symm hheld.symm
    refine ⟨hworld ▸ hinv, fun hupper i' d k hd hlow hk => ?_⟩
    change update w.pgdir i none i' = some d at hd
    have hi : i' ≠ i := by
      rintro rfl
      rw [update_self] at hd
      cases hd
    have hd' : w.pgdir i' = some d := (update_of_ne hi _ w.pgdir).symm.trans hd
    exact (hkeeps.upper i' d k hd' hlow hk).trans (hupper i' d k hd' hlow hk)

theorem Reachable.inv (h : Reachable main w) : w.Inv main := by
  induction h with
  | boot hrun => exact boot_inv hrun
  | call c _ hc hrun ih => exact ((c.wp_run ih hc).of_ok hrun).1
  | exit c _ hc hrun ih => exact ((c.wp_run ih hc).of_error hrun).2.1

/-- In every reachable world: the count of a frame of main memory is the number
of its references; a page mapped writable has count 1; no call panics, so no
frame is freed that is free; a frame that `get_free_page` returns has no
reference, so it is not handed out twice; and no frame has more references than
there are address spaces, so the `unsigned char` cannot wrap. -/
theorem frame_counts_exact (h : Reachable main w) :
    (∀ n, main.Has n → (w.mm.memMap n).toNat = w.view.refs (frame n)) ∧
    (∀ i k j e, w.view.entry (.leaf i k j) = some e → e &&& pteW ≠ 0 →
      w.mm.memMap (mapNr (ptePhys e)) = 1) ∧
    (∀ c : Call, c.Enabled w → ∀ msg w', c.run w ≠ .error (.panic msg) w') ∧
    (∀ p s', getFreePage w.mm = .ok p s' → p ≠ 0 → w.view.refs p = 0) ∧
    (∀ f, w.view.refs f ≤ nrTasks) := by
  have hI := h.inv
  refine ⟨exact hI, fun i k j e he hw => ?_, fun c hc msg w' hrun => ?_,
    fun p s' hrun hp => ?_, refs_le hI⟩
  · have hone := exclusive hI _ _ he hw
    obtain ⟨n, hn, hphys⟩ := main_of_entry hI he
    rw [hphys, ← exact hI n hn] at hone
    rw [show ptePhys e = frame n from hphys, mapNr_frame hn.lt]
    exact BitVec.eq_of_toNat_eq hone
  · cases ((c.wp_run hI hc).of_error hrun).1
  · have hwp : wp getFreePage (fun p _ => p ≠ 0 → w.view.refs p = 0) (fun _ _ => True) w.mm :=
      wp_getFreePage (fun _ h0 => absurd rfl h0) fun n hn hzero _ => hI.refs_of_free hn hzero
    exact hwp.of_ok hrun hp

end

/-- RAM from `0x80400000` on. -/
def mainFrom4M : MainMemory where
  startMem := 0x80400000
  endMem := 0x88000000
  ramBase_le := by decide
  start_le_end := by decide
  end_le := by decide

/-- After a first `get_free_page` the counts are exact, with a page held. -/
theorem frame_counts_exact_first_page : ∃ w : World, w.held ≠ 0 ∧
    ∀ n, mainFrom4M.Has n → (w.mm.memMap n).toNat = w.view.refs (frame n) := by
  obtain ⟨s, hrun⟩ := memInit_ok mainFrom4M ⟨fun _ => 0, fun _ => 0, false⟩
  obtain ⟨-, hfree, -⟩ := (wp_memInit mainFrom4M (E := fun _ _ => True)).of_ok hrun
  have hwp : wp Call.getFreePage.run (fun _ w => w.held ≠ 0) (fun _ _ => False)
      ⟨s, fun _ => none, 0⟩ := by
    simp only [Call.run, wp_bind, wp_liftMm]
    refine wp_getFreePage (fun hall => ?_) fun n hn _ => ?_
    · exact absurd (hfree 1024 (by decide)) (hall 1024 (by decide))
    · simp only [ne_eq, frame_ne_zero hn, not_false_eq_true, if_true, wp_modify]
      change frame n ::ₘ (0 : Multiset Word) ≠ 0
      exact Multiset.cons_ne_zero
  cases hget : Call.getFreePage.run ⟨s, fun _ => none, 0⟩ with
  | error e w => exact ((wp_of_error hget).mp hwp).elim
  | ok a w =>
    exact ⟨w, (wp_of_ok hget).mp hwp,
      (frame_counts_exact (.call .getFreePage (.boot hrun) trivial hget)).1⟩

end LinuxRv.Mm
