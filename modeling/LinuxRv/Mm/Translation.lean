import LinuxRv.Mm.UserAccess

/-!
The kernel's translation of a user address and the hart's.

`translate_user` follows a directory with shifts and masks of its own. The hart
follows the same words by the rules of Sv32: pointer or leaf, reserved
encodings, `U`, `A` and `D`. They agree on the directories the memory manager
builds because those have no entry in the upper half, pointers with `V` alone
and leaves with `R`, `U`, `A` and `D`.
-/

namespace LinuxRv.Mm

open ByteMemory Prog Function World

/-- The frame that a page mapped at `a` displaces. -/
def World.displaced (w : World) (i : Fin nrTasks) (a : Word) : Multiset Word :=
  if h : a < userLimit then w.lost (userLeaf i a h) else 0

/-- After `put_page_pgdir` has returned `r` in `s'`. A page that was mapped at the
address is still counted. -/
def World.remapped (w : World) (i : Fin nrTasks) (page a r : Word) (s' : State) : World :=
  if r = 0 then w.setMm s'
  else (w.setMm s').setHeld (w.displaced i a + w.held.erase page)

/-- Worlds after any sequence of calls, in which `put_page_pgdir` may also map a
page over a writable one, as `do_no_page` does. -/
inductive Formed (main : MainMemory) : World → Prop
  | boot {s s' : State} (hrun : memInit main.startMem main.endMem s = .ok ⟨⟩ s') :
      Formed main ⟨s', fun _ => none, 0⟩
  | call {w w' : World} (c : Call) (hw : Formed main w) (hc : c.Enabled w)
      (hrun : c.run w = .ok ⟨⟩ w') : Formed main w'
  | exit {w w' : World} {code : ℕ} (c : Call) (hw : Formed main w) (hc : c.Enabled w)
      (hrun : c.run w = .error (.exit code) w') : Formed main w'
  | remap {w : World} {i : Fin nrTasks} {d page a r : Word} {s' : State} (hw : Formed main w)
      (hd : w.pgdir i = some d) (hpage : page ∈ w.held)
      (hold : ∀ h e, w.view.entry (userLeaf i a h) = some e → e &&& pteW ≠ 0)
      (hrun : putPagePgdir d page a w.mm = .ok r s') : Formed main (w.remapped i page a r s')

section

variable {main : MainMemory} {w : World} {i : Fin nrTasks} {d : Word}

/-- `put_page_pgdir` over nothing or a writable page. -/
theorem World.Inv.wp_remapped (hI : w.Inv main) (hupper : w.Upper) (hd : w.pgdir i = some d)
    {page a : Word} (hpage : page ∈ w.held)
    (hold : ∀ h e, w.view.entry (userLeaf i a h) = some e → e &&& pteW ≠ 0) :
    wp (putPagePgdir d page a) (fun r s' => (w.remapped i page a r s').Inv main ∧
      (w.remapped i page a r s').Upper) (fun _ _ => False) w.mm := by
  refine hI.wp_putPagePgdir_over hd hpage hold (fun _ => ⟨hI, hupper⟩) (fun _ _ => ⟨hI, hupper⟩)
    fun w' h hinv hpgdir hheld _ hkeeps _ _ => ?_
  obtain ⟨n, hn, rfl⟩ := hI.isFrame_held hpage
  have hworld : w.remapped i (frame n) a (frame n) w'.mm = w' := by
    rw [World.remapped, if_neg (frame_ne_zero hn), World.displaced, dif_pos h, ← hheld]
    exact World.ext rfl hpgdir.symm rfl
  rw [hworld]
  exact ⟨hinv, hupper.of_keeps hkeeps hpgdir⟩

theorem Formed.inv (h : Formed main w) : w.Inv main ∧ w.Upper := by
  induction h with
  | boot hrun => exact ⟨boot_inv hrun, fun _ _ _ hd => nomatch hd⟩
  | call c _ hc hrun ih =>
    exact ((c.wp_run ih.1 hc).of_ok hrun).imp id fun h => h ih.2
  | exit c _ hc hrun ih =>
    exact ((c.wp_run ih.1 hc).of_error hrun).2.imp id fun h => h ih.2
  | remap _ hd hpage hold hrun ih => exact (ih.1.wp_remapped ih.2 hd hpage hold).of_ok hrun

/-- For every directory of every world the memory manager builds and every
address: `translate_user` returns a physical address if and only if the hart's
load succeeds with it, and -1 if and only if the load faults; and a store is
permitted if and only if the address is mapped with `W`. -/
theorem translation_agrees (h : Formed main w) (hd : w.pgdir i = some d) (a : Word) :
    (∀ pa, translateUser w.mm.mem d a = pa ∧ pa ≠ -1 ↔ walk w.mm.mem d .load a = .ok pa) ∧
    (translateUser w.mm.mem d a = -1 ↔ ∃ f, walk w.mm.mem d .load a = .error f) ∧
    ((∃ pa, walk w.mm.mem d .store a = .ok pa) ↔ ∃ e, w.leafAt i a = some e ∧ e &&& pteW ≠ 0) := by
  obtain ⟨hI, hupper⟩ := h.inv
  have hload := hI.walk_load_eq hupper hd a
  have htr := hI.translateUser_eq hd a
  have hstore := hI.walk_eq hupper hd .store a
  refine ⟨fun pa => ?_, ?_, ?_⟩
  · rw [htr, hload]
    cases hphys : w.physAddr i a with
    | none => simp [eq_comm]
    | some pa' =>
      have hne := hI.physAddr_ne hphys
      simp only [Option.getD_some, Except.ok.injEq]
      exact ⟨And.left, fun heq => ⟨heq, heq ▸ hne⟩⟩
  · rw [htr, hload]
    cases hphys : w.physAddr i a with
    | none => simp
    | some pa => simpa using hI.physAddr_ne hphys
  · rw [hstore]
    cases w.leafAt i a with
    | none => simp
    | some e =>
      by_cases hw : e &&& pteW = 0
      · simp [hw]
      · exact iff_of_true ⟨_, if_neg fun h => hw h.2⟩ ⟨e, rfl, hw⟩

/-- The entry and the frame through which the hart permits an access. -/
theorem Formed.exists_of_walk (h : Formed main w) (hd : w.pgdir i = some d) {kind : AccessKind}
    {a pa : Word} (hwalk : walk w.mm.mem d kind a = .ok pa) :
    ∃ hlt e n, w.view.entry (userLeaf i a hlt) = some e ∧ (kind = .store → e &&& pteW ≠ 0) ∧
      main.Has n ∧ ptePhys e = frame n ∧ pa = frame n + .ofNat 32 (pageOffset a) := by
  obtain ⟨hI, hupper⟩ := h.inv
  rw [hI.walk_eq hupper hd, leafAt] at hwalk
  by_cases hlt : a < userLimit
  · rw [dif_pos hlt] at hwalk
    cases he : w.view.entry (userLeaf i a hlt) with
    | none => simp [he] at hwalk
    | some e =>
      obtain ⟨n, hn, hphys⟩ := View.Inv.main_of_entry hI he
      simp only [he] at hwalk
      split at hwalk
      · cases hwalk
      · next hw =>
        exact ⟨hlt, e, n, he, fun hk hz => hw ⟨hk, hz⟩, hn, hphys, hphys ▸ (Except.ok.inj hwalk).symm⟩
  · simp [hlt] at hwalk

/-- What a user program can reach is in a frame of main memory that is no
directory, no table and no page the kernel holds; and a byte it can write is
reached by no other task. -/
theorem user_reaches_own_frames (h : Formed main w) (hd : w.pgdir i = some d) {kind : AccessKind}
    {a pa : Word} (hwalk : walk w.mm.mem d kind a = .ok pa) :
    ∃ n, main.Has n ∧ pa = frame n + .ofNat 32 (pageOffset a) ∧ frame n ∉ w.held ∧
      (∀ r e, r.page = none → w.view.entry r = some e → r.phys e ≠ frame n) ∧
      (kind = .store → ∀ j d' kind' a', w.pgdir j = some d' →
        walk w.mm.mem d' kind' a' = .ok pa → j = i) := by
  obtain ⟨hlt, e, n, he, hw, hn, hphys, rfl⟩ := h.exists_of_walk hd hwalk
  have hI := h.inv.1
  refine ⟨n, hn, rfl, fun hheld => hI.phys_ne_held he hheld hphys, ?_, ?_⟩
  · rw [← hphys]
    exact (hI.dataFrame_leaf he).2
  · intro hk j d' kind' a' hd' hwalk'
    obtain ⟨hlt', e', n', he', -, hn', hphys', hpa⟩ := h.exists_of_walk hd' hwalk'
    have hnn : n = n' := by
      have := pageOffset_lt a
      have := pageOffset_lt a'
      have := hn.lt
      have := hn'.lt
      rw [frame_offset, frame_offset, BitVec.add_right_inj] at hpa
      simp only [pagingPages] at *
      have := congrArg BitVec.toNat hpa
      simp only [BitVec.toNat_ofNat] at this
      omega
    have htarget : w.view.target (userLeaf j a' hlt') = some (ptePhys e) := by
      rw [View.target_of_entry he', userLeaf, Ref.phys, hphys', ← hnn, ← hphys]
    exact (Ref.leaf.inj (View.Inv.eq_of_exclusive hI he (hw hk) htarget)).1

/-- A call that cannot stop is made. -/
theorem Formed.exists_call {c : Call} {Q : World → Prop} (h : Formed main w) (hc : c.Enabled w)
    (hrun : wp c.run (fun _ w' => Q w') (fun _ _ => False) w) : ∃ w', Formed main w' ∧ Q w' := by
  cases hres : c.run w with
  | ok _ w' => exact ⟨w', .call c h hc hres, (wp_of_ok hres).mp hrun⟩
  | error _ w' => exact ((wp_of_error hres).mp hrun).elim

theorem Formed.exists_alloc (h : Formed main w) {m : ℕ} (hm : m < pagingPages)
    (hzero : w.mm.memMap m = 0) :
    ∃ n < pagingPages, w.mm.memMap n = 0 ∧ Formed main (w.alloc n) := by
  obtain ⟨w', hw', n, hn, hfree, rfl⟩ := h.exists_call (c := .getFreePage)
    (Q := fun w' => ∃ n < pagingPages, w.mm.memMap n = 0 ∧ w' = w.alloc n) trivial (by
      simp only [Call.run, wp_bind, wp_liftMm]
      refine wp_getFreePage (fun hall => absurd hzero (hall m hm)) fun n hn hfree => ?_
      simp only [ne_eq, frame_ne_zero hn, not_false_eq_true, if_true, wp_modify]
      exact ⟨n, hn, hfree, rfl⟩)
  exact ⟨n, hn, hfree, hw'⟩

end

theorem exists_other_frame (n n' : ℕ) : ∃ m, 1024 ≤ m ∧ m ≤ 1026 ∧ m ≠ n ∧ m ≠ n' := by
  rcases eq_or_ne 1024 n with rfl | h₁
  · rcases eq_or_ne 1025 n' with rfl | h₂
    · exact ⟨1026, by decide⟩
    · exact ⟨1025, by decide, by decide, by decide, h₂⟩
  · rcases eq_or_ne 1024 n' with rfl | h₂
    · rcases eq_or_ne 1025 n with rfl | h₃
      · exact ⟨1026, by decide⟩
      · exact ⟨1025, by decide, by decide, h₃, by decide⟩
    · exact ⟨1024, by decide, by decide, h₁, h₂⟩

/-- A directory is made for task 0 and a page mapped at 0. -/
theorem exists_formed_page : ∃ (w : World) (d : Word),
    Formed mainFrom4M w ∧ w.pgdir 0 = some d ∧ ∃ e, w.leafAt 0 0 = some e := by
  obtain ⟨s, hrun⟩ := memInit_ok mainFrom4M ⟨fun _ => 0, fun _ => 0, false⟩
  obtain ⟨-, hfree, -⟩ := (wp_memInit mainFrom4M (E := fun _ _ => True)).of_ok hrun
  -- three frames: the directory, the page and a table that `put_page_pgdir` takes
  have hfree (m : ℕ) (hlo : 1024 ≤ m) (hhi : m ≤ 1026) : s.memMap m = 0 :=
    hfree m (mainFrom4M_has hlo (lt_of_le_of_lt hhi (by decide)))
  obtain ⟨n, hn, hn0, h₁⟩ := (Formed.boot hrun).exists_alloc (m := 1024) (by decide)
    (hfree _ le_rfl (by decide))
  set w₁ := alloc ⟨s, fun _ => none, 0⟩ n
  have hheld : frame n ∈ w₁.held := (boot_inv hrun).fresh hn hn0 |>.mem_held
  obtain ⟨w₂, h₂, hdir, hcount, hentry⟩ := h₁.exists_call (c := .newDirectory 0 (frame n))
    (Q := fun w' => w'.pgdir 0 = some (frame n) ∧ w'.mm.memMap = update s.memMap n 1 ∧
      w'.view.entry = update w₁.view.entry (.dir 0) (some (frame n)))
    ⟨rfl, hheld⟩ (by
      simp only [Call.run, wp_bind, wp_liftMm, fillPage, wp_modify]
      exact ⟨update_self .., rfl, h₁.inv.1.entry_newDirectory rfl hheld⟩)
  have hempty (k : Fin userPgdEntries) (j : Fin ptrsPerPage) :
      w₂.view.entry (.leaf 0 k j) = none := by
    rw [hentry, update_of_ne (by simp)]
    rfl
  obtain ⟨m, hlo, hhi, hmn, -⟩ := exists_other_frame n n
  obtain ⟨n', hn', hzero', h₃⟩ := h₂.exists_alloc (m := m) (lt_of_le_of_lt hhi (by decide))
    (by rw [hcount, update_of_ne hmn]; exact hfree m hlo hhi)
  have hfresh := h₂.inv.1.fresh hn' hzero'
  have hdirOf : (w₂.alloc n').dirOf 0 = frame n := by
    rw [dirOf, show (w₂.alloc n').pgdir 0 = some (frame n) from hdir]
    rfl
  obtain ⟨w₄, h₄, hd, e, he⟩ := h₃.exists_call (c := .putPage 0 (frame n') 0)
    (Q := fun w' => w'.pgdir 0 = some (frame n) ∧ ∃ e, w'.leafAt 0 0 = some e)
    ⟨by rw [show (w₂.alloc n').pgdir 0 = some (frame n) from hdir]; simp, hfresh.mem_held,
      fun _ => (congrFun hfresh.entry _).trans (hempty _ _)⟩ (by
      simp only [Call.run, wp_bind, wp_get, wp_liftMm, hdirOf]
      refine h₃.inv.1.wp_putPagePgdir hdir hfresh.mem_held
        (fun _ => (congrFun hfresh.entry _).trans (hempty _ _))
        (fun hlim => absurd hlim (by decide)) (fun _ hall => ?_) fun w' h _ hpgdir _ hentry' _ _ => ?_
      · obtain ⟨m', hlo', hhi', hne, hne'⟩ := exists_other_frame n n'
        refine absurd ?_ (hall m' (lt_of_le_of_lt hhi' (by decide)))
        change update w₂.mm.memMap n' 1 m' = 0
        rw [update_of_ne hne', hcount, update_of_ne hne]
        exact hfree m' hlo' hhi'
      · simp only [ne_eq, frame_ne_zero hn', not_false_eq_true, if_true, wp_modify]
        refine ⟨hdir, physPpn (frame n') ||| pteUserRwx, ?_⟩
        have hself : w'.view.entry (userLeaf 0 0 h) = some (physPpn (frame n') ||| pteUserRwx) := by
          rw [hentry' _ (by simp [userLeaf, Ref.page]), update_self]
        rw [leafAt, dif_pos h, ← hself, view_entry, view_entry, hpgdir]
        rfl)
  exact ⟨w₄, frame n, h₄, hd, e, he⟩

theorem translation_agrees_first_page : ∃ (w : World) (d : Word),
    Formed mainFrom4M w ∧ w.pgdir 0 = some d ∧ (∃ e, w.leafAt 0 0 = some e) ∧
    ∀ pa, translateUser w.mm.mem d 0 = pa ∧ pa ≠ -1 ↔ walk w.mm.mem d .load 0 = .ok pa := by
  obtain ⟨w, d, h, hd, hmapped⟩ := exists_formed_page
  exact ⟨w, d, h, hd, hmapped, (translation_agrees h hd 0).1⟩

theorem user_reaches_own_frames_first_page : ∃ (w : World) (d pa : Word),
    Formed mainFrom4M w ∧ w.pgdir 0 = some d ∧ walk w.mm.mem d .load 0 = .ok pa ∧
    ∃ n, mainFrom4M.Has n ∧ pa = frame n + .ofNat 32 (pageOffset 0) ∧ frame n ∉ w.held := by
  obtain ⟨w, d, h, hd, e, he⟩ := exists_formed_page
  have hwalk := h.inv.1.walk_eq h.inv.2 hd .load 0
  simp only [he, reduceCtorEq, false_and, if_false] at hwalk
  obtain ⟨n, hn, hpa, hheld, -⟩ := user_reaches_own_frames h hd hwalk
  exact ⟨w, d, _, h, hd, hwalk, n, hn, hpa, hheld⟩

end LinuxRv.Mm
