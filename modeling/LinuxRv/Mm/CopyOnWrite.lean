import LinuxRv.Mm.Isolation

/-!
The running system simulates private memories.

`Sys.abstract` reads private memories out of the tasks' page tables. Each event
gives the output it gives on private memories and leaves a system whose reading
is what the event leaves of private memories, unless `get_free_page` has failed
on the way. The theorem about whole runs is an induction on the events.
-/

namespace LinuxRv.Mm

open ByteMemory Prog Function List Option World.Inv View.Inv Finset Multiset Sys

variable {task : Fin nrTasks → Option Word}

/-! ### Rules for the system's procedures -/

section

variable {α : Type} {E : Halt → Sys → Prop} {s : Sys}

theorem wp_kernel {c : M α} {Q : α → Sys → Prop} :
    wp (kernel c) Q E s ↔ wp c (fun a mm => Q a (s.setMm mm)) (fun e mm => E e (s.setMm mm)) s.mm := by
  unfold wp kernel
  cases c s.mm <;> rfl

theorem wp_orExit {nr : Fin nrTasks} {c : SysM Output} {Q : Output → Sys → Prop}
    (h : wp c Q (fun e s' => match e with
      | .exit _ => wp (kill nr) Q E s'
      | .panic msg => E (.panic msg) s') s) : wp (orExit nr c) Q E s := by
  unfold wp at h ⊢
  unfold orExit
  cases hc : c s with
  | ok o s' =>
    rw [hc] at h
    exact h
  | error e s' =>
    rw [hc] at h
    cases e with
    | exit code => exact h
    | panic msg => exact h

end

/-! ### The world of a system -/

/-- The pages of the task structures, which nobody else uses. -/
def taskPages (task : Fin nrTasks → Option Word) : Multiset Word :=
  univ.val.filterMap task

theorem taskPages_update {nr : Fin nrTasks} (hnone : task nr = none) (p : Word) :
    taskPages (update task nr (some p)) = p ::ₘ taskPages task := by
  have huniv : (univ : Finset (Fin nrTasks)).val =
      nr ::ₘ (univ : Finset (Fin nrTasks)).val.erase nr :=
    (cons_erase (mem_univ nr)).symm
  rw [taskPages, taskPages, huniv, filterMap_cons_none _ _ hnone, filterMap_cons_some _ _ _
    (update_self ..), filterMap_eq_bind, filterMap_eq_bind]
  refine congrArg (p ::ₘ ·) (bind_congr fun i hi => ?_)
  have hne : i ≠ nr := (Multiset.Nodup.mem_erase_iff univ.nodup).mp hi |>.1
  rw [update_of_ne hne]

/-- Giving back a task's page. -/
theorem taskPages_update_none {nr : Fin nrTasks} {p : Word} (hsome : task nr = some p) :
    taskPages task = p ::ₘ taskPages (update task nr none) := by
  rw [← taskPages_update (update_self ..), update_idem, ← hsome, update_eq_self]

def Sys.world (s : Sys) : World := ⟨s.mm, s.pgdir, taskPages s.task⟩

structure Sys.Inv (main : MainMemory) (s : Sys) : Prop where
  world : s.world.Inv main
  upper : s.world.Upper
  task_of_pgdir : ∀ nr, s.task nr = none → s.pgdir nr = none

/-- The private memories of the tasks. -/
def Sys.abstract (s : Sys) : Private where
  taken := s.taken
  space := fun nr => (s.pgdir nr).map fun _ => s.world.contents nr

/-- The output `o` and the next system `s'` are what private memories do, or a
frame was missing. -/
def Simulates (main : MainMemory) (s : Sys) (e : Event) (o : Output) (s' : Sys) : Prop :=
  s'.mm.exhausted = true ∨ s'.Inv main ∧ s.abstract.step e = (o, s'.abstract)

@[simp] theorem Sys.taken_abstract (s : Sys) : s.abstract.taken = s.taken := rfl

theorem Sys.space_abstract (s : Sys) (nr : Fin nrTasks) :
    s.abstract.space nr = (s.pgdir nr).map fun _ => s.world.contents nr := rfl

section

variable {main : MainMemory} {s s' : Sys} {nr : Fin nrTasks} {d : Word}

theorem Sys.space_of_some (hd : s.pgdir nr = some d) :
    s.abstract.space nr = some (s.world.contents nr) := by
  rw [space_abstract, hd, map_some]

theorem Sys.space_of_none (hd : s.pgdir nr = none) : s.abstract.space nr = none := by
  rw [space_abstract, hd, map_none]

/-- A system that differs in one address space only. -/
theorem Sys.abstract_eq_setSpace (htask : s'.task = s.task)
    (hpgdir : ∀ i, i ≠ nr → s'.pgdir i = s.pgdir i)
    (hcontents : ∀ i, i ≠ nr → s'.world.contents i = s.world.contents i) :
    s'.abstract = s.abstract.setSpace nr (s'.abstract.space nr) := by
  ext1
  · funext i
    simp only [taken_abstract, Private.taken_setSpace, taken, htask]
  · funext i
    rw [Private.space_setSpace]
    by_cases hi : i = nr
    · rw [hi, update_self]
    · rw [update_of_ne hi, space_abstract, space_abstract, hpgdir i hi, hcontents i hi]

/-! ### Events -/

variable {E : Halt → Sys → Prop} {n n' : ℕ} {w w' : World} {Q : PUnit → Sys → Prop}
  {i : Fin nrTasks} {mm : State}

/-- `do_exit` in any system whose world is in order. -/
theorem World.Inv.wp_doExit (hI : s.world.Inv main) (hd : s.pgdir nr = some d)
    (hQ : ∀ s' : Sys, s'.world.Inv main → s'.task = s.task → s'.pgdir = update s.pgdir nr none →
      (∀ i, i ≠ nr → s'.world.contents i = s.world.contents i) →
      s.world.Keeps s'.mm.mem → s'.mm.exhausted = s.mm.exhausted → Q ⟨⟩ s') :
    wp (doExit nr) Q E s := by
  simp only [doExit, wp_bind, wp_get, wp_kernel, wp_modify, hd, getD_some]
  refine wp_freePageTables (w := s.world) hI hd ?_
  intro w' hinv hpgdir hheld hentry hkeeps hflag _
  have hworld : ((s.setMm w'.mm).setPgdir nr none).world = w' :=
    World.ext rfl hpgdir.symm hheld.symm
  refine hQ _ (by rw [hworld]; exact hinv) rfl rfl (fun i hi => funext fun p => ?_) hkeeps hflag
  rw [hworld]
  refine hI.contents_eq hkeeps (congrArg _ ?_)
  exact hentry (.leaf i p.1 p.2) hi

theorem Sys.Inv.wp_doExit (hs : s.Inv main) (hd : s.pgdir nr = some d)
    (hQ : ∀ s' : Sys, s'.Inv main → s'.abstract = s.abstract.setSpace nr none → Q ⟨⟩ s') :
    wp (doExit nr) Q E s := by
  refine hs.world.wp_doExit hd fun s' hinv htask hpgdir hcontents hkeeps _ => ?_
  have hself : s'.pgdir nr = none := by rw [hpgdir, update_self]
  have hother (i : Fin nrTasks) (hi : i ≠ nr) : s'.pgdir i = s.pgdir i := by
    rw [hpgdir, update_of_ne hi]
  refine hQ s' ⟨hinv, fun i d k hdi hlow hk => ?_, fun i hi => ?_⟩ ?_
  · have hne : i ≠ nr := by
      rintro rfl
      rw [show s'.world.pgdir i = s'.pgdir i from rfl, hself] at hdi
      cases hdi
    have hdi' : s.world.pgdir i = some d := (hother i hne).symm.trans hdi
    exact (hkeeps.upper i d k hdi' hlow hk).trans (hs.upper i d k hdi' hlow hk)
  · by_cases hne : i = nr
    · rw [hne]
      exact hself
    · rw [hother i hne]
      exact hs.task_of_pgdir i (htask ▸ hi)
  · rw [abstract_eq_setSpace htask hother hcontents, space_of_none hself]

/-- The task is killed by an event that kills it on private memories. -/
theorem Sys.Inv.wp_kill (hs : s.Inv main) (hd : s.pgdir nr = some d) {e : Event}
    (he : s.abstract.step e = (.killed, s.abstract.setSpace nr none)) :
    wp (kill nr) (Simulates main s e) E s := by
  simp only [kill, wp_bind, wp_pure]
  exact hs.wp_doExit hd fun s' hs' habs => .inr ⟨hs', by rw [he, habs]⟩

theorem Sys.Inv.wp_exit (hs : s.Inv main) : wp (exit nr) (Simulates main s (.exit nr)) E s := by
  simp only [exit, wp_bind, wp_get]
  cases hd : s.pgdir nr with
  | none =>
    refine wp_pure.mpr (.inr ⟨hs, ?_⟩)
    simp only [Private.step, space_of_none hd]
  | some d =>
    simp only [wp_bind, wp_pure]
    refine hs.wp_doExit hd fun s' hs' habs => .inr ⟨hs', ?_⟩
    simp only [Private.step, space_of_some hd, habs]

/-- What a task has at an address. -/
theorem World.contents_leafAt (w : World) (i : Fin nrTasks) (a : Word) :
    (if h : a < userLimit then w.contents i (pageNr a h) else none) =
      (w.leafAt i a).map fun e => frameBytes w.mm.mem (ptePhys e) := by
  by_cases h : a < userLimit
  · rw [dif_pos h, leafAt, dif_pos h]
    rfl
  · rw [dif_neg h, leafAt, dif_neg h]
    rfl

theorem frameBytes_read (μ : Mem) (q : Word) (acc : Access) :
    (frameBytes μ q).read acc = ofFn fun k : Fin acc.len =>
      μ (q + .ofNat 32 (pageOffset acc.address) + .ofNat 32 k) := by
  refine congrArg ofFn (funext fun k => ?_)
  rw [offset_add]
  rfl

theorem Sys.Inv.wp_load (hs : s.Inv main) (acc : Access) :
    wp (load nr acc) (Simulates main s (.load nr acc)) E s := by
  simp only [load, wp_bind, wp_get]
  cases hd : s.pgdir nr with
  | none =>
    refine wp_pure.mpr (.inr ⟨hs, ?_⟩)
    simp only [Private.step, space_of_none hd]
  | some d =>
    dsimp only
    have hwalk := hs.world.walk_eq hs.upper hd .load acc.address
    have hspec := s.world.contents_leafAt nr acc.address
    cases hleaf : s.world.leafAt nr acc.address with
    | none =>
      rw [hleaf] at hwalk hspec
      rw [show walk s.mm.mem d .load acc.address = .error .page from hwalk]
      refine hs.wp_kill hd ?_
      simp only [Private.step, space_of_some hd, hspec, map_none]
    | some e =>
      rw [hleaf] at hwalk hspec
      simp only [reduceCtorEq, false_and, if_false] at hwalk
      rw [show walk s.mm.mem d .load acc.address = _ from hwalk]
      refine wp_pure.mpr (.inr ⟨hs, ?_⟩)
      simp only [Private.step, space_of_some hd, hspec, map_some, frameBytes_read]
      rfl

/-- A page of task `nr` has changed, in the system and on private memories. -/
theorem Mapped.abstract {p : PageNr} {bytes : PageBytes} (hs : s.Inv main)
    (hd : s.pgdir nr = some d) (h : Mapped main s.world nr p bytes w') :
    (s.setMm w'.mm).Inv main ∧ (s.setMm w'.mm).abstract = s.abstract.setSpace nr
      (some (update (s.world.contents nr) p (some bytes))) := by
  have hworld : (s.setMm w'.mm).world = w' := World.ext rfl h.pgdir.symm h.held.symm
  refine ⟨⟨by rw [hworld]; exact h.inv, by rw [hworld]; exact h.upper, hs.task_of_pgdir⟩, ?_⟩
  have hothers (i : Fin nrTasks) (hi : i ≠ nr) :
      (s.setMm w'.mm).world.contents i = s.world.contents i := by
    rw [hworld]
    exact funext fun q => h.other i q fun heq => hi (congrArg Prod.fst heq)
  have hself : w'.contents nr = update (s.world.contents nr) p (some bytes) := by
    funext q
    by_cases hq : q = p
    · rw [hq, update_self, h.self]
    · rw [update_of_ne hq, h.other nr q fun heq => hq (congrArg Prod.snd heq)]
  have hspace : (s.setMm w'.mm).abstract.space nr = some (w'.contents nr) := by
    rw [space_of_some (s := s.setMm w'.mm) hd, hworld]
  rw [← hself, ← hspace]
  exact abstract_eq_setSpace rfl (fun i _ => rfl) hothers

/-- The store, executed when the page can be written. -/
theorem Sys.Inv.wp_writeBytes {acc : Access} (bytes : ℕ → Byte) (hs : s.Inv main)
    (hd : s.pgdir nr = some d) (h : acc.address < userLimit)
    (hw : Mapped main s.world nr (pageNr acc.address h)
      (s.world.bytesAt nr (pageNr acc.address h)) w') : wp (do
      match walk (← get).mm.mem d .store acc.address with
      | .ok pa =>
        kernel (writeBytes pa acc.len bytes)
        return .done
      | .error _ => return .refaulted)
      (Simulates main s (.store nr acc bytes)) E (s.setMm w'.mm) := by
  obtain ⟨e, he, hbit⟩ := hw.entry
  have hd' : w'.pgdir nr = some d := by rw [hw.pgdir]; exact hd
  have hwalk := hw.inv.walk_eq hw.upper hd' .store acc.address
  rw [World.leafAt, dif_pos h, userLeaf, he] at hwalk
  simp only [hbit, and_false, if_false] at hwalk
  have hmem : (s.setMm w'.mm).mm.mem = w'.mm.mem := rfl
  rw [wp_bind, wp_get, hmem, hwalk]
  simp only [wp_bind, wp_kernel, writeBytes, wp_modify, wp_pure]
  obtain ⟨hinv, habs⟩ := (hw.write acc bytes he hbit rfl).abstract hs hd
  refine .inr ⟨hinv, ?_⟩
  simp only [Private.step, space_of_some hd, dif_pos h]
  exact congrArg (Prod.mk _) habs.symm

theorem Sys.Inv.wp_store (hs : s.Inv main) (acc : Access) (bytes : ℕ → Byte) :
    wp (store nr acc bytes) (Simulates main s (.store nr acc bytes)) (fun _ _ => False) s := by
  simp only [store, wp_bind, wp_get]
  cases hd : s.pgdir nr with
  | none =>
    refine wp_pure.mpr (.inr ⟨hs, ?_⟩)
    simp only [Private.step, space_of_none hd]
  | some d =>
    dsimp only
    have hwalk : walk s.mm.mem d .store acc.address = _ :=
      hs.world.walk_eq hs.upper hd .store acc.address
    by_cases h : acc.address < userLimit
    · have hleafAt : s.world.leafAt nr acc.address =
          s.world.view.entry (userLeaf nr acc.address h) := dif_pos h
      by_cases hprot : ∀ e, s.world.view.entry (userLeaf nr acc.address h) = some e → e &&& pteW = 0
      · -- not mapped, or write protected
        have hfault : walk s.mm.mem d .store acc.address = .error .page := by
          rw [hwalk, hleafAt]
          cases he : s.world.view.entry (userLeaf nr acc.address h) with
          | none => rfl
          | some e => exact if_pos ⟨rfl, hprot e he⟩
        rw [hfault]
        refine wp_orExit (wp_bind.mpr (wp_kernel.mpr ?_))
        refine hs.world.wp_pageFaultHandler hs.upper hd h hprot
          (fun w' hw => hs.wp_writeBytes bytes hd h hw) fun mm hinv hflag => ?_
        simp only [kill, wp_bind, wp_pure]
        refine World.Inv.wp_doExit (s := s.setMm mm) hinv hd ?_
        intro s' _ _ _ _ _ hflag'
        exact .inl (hflag'.trans hflag)
      · push Not at hprot
        obtain ⟨e, he, hbit⟩ := hprot
        have hw := hs.wp_writeBytes bytes (E := fun _ _ => False) hd h
          (Mapped.refl hs.world hs.upper he hbit)
        rw [wp_bind, wp_get] at hw
        rw [hleafAt, he] at hwalk
        simp only [hbit, and_false, if_false] at hwalk
        have hsame : s.setMm s.world.mm = s := rfl
        rw [hsame, hwalk] at hw
        rw [hwalk]
        exact hw
    · have hfault : walk s.mm.mem d .store acc.address = .error .page := by
        rw [hwalk, World.leafAt, dif_neg h]
      rw [hfault]
      have hlim : userLimit ≤ acc.address := BitVec.not_lt.mp h
      refine wp_orExit ?_
      simp only [wp_bind, wp_kernel, pageFaultHandler, hlim, or_true, if_true, wp_throw]
      refine hs.wp_kill hd ?_
      simp only [Private.step, space_of_some hd, dif_neg h]

theorem Sys.Inv.wp_release (hs : s.Inv main) :
    wp (release nr) (Simulates main s (.release nr)) E s := by
  simp only [release, wp_bind, wp_get]
  cases htask : s.task nr with
  | none =>
    refine wp_pure.mpr (.inr ⟨hs, ?_⟩)
    simp [Private.step, taken, htask]
  | some p =>
    cases hd : s.pgdir nr with
    | some d =>
      refine wp_pure.mpr (.inr ⟨hs, ?_⟩)
      simp [Private.step, space_of_some hd]
    | none =>
      simp only [wp_bind, wp_modify, wp_kernel, wp_pure]
      have hpages := taskPages_update_none htask
      have hheld : p ∈ s.world.held := by
        rw [show s.world.held = taskPages s.task from rfl, hpages]
        exact Multiset.mem_cons_self _ _
      refine (hs.world.freePage_held hheld).imp ?_
      rintro _ mm ⟨hinv, hmem, -⟩
      have herase : s.world.held.erase p = taskPages (update s.task nr none) := by
        rw [show s.world.held = taskPages s.task from rfl, hpages, Multiset.erase_cons_head]
      rw [herase] at hinv
      refine .inr ⟨⟨hinv, fun i d k hdi => ?_, fun i hi => ?_⟩, ?_⟩
      · rw [show ((s.setTask nr none).setMm mm).world.mm.mem = s.world.mm.mem from hmem]
        exact hs.upper i d k hdi
      · by_cases hne : i = nr
        · rw [hne]
          exact hd
        · exact hs.task_of_pgdir i ((update_of_ne hne _ _).symm.trans hi)
      · have hzombie : s.abstract.taken nr = true ∧ (s.abstract.space nr).isNone = true := by
          rw [space_of_none hd, taken_abstract, taken, htask]
          exact ⟨rfl, rfl⟩
        rw [Private.step, if_pos hzombie]
        refine congrArg (Prod.mk _) (Private.ext (funext fun i => ?_) (funext fun i => ?_))
        · by_cases hne : i = nr
          · simp [hne, taken, setTask, setMm]
          · simp [hne, taken, setTask, setMm]
        · have hcontents : ((s.setTask nr none).setMm mm).world.contents = s.world.contents :=
            congrArg (contents s.pgdir) hmem
          rw [space_abstract, space_abstract, hcontents]
          rfl

theorem Sys.Inv.wp_kernelWrite (hs : s.Inv main) (bytes : ℕ → Byte) :
    wp (kernelWrite nr bytes) (Simulates main s (.kernelWrite nr bytes)) E s := by
  simp only [kernelWrite, wp_bind, wp_get]
  cases htask : s.task nr with
  | none => exact wp_pure.mpr (.inr ⟨hs, rfl⟩)
  | some p =>
    simp only [wp_bind, wp_kernel, fillPage, wp_modify, wp_pure]
    have hheld : p ∈ s.world.held := by
      rw [show s.world.held = taskPages s.task from rfl, taskPages_update_none htask]
      exact mem_cons_self _ _
    have hdata := hs.world.dataFrame_held hheld
    refine .inr ⟨⟨hs.world.writeData hdata bytes, fun i d k hd hlow hk => ?_, hs.task_of_pgdir⟩, ?_⟩
    · refine (word_fillN (hs.world.isFrame_data hdata) (isFrame_dir hs.world hd)
        (hdata.2 (.dir i) d rfl hd) hk).trans ?_
      exact hs.upper i d k hd hlow hk
    · refine congrArg (Prod.mk _) (Private.ext rfl (funext fun i => ?_))
      refine congrArg (fun c => (s.pgdir i).map fun _ => c) (funext fun q => ?_)
      refine ((hs.world.contents_writeData hdata bytes i q).trans (if_neg fun hphys => ?_)).symm
      obtain ⟨e, he, hphys⟩ := map_eq_some_iff.mp hphys
      exact phys_ne_held hs.world he hheld hphys

/-! ### Loading a page -/

theorem World.Inv.wp_isMapped {a : Word} {Q : Bool → State → Prop} {E : Halt → State → Prop}
    (hI : w.Inv main) (hupper : w.Upper) (hd : w.pgdir i = some d)
    (hQ : Q (w.leafAt i a).isSome w.mm) : wp (isMapped d a) Q E w.mm := by
  rw [isMapped, wp_bind]
  by_cases h : a < userLimit
  · rw [leafAt, dif_pos h] at hQ
    refine hI.wp_pteLookup hd h (fun hnone => ?_) fun et het => ?_
    · rw [show w.view.entry (userLeaf i a h) = none from entries_leaf_of_none hnone _] at hQ
      exact wp_pure.mpr hQ
    · rw [show w.view.entry (userLeaf i a h) = entryAt w.mm.mem (ptePhys et) (tableIndex a) from
        entries_leaf het _, entryAt, validEntry] at hQ
      simp only [wp_bind, wp_readWord, wp_pure]
      by_cases hv : word w.mm.mem (ptePhys et) (tableIndex a) &&& pteV = 0
      · rw [if_pos hv] at hQ
        rw [decide_eq_false fun hne => hne hv]
        exact hQ
      · rw [if_neg hv] at hQ
        rw [decide_eq_true hv]
        exact hQ
  · obtain ⟨n, hn, rfl⟩ := hI.isFrame_dir hd
    have hzero : word w.mm.mem (frame n) (dirIndex a) = 0 :=
      hupper i _ _ hd (userPgdEntries_le_dirIndex h) (dirIndex_lt_ptrsPerPage a)
    have hV : (0 : Word) &&& pteV = 0 := rfl
    simp only [pteLookup, frame_ne_zero hn, if_false, wp_bind, wp_readWord, hzero, hV, if_true,
      wp_pure]
    rw [leafAt, dif_neg h] at hQ
    exact hQ

theorem Sys.Inv.wp_loadPage (hs : s.Inv main) (a : Word) (bytes : ℕ → Byte) :
    wp (loadPage nr a bytes) (Simulates main s (.loadPage nr a bytes)) E s := by
  simp only [loadPage, wp_bind, wp_get]
  cases hd : s.pgdir nr with
  | none =>
    refine wp_pure.mpr (.inr ⟨hs, ?_⟩)
    simp only [Private.step, space_of_none hd]
  | some d =>
    simp only [wp_bind, wp_kernel]
    refine hs.world.wp_isMapped hs.upper hd ?_
    have hspec := s.world.contents_leafAt nr a
    cases hleaf : s.world.leafAt nr a with
    | some e =>
      have h : a < userLimit := by
        by_contra h
        rw [World.leafAt, dif_neg h] at hleaf
        cases hleaf
      rw [hleaf, dif_pos h, map_some] at hspec
      refine wp_pure.mpr (.inr ⟨hs, ?_⟩)
      simp only [Private.step, space_of_some hd, dif_pos h, hspec, reduceCtorEq, if_false]
      rfl
    | none =>
      have hempty (h : a < userLimit) : s.world.view.entry (userLeaf nr a h) = none := by
        rw [World.leafAt, dif_pos h] at hleaf
        exact hleaf
      simp only [isSome_none, Bool.false_eq_true, if_false, wp_bind, wp_kernel]
      refine wp_getFreePage (fun _ => wp_pure.mpr (.inl rfl)) fun n hn hzero => ?_
      have hscratch := hs.world.scratch_of_free hn hzero
      have hfresh := (hs.world.fresh hn hzero).fill hs.world hscratch bytes
      simp only [frame_ne_zero hn, if_false, wp_bind, wp_kernel, fillPage, wp_modify]
      refine hfresh.wp_putPagePgdir hs.world hs.upper hd hempty (fun hlim => ?_) ?_
        fun w' h hmapped _ => ?_
      · -- beyond the user's addresses
        simp only [if_true, wp_bind, wp_kernel, wp_pure]
        refine hfresh.wp_freePage.imp ?_
        rintro _ mm ⟨hinv, hmem, -⟩
        have hkeeps : s.world.Keeps mm.mem := by
          rw [hmem]
          exact hfresh.keeps
        have hentry : entries s.pgdir mm.mem = s.world.view.entry := by
          rw [hmem]
          exact hfresh.entry
        have hcontents (i : Fin nrTasks) : (s.setMm mm).world.contents i = s.world.contents i := by
          refine funext fun p => hs.world.contents_eq hkeeps ?_
          rw [← hentry]
          rfl
        have hupper : (s.world.setMm mm).Upper := hs.upper.of_keeps hkeeps rfl
        refine .inr ⟨⟨hinv, hupper, hs.task_of_pgdir⟩, ?_⟩
        have habs : (s.setMm mm).abstract = s.abstract :=
          Private.ext rfl (funext fun i => by
            rw [space_abstract, space_abstract, hcontents]
            rfl)
        simp only [Private.step, space_of_some hd, dif_neg (BitVec.not_lt.mpr hlim)]
        exact congrArg (Prod.mk _) habs.symm
      · intro _ _
        simp only [if_true, wp_bind, wp_kernel, wp_pure]
        refine hfresh.exhaust.wp_freePage.imp ?_
        rintro _ mm ⟨-, -, hflag⟩
        exact .inl hflag
      · simp only [frame_ne_zero hn, if_false, wp_pure]
        have hbytes : frameBytes (fillN 4096 (s.world.alloc n).mm.mem (frame n) bytes)
            (frame n) = .ofBytes bytes := funext fun o => fillN_apply_self o.isLt
        obtain ⟨hinv, habs⟩ := Mapped.abstract hs hd (hbytes ▸ hmapped)
        refine .inr ⟨hinv, ?_⟩
        rw [hleaf, dif_pos h, map_none] at hspec
        simp only [Private.step, space_of_some hd, dif_pos h, if_pos hspec]
        exact congrArg (Prod.mk _) habs.symm

/-! ### New tasks -/

theorem Sys.task_of_findEmptyProcess (h : findEmptyProcess s.taken = some nr) :
    s.task nr = none := by
  have hfree := find?_some h
  simpa [taken] using hfree

/-- Task `nr` has got a page for its structure and a cleared directory. -/
structure NewSpace (main : MainMemory) (s : Sys) (nr : Fin nrTasks) (p d : Word) (s' : Sys) :
    Prop where
  inv : s'.Inv main
  task : s'.task = update s.task nr (some p)
  pgdir : s'.pgdir = update s.pgdir nr (some d)
  table : ∀ k, s'.world.view.entry (.table nr k) = none
  contents : s'.world.contents = s.world.contents

theorem Sys.Inv.newSpace (hs : s.Inv main) (hnone : s.task nr = none) (hn : n < pagingPages)
    (hzero : s.mm.memMap n = 0) (hn' : n' < pagingPages)
    (hzero' : (s.world.alloc n).mm.memMap n' = 0) (s' : Sys)
    (hmm : s'.mm = ((s.world.alloc n).alloc n').mm.setMem
      (fillN 4096 ((s.world.alloc n).alloc n').mm.mem (frame n') fun _ => 0))
    (htask : s'.task = update s.task nr (some (frame n)))
    (hpgdir : s'.pgdir = update s.pgdir nr (some (frame n'))) :
    NewSpace main s nr (frame n) (frame n') s' := by
  have hd : s.world.pgdir nr = none := hs.task_of_pgdir nr hnone
  have hworld : s'.world = s.world.newSpace nr n n' :=
    World.ext hmm hpgdir (by
      rw [show s'.world.held = taskPages s'.task from rfl, htask, taskPages_update hnone]
      rfl)
  refine ⟨⟨?_, ?_, fun i hi => ?_⟩, htask, hpgdir, fun k => ?_, ?_⟩
  · rw [hworld]
    exact hs.world.newSpace hd hn hzero hn' hzero'
  · rw [hworld]
    exact hs.world.upper_newSpace hn hzero hn' hzero' hs.upper
  · have hi' : i ≠ nr := by
      rintro rfl
      rw [htask, update_self] at hi
      cases hi
    rw [htask, update_of_ne hi'] at hi
    rw [hpgdir, update_of_ne hi', hs.task_of_pgdir i hi]
  · rw [hworld]
    exact hs.world.table_newSpace hd hn hzero hn' hzero' k
  · rw [hworld]
    exact hs.world.contents_newSpace hd hn hzero hn' hzero'

theorem NewSpace.abstract {p : Word} {s' : Sys} (h : NewSpace main s nr p d s') :
    s'.abstract = s.abstract.add nr (s.world.contents nr) := by
  refine Private.ext (funext fun i => ?_) (funext fun i => ?_)
  · rw [taken_abstract, Private.taken_add, taken, h.task]
    by_cases hi : i = nr
    · rw [hi, update_self, update_self]
      rfl
    · rw [update_of_ne hi, update_of_ne hi]
      rfl
  · rw [Private.space_add, space_abstract, h.pgdir, h.contents]
    by_cases hi : i = nr
    · rw [hi, update_self, update_self]
      rfl
    · rw [update_of_ne hi, update_of_ne hi]
      rfl

theorem Sys.Inv.wp_spawn (hs : s.Inv main) : wp spawn (Simulates main s .spawn) E s := by
  simp only [spawn, wp_bind, wp_get]
  cases hfind : findEmptyProcess s.taken with
  | none =>
    refine wp_pure.mpr (.inr ⟨hs, ?_⟩)
    simp only [Private.step, Sys.taken_abstract, hfind]
  | some nr =>
    have hnone := Sys.task_of_findEmptyProcess hfind
    simp only [wp_bind, wp_kernel]
    refine wp_getFreePage (fun _ => wp_pure.mpr (.inl rfl)) fun n hn hzero => ?_
    simp only [frame_ne_zero hn, if_false, wp_bind, wp_kernel, wp_modify]
    refine wp_getFreePage (fun _ => wp_pure.mpr (.inl rfl)) fun n' hn' hzero' => ?_
    simp only [frame_ne_zero hn', if_false, wp_bind, wp_kernel, wp_modify, fillPage, wp_pure]
    have hnew := hs.newSpace hnone hn hzero hn' hzero' ⟨_, _, _⟩ rfl rfl rfl
    refine .inr ⟨hnew.inv, ?_⟩
    have hempty : s.world.contents nr = fun _ => none := by
      funext p
      refine World.contents_of_none ?_
      simp [World.view, Sys.world, entries, hs.task_of_pgdir nr hnone]
    simp only [Private.step, Sys.taken_abstract, hfind, ← hempty]
    exact congrArg (Prod.mk _) hnew.abstract.symm

/-- After `copy_page_tables` the child has what the parent has, and nobody has
lost anything. -/
theorem CopyInv.contents {i' : Fin nrTasks} (hI : w.Inv main)
    (h : CopyInv main w i i' userPgdEntries mm) (t : Fin nrTasks) :
    (w.setMm mm).contents t = if t = i ∨ t = i' then w.contents i else w.contents t := by
  have hphys (k : Fin userPgdEntries) (j : Fin ptrsPerPage) :
      ((w.setMm mm).view.entry (.leaf t k j)).map ptePhys =
        (w.view.entry (.leaf (if t = i ∨ t = i' then i else t) k j)).map ptePhys := by
    rw [h.leaf, sharedTables]
    by_cases ht : t = i ∨ t = i'
    · rw [if_pos ⟨ht, k.isLt⟩, if_pos ht, Option.map_map]
      refine congrArg (fun f => Option.map f _) (funext fun e => ?_)
      exact ptePhys_and_not_w e
    · rw [if_neg fun hc => ht hc.1, if_neg ht]
  funext p
  refine (hI.contents_eq (i := if t = i ∨ t = i' then i else t) h.keeps (hphys p.1 p.2)).trans ?_
  by_cases ht : t = i ∨ t = i'
  · rw [if_pos ht, if_pos ht]
  · rw [if_neg ht, if_neg ht]

/-- `copy_process` gives up after `copy_page_tables` has failed: both frames it
frees are in use. -/
theorem World.Inv.wp_giveUp {E : Halt → State → Prop} {Q : PUnit → State → Prop}
    (hI : (w.setMm mm).Inv main) (hdir : w.pgdir nr = some (frame n')) (hheld : frame n ∈ w.held)
    (hQ : ∀ mm' : State, mm'.exhausted = mm.exhausted → Q ⟨⟩ mm') :
    wp (do freePage (frame n'); freePage (frame n)) Q E mm := by
  have hdir' : (w.setMm mm).view.entry (.dir nr) = some (frame n') := hdir
  have hheld' : frame n ∈ (w.setMm mm).view.held := hheld
  obtain ⟨m', hm', hframe'⟩ := main_of_entry hI hdir'
  obtain ⟨m, hm, hframe⟩ := main_of_held hI hheld'
  rw [Ref.phys] at hframe'
  have hne : m ≠ m' := by
    rintro rfl
    exact phys_ne_held hI hdir' hheld' (hframe'.trans hframe.symm)
  have hpos' : 0 < (w.setMm mm).view.refs (frame m') := by
    rw [← hframe']
    exact View.refs_pos_of_entry hdir'
  have hpos : 0 < (w.setMm mm).view.refs (frame m) := by
    rw [← hframe]
    exact View.refs_pos_of_held hheld'
  rw [wp_bind, hframe', hframe]
  refine wp_freePage hm'.lt (memMap_ne_zero hI hm' hpos') ?_
  refine wp_freePage hm.lt ?_ (hQ _ rfl)
  rw [memMap_setCount, update_of_ne hne]
  exact memMap_ne_zero hI hm hpos

/-- The rest of `copy_process`, once the child has its directory. -/
theorem NewSpace.wp_copy {s₁ : Sys} {child : Fin nrTasks} (hd : s.pgdir nr = some d)
    (hne : nr ≠ child) (hfind : findEmptyProcess s.taken = some child)
    (h : NewSpace main s child (frame n) (frame n') s₁) : wp (do
      let r ← kernel (copyPageTables d (frame n'))
      if r ≠ 0 then
        modify fun s => (s.setTask child none).setPgdir child none
        kernel (freePage (frame n'))
        kernel (freePage (frame n))
        return .again
      else
        return .task child) (Simulates main s (.fork nr)) E s₁ := by
  have hnone := task_of_findEmptyProcess hfind
  have hd₁ : s₁.world.pgdir nr = some d := by
    rw [show s₁.world.pgdir = s₁.pgdir from rfl, h.pgdir, update_of_ne hne, hd]
  have hdc₁ : s₁.world.pgdir child = some (frame n') := by
    rw [show s₁.world.pgdir = s₁.pgdir from rfl, h.pgdir, update_self]
  have hheld : frame n ∈ s₁.world.held := by
    rw [show s₁.world.held = taskPages s₁.task from rfl, h.task, taskPages_update hnone]
    exact mem_cons_self _ _
  rw [wp_bind, wp_kernel]
  refine h.inv.world.wp_copyPageTables hd₁ hdc₁ h.table (fun _ mm hcopy _ _ => ?_) fun mm hcopy => ?_
  · have hinv : (s₁.world.setMm mm.exhaust).Inv main := hcopy.inv
    have hgive := wp_giveUp
      (E := fun e mm' => E e (((s₁.setMm mm.exhaust).setTask child none).setPgdir child none
        |>.setMm mm')) hinv hdc₁ hheld
      (Q := fun _ mm' => Simulates main s (.fork nr) .again
        ((((s₁.setMm mm.exhaust).setTask child none).setPgdir child none).setMm mm'))
      fun mm' hflag' => .inl hflag'
    simp only [ne_eq, (by decide : ¬ (-1 : ℤ) = 0), not_false_eq_true, if_true, wp_bind, wp_modify,
      wp_kernel, wp_pure] at hgive ⊢
    exact hgive
  · simp only [ne_eq, not_true_eq_false, if_false, wp_pure]
    have hupper : (s₁.world.setMm mm).Upper := h.inv.upper.of_keeps hcopy.keeps rfl
    have hinv : (s₁.setMm mm).Inv main := ⟨hcopy.inv, hupper, h.inv.task_of_pgdir⟩
    have hcontents (t : Fin nrTasks) : (s₁.setMm mm).world.contents t =
        if t = nr ∨ t = child then s.world.contents nr else s.world.contents t := by
      rw [← h.contents]
      exact hcopy.contents h.inv.world t
    have habs : (s₁.setMm mm).abstract = s.abstract.add child (s.world.contents nr) := by
      have hadd := h.abstract
      refine Private.ext ((congrArg Private.taken hadd : _)) (funext fun t => ?_)
      rw [Private.space_add, space_abstract, hcontents,
        show (s₁.setMm mm).pgdir = s₁.pgdir from rfl, h.pgdir]
      by_cases ht : t = child
      · rw [ht, update_self, update_self, if_pos (Or.inr rfl)]
        rfl
      · rw [update_of_ne ht, update_of_ne ht, space_abstract]
        by_cases ht' : t = nr
        · rw [ht', if_pos (Or.inl rfl)]
        · rw [if_neg (not_or.mpr ⟨ht', ht⟩)]
    refine .inr ⟨hinv, ?_⟩
    simp only [Private.step, space_of_some hd, taken_abstract, hfind]
    exact congrArg (Prod.mk _) habs.symm

theorem Sys.Inv.wp_fork (hs : s.Inv main) : wp (fork nr) (Simulates main s (.fork nr)) E s := by
  simp only [fork, wp_bind, wp_get]
  cases hd : s.pgdir nr with
  | none =>
    refine wp_pure.mpr (.inr ⟨hs, ?_⟩)
    simp only [Private.step, space_of_none hd]
  | some d =>
    simp only [wp_bind, wp_get]
    cases hfind : findEmptyProcess s.taken with
    | none =>
      refine wp_pure.mpr (.inr ⟨hs, ?_⟩)
      simp only [Private.step, space_of_some hd, taken_abstract, hfind]
    | some child =>
      have hnone := task_of_findEmptyProcess hfind
      have hchild : nr ≠ child := by
        rintro rfl
        rw [hs.task_of_pgdir nr hnone] at hd
        cases hd
      simp only [wp_bind, wp_kernel]
      refine wp_getFreePage (fun _ => wp_pure.mpr (.inl rfl)) fun n hn hzero => ?_
      simp only [frame_ne_zero hn, if_false, wp_bind, wp_kernel, wp_modify]
      refine wp_getFreePage (fun _ => ?_) fun n' hn' hzero' => ?_
      · simp only [if_true, wp_bind, wp_modify, wp_kernel, wp_pure]
        refine (hs.world.fresh hn hzero).exhaust.wp_freePage.imp ?_
        rintro _ mm ⟨-, -, hflag⟩
        exact .inl hflag
      simp only [frame_ne_zero hn', if_false, wp_bind, wp_kernel, wp_modify, fillPage]
      have hcopy := (hs.newSpace hnone hn hzero hn' hzero' ⟨_, _, _⟩ rfl rfl
        rfl).wp_copy (E := E) hd hchild hfind
      simp only [wp_bind, wp_kernel] at hcopy ⊢
      exact hcopy

theorem Event.wp_run (hs : s.Inv main) (e : Event) :
    wp e.run (Simulates main s e) (fun _ _ => False) s := by
  cases e with
  | spawn => exact hs.wp_spawn
  | loadPage nr a bytes => exact hs.wp_loadPage a bytes
  | load nr acc => exact hs.wp_load acc
  | store nr acc bytes => exact hs.wp_store acc bytes
  | fork nr => exact hs.wp_fork
  | exit nr => exact hs.wp_exit
  | release nr => exact hs.wp_release
  | kernelWrite nr bytes => exact hs.wp_kernelWrite bytes

end

/-! ### Runs -/

theorem Sys.Inv.boot (main : MainMemory) (μ : Mem) : (Sys.boot main μ).Inv main := by
  obtain ⟨s, hrun⟩ := memInit_ok main ⟨μ, fun _ => 0, false⟩
  have hboot : Sys.boot main μ = ⟨s, fun _ => none, fun _ => none⟩ := by
    rw [Sys.boot, hrun]
  have hempty : taskPages (fun _ => none) = 0 := by
    rw [taskPages, filterMap_eq_bind]
    simp
  rw [hboot]
  refine ⟨?_, fun i d k hd => (nomatch hd), fun _ _ => rfl⟩
  rw [Sys.world, hempty]
  exact boot_inv hrun

theorem Sys.abstract_boot (main : MainMemory) (μ : Mem) :
    (boot main μ).abstract = Private.initial := rfl

theorem Sys.Inv.run_outputs {main : MainMemory} {s : Sys} (hs : s.Inv main) (es : List Event) :
    (s.run es).1 <+: Private.outputs es s.abstract ∧
      ((s.run es).2.mm.exhausted = false → (s.run es).1 = Private.outputs es s.abstract) := by
  induction es generalizing s with
  | nil => exact ⟨prefix_rfl, fun _ => rfl⟩
  | cons e es ih =>
    have hstep := e.wp_run hs
    rw [run]
    cases hrun : e.run s with
    | error _ s' => exact ((wp_of_error hrun).mp hstep).elim
    | ok o s' =>
      dsimp only
      by_cases hflag : s'.mm.exhausted = true
      · rw [if_pos hflag]
        exact ⟨ nil_prefix, fun h => absurd (hflag.symm.trans h) (by simp)⟩
      · rw [if_neg hflag]
        obtain hout | ⟨hs', habs⟩ := (wp_of_ok hrun).mp hstep
        · exact absurd hout hflag
        · obtain ⟨hinit, heq⟩ := ih hs'
          rw [Private.outputs, habs]
          exact ⟨(prefix_cons_inj o).mpr hinit, fun h => congrArg (o :: ·) (heq h)⟩

/-- For any events, in any order: as long as `get_free_page` has not failed, the
tasks see what they would see with private memories, each `fork` having copied
all of the parent's. -/
theorem copy_on_write_unobservable (main : MainMemory) (μ : Mem) (es : List Event) :
    ((boot main μ).run es).1 <+: Private.outputs es Private.initial ∧
      (((boot main μ).run es).2.mm.exhausted = false →
        ((boot main μ).run es).1 = Private.outputs es Private.initial) := by
  rw [← abstract_boot main μ]
  exact (Sys.Inv.boot main μ).run_outputs es

end LinuxRv.Mm
