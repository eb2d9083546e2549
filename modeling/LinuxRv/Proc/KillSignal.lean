import LinuxRv.Proc.Kill
import LinuxRv.Proc.Signals

/-!
`SIGKILL` and `SIGSTOP` in the mask of a task.

`sys_ssetmask` keeps `SIGKILL` out of `blocked`, but not `SIGSTOP`, and the mask
of a handler is added to `blocked` as the program has given it. The signals with
lower numbers are taken first, one at a time, so that one of them that is ignored
or caught is in the way of a `SIGKILL`.
-/

namespace LinuxRv.Proc

open ByteMemory Mm Prog Function BitVec List

/-- `SIGKILL` and `SIGSTOP` -/
def unmaskable : Word := sigBit sigKillNr ||| sigBit sigStopNr

/-- A signal before `SIGKILL` is pending with it, and does not end the task. -/
def Task.Overtaken (t : Task) : Prop :=
  t.signal.getLsbD sigKillNr = true ∧
    ∃ i < sigKillNr, t.signal.getLsbD i = true ∧ (t.sigaction i).handler ≠ 0

/-- What happens to the signals of a task. -/
inductive SigEvent
  | ssetmask (newmask : Word)
  | sigaction (signum action oldaction : Word)
  | signal (signum handler restorer : Word)
  | deliver
  | sigreturn
  /-- The program runs, makes other calls and gets signals. -/
  | other (k' : Kernel)

def SigEvent.Step (me : Slot) (k : Kernel) : SigEvent → Kernel → Prop
  | .ssetmask newmask, k' => ∃ ret, sysSsetmask me newmask k = .ok ret k'
  | .sigaction signum action oldaction, k' =>
    ∃ ret, sysSigaction me signum action oldaction k = .ok ret k'
  | .signal signum handler restorer, k' => ∃ ret, sysSignal me signum handler restorer k = .ok ret k'
  | .deliver, k' => doSignals me k = .ok ⟨⟩ k'
  | .sigreturn, k' => ∃ ret, sysSigreturn me k = .ok ret k'
  | .other k₁, k' => k' = k₁ ∧ ∃ t t', k.task me = some t ∧ k'.task me = some t' ∧
      t'.blocked = t.blocked ∧ t'.sigaction = t.sigaction

/-- A handler other than the default is installed for a signal that is pending
before `SIGKILL`. -/
def Task.Overtakes (t : Task) (i : Fin 32) (handler : Word) : Prop :=
  handler ≠ 0 ∧ i < sigKillNr ∧ t.signal.getLsbD i = true ∧ t.signal.getLsbD sigKillNr = true

/-- The program asks for no mask with `SIGKILL` or `SIGSTOP`, and no signal gets
in the way of `SIGKILL`. -/
def SigEvent.Careful (me : Slot) (k : Kernel) : SigEvent → Prop
  | .ssetmask newmask => newmask.getLsbD sigStopNr = false
  | .sigaction signum action _ => ∀ t i a, k.task me = some t → sigIndex signum = some i →
      actionAt k t.pgdir action = some a →
      (a.flags &&& saNomask ≠ 0 ∨ a.mask &&& unmaskable = 0 ∧ i ≠ sigStopNr) ∧
        ¬ t.Overtakes i a.handler
  | .signal signum handler _ => ∀ t i, k.task me = some t → sigIndex signum = some i →
      ¬ t.Overtakes i handler
  | .deliver | .sigreturn => True
  | .other k' => ∀ t', k'.task me = some t' → ¬ t'.Overtaken

/-- The states a task can reach with events that are `ok`. -/
inductive SigReach (me : Slot) (ok : Kernel → SigEvent → Prop) (k₀ : Kernel) : Kernel → Prop
  | start : SigReach me ok k₀ k₀
  | step {k k' : Kernel} {e : SigEvent} (h : SigReach me ok k₀ k) (hok : ok k e)
      (hstep : e.Step me k k') : SigReach me ok k₀ k'

/-- Neither signal is blocked, and the task ends at its next return to user mode
if `SIGKILL` is pending. -/
def NeverMasked (me : Slot) (k : Kernel) : Prop :=
  ∃ t, k.task me = some t ∧ t.blocked &&& unmaskable = 0 ∧ (t.signal.getLsbD sigKillNr = true →
      wp (doSignals me) (fun _ _ => False) (fun e _ => ∃ code, e = .exit code) k)

/-- What keeps the two signals out of the mask. -/
structure Task.Unmasked (t : Task) : Prop where
  blocked : t.blocked &&& unmaskable = 0
  mask : ∀ i, (t.sigaction i).mask &&& unmaskable = 0
  kill : (t.sigaction sigKillNr).handler = 0
  first : ¬ t.Overtaken

section

variable {k k' : Kernel} {me : Slot} {t t' : Task} {i : Fin 32} {a : Sigaction} {b x : Word}

theorem firstBit_eq_some (h : firstBit x = some i) : x.getLsbD i = true :=
  find?_some (p := fun i : Fin 32 => x.getLsbD i) h

theorem exists_firstBit (h : x.getLsbD i = true) : ∃ j ≤ i, firstBit x = some j := by
  cases hfind : firstBit x with
  | none => exact absurd h (find?_eq_none.mp hfind i (mem_finRange i))
  | some j =>
    refine ⟨j, ?_, rfl⟩
    obtain ⟨-, l₁, l₂, hl, hnot⟩ := find?_eq_some_iff_append.mp hfind
    have hsorted : (l₁ ++ j :: l₂).Pairwise (· < ·) := hl ▸ pairwise_lt_finRange 32
    have hmem : i ∈ l₁ ++ j :: l₂ := hl ▸ mem_finRange i
    rcases mem_append.mp hmem with hi | hi
    · have hfalse := hnot i hi
      rw [h] at hfalse
      cases hfalse
    · rcases mem_cons.mp hi with rfl | hi
      · exact le_rfl
      · have hcons := (pairwise_append.mp hsorted).2.1
        exact (rel_of_pairwise_cons hcons hi).le

theorem and_unmaskable_iff : b &&& unmaskable = 0 ↔
    b.getLsbD sigKillNr = false ∧ b.getLsbD sigStopNr = false := by
  have hbit (i : Fin 32) : (b &&& unmaskable).getLsbD i =
      (b.getLsbD i && (decide (i = sigKillNr) || decide (i = sigStopNr))) := by
    rw [getLsbD_and, unmaskable, getLsbD_or, getLsbD_sigBit, getLsbD_sigBit]
  constructor
  · intro h
    have hzero (i : Fin 32) : (b &&& unmaskable).getLsbD i = false := by
      rw [h]
      exact getLsbD_zero
    refine ⟨?_, ?_⟩
    · rw [← hzero sigKillNr, hbit, decide_eq_true rfl, Bool.true_or, Bool.and_true]
    · rw [← hzero sigStopNr, hbit, decide_eq_true (p := sigStopNr = sigStopNr) rfl, Bool.or_true,
        Bool.and_true]
  · rintro ⟨hkill, hstop⟩
    apply eq_of_signals
    intro i
    rw [hbit, show (0 : Word).getLsbD i = false from getLsbD_zero]
    by_cases h8 : i = sigKillNr
    · rw [h8, hkill, Bool.false_and]
    · by_cases h18 : i = sigStopNr
      · rw [h18, hstop, Bool.false_and]
      · simp only [h8, h18, decide_false, Bool.or_false, Bool.and_false]

theorem sigBit_and_unmaskable (hkill : i ≠ sigKillNr) (hstop : i ≠ sigStopNr) :
    sigBit i &&& unmaskable = 0 := by
  rw [and_unmaskable_iff, getLsbD_sigBit, getLsbD_sigBit]
  exact ⟨decide_eq_false hkill.symm, decide_eq_false hstop.symm⟩

theorem Task.Unmasked.neverMasked (h : t.Unmasked) (ht : k.task me = some t) :
    NeverMasked me k := by
  refine ⟨t, ht, h.blocked, fun hkill => ?_⟩
  have hfree := (and_unmaskable_iff.mp h.blocked).1
  have hpend : (t.signal &&& ~~~t.blocked).getLsbD sigKillNr = true := by
    rw [getLsbD_and, getLsbD_not, hkill, hfree]
    rfl
  obtain ⟨j, hj, htakes⟩ := exists_firstBit hpend
  have hsignal : t.signal.getLsbD j = true := by
    have hbit := firstBit_eq_some htakes
    rw [getLsbD_and] at hbit
    exact (Bool.and_eq_true_iff.mp hbit).1
  have hdefault : (t.sigaction j).handler = 0 := by
    rcases hj.lt_or_eq with hlt | rfl
    · by_contra hne
      exact h.first ⟨hkill, j, hlt, hsignal, hne⟩
    · exact h.kill
  refine wp_doSignals ht (fun hnone => ?_) fun i hi k' hk' => ?_
  · rw [takes, htakes] at hnone
    cases hnone
  · obtain rfl : j = i := Option.some.inj (htakes.symm.trans hi)
    have hchld : j.1 + 1 ≠ sigChldNr := by
      have : j.1 ≤ 8 := hj
      unfold sigChldNr
      omega
    have hone : ¬ ((t.sigaction j).handler = 1 ∨ j.1 + 1 = sigChldNr) := by
      rw [hdefault]
      exact not_or.mpr ⟨by decide, hchld⟩
    exact wp_doSignal hk' (fun hskip _ => hone hskip) (fun _ _ => ⟨_, rfl⟩)
      (fun hc => absurd hdefault hc.1) fun hc => absurd hdefault hc.1

theorem Task.Unmasked.clearSignal (h : t.Unmasked) (i : Fin 32) : (t.clearSignal i).Unmasked where
  blocked := h.blocked
  mask := h.mask
  kill := h.kill
  first := by
    rintro ⟨hkill, j, hj, hbit, hne⟩
    have hold {j : Fin 32} (h : (t.clearSignal i).signal.getLsbD j = true) :
        t.signal.getLsbD j = true := by
      rw [Task.clearSignal, getLsbD_and] at h
      exact (Bool.and_eq_true_iff.mp h).1
    exact h.first ⟨hold hkill, j, hj, hold hbit, hne⟩

/-- Entering a handler may reset it, nothing else happens to the actions. -/
theorem sigaction_enter_eq (t : Task) (i j : Fin 32) : ((t.enter i).sigaction j).mask =
    (t.sigaction j).mask ∧ (((t.enter i).sigaction j).handler = 0 ∨
      ((t.enter i).sigaction j).handler = (t.sigaction j).handler) := by
  rw [Task.enter]
  dsimp only
  split_ifs
  · by_cases hj : j = i
    · rw [hj, update_self]
      exact ⟨rfl, .inl rfl⟩
    · rw [update_of_ne hj]
      exact ⟨rfl, .inr rfl⟩
  · exact ⟨rfl, .inr rfl⟩

theorem Task.Unmasked.enter (h : t.Unmasked) (i : Fin 32) : (t.enter i).Unmasked where
  blocked := by
    show (t.blocked ||| (t.sigaction i).mask) &&& unmaskable = 0
    rw [and_or_distrib_right, h.blocked, h.mask]
    rfl
  mask j := by
    rw [(sigaction_enter_eq t i j).1, h.mask]
  kill := by
    rcases (sigaction_enter_eq t i sigKillNr).2 with hzero | hold
    · exact hzero
    · exact hold.trans h.kill
  first := by
    rintro ⟨hkill, j, hj, hbit, hne⟩
    rcases (sigaction_enter_eq t i j).2 with hzero | hold
    · exact hne hzero
    · exact h.first ⟨hkill, j, hj, hbit, hold ▸ hne⟩

theorem sigaction_install_self : (t.install i a).sigaction i = a :=
  update_self ..

theorem sigaction_install_of_ne {j : Fin 32} (h : j ≠ i) :
    (t.install i a).sigaction j = t.sigaction j :=
  update_of_ne h ..

theorem Task.Unmasked.install (h : t.Unmasked) (hmask : a.mask &&& unmaskable = 0)
    (hi : i ≠ sigKillNr) (hnot : ¬ t.Overtakes i a.handler) : (t.install i a).Unmasked where
  blocked := h.blocked
  mask j := by
    by_cases hj : j = i
    · subst hj
      rw [sigaction_install_self, hmask]
    · rw [sigaction_install_of_ne hj, h.mask]
  kill := by
    rw [sigaction_install_of_ne hi.symm, h.kill]
  first := by
    rintro ⟨hkill, j, hj, hbit, hne⟩
    by_cases hji : j = i
    · subst hji
      rw [sigaction_install_self] at hne
      exact hnot ⟨hne, hj, hbit, hkill⟩
    · rw [sigaction_install_of_ne hji] at hne
      exact h.first ⟨hkill, j, hj, hbit, hne⟩

theorem Task.Unmasked.setBlocked (h : t.Unmasked) (hb : b &&& unmaskable = 0) :
    Task.Unmasked { t with blocked := b } :=
  ⟨hb, h.mask, h.kill, h.first⟩

theorem sigIndex_ne_kill {signum : Word} (h : sigIndex signum = some i) : i ≠ sigKillNr := by
  unfold sigIndex at h
  split_ifs at h with hrange hkill
  rintro rfl
  refine hkill (eq_of_toNat_eq ?_)
  have hval : signum.toNat - 1 = 8 := congrArg Fin.val (Option.some.inj h)
  show signum.toNat = 9
  omega

/-- An event that is careful keeps the two signals out of the mask. -/
theorem SigEvent.Careful.step {e : SigEvent} (hok : e.Careful me k) (hstep : e.Step me k k')
    (h : t.Unmasked) (ht : k.task me = some t) : ∃ t', k'.task me = some t' ∧ t'.Unmasked := by
  have hret {α : Type} {c : ProcM α} {a : α} (hwp : wp c (fun _ k' => ∃ t', k'.task me = some t' ∧
      t'.Unmasked) (fun _ _ => True) k) (hc : c k = .ok a k') :
      ∃ t', k'.task me = some t' ∧ t'.Unmasked := hwp.of_ok hc
  cases e with
  | ssetmask newmask =>
    obtain ⟨ret, hc⟩ := hstep
    refine hret (wp_sysSsetmask ht fun ret k' hk' => ⟨_, hk', h.setBlocked ?_⟩) hc
    have hstop : newmask.getLsbD sigStopNr = false := hok
    rw [and_unmaskable_iff, getLsbD_and, getLsbD_and, hstop, Bool.false_and,
      getLsbD_not, getLsbD_sigBit]
    simp
  | sigaction signum action oldaction =>
    obtain ⟨ret, hc⟩ := hstep
    refine hret (wp_sysSigaction ht (fun _ => ⟨t, ht, h⟩) (fun i a hi ha k' hk' => ?_)
      fun _ _ => trivial) hc
    obtain ⟨hmask, hnot⟩ := hok t i a ht hi ha
    refine ⟨_, hk', h.install ?_ (sigIndex_ne_kill hi) hnot⟩
    dsimp only [Sigaction.installed]
    split_ifs with hnomask
    · exact zero_and
    · obtain ⟨hmask, hstop⟩ := hmask.resolve_left hnomask
      rw [and_or_distrib_right, hmask, sigBit_and_unmaskable (sigIndex_ne_kill hi) hstop]
      rfl
  | signal signum handler restorer =>
    obtain ⟨ret, hc⟩ := hstep
    refine hret (wp_sysSignal ht (fun _ => ⟨t, ht, h⟩) fun i hi ret k' hk' => ?_) hc
    exact ⟨_, hk', h.install zero_and (sigIndex_ne_kill hi) (hok t i ht hi)⟩
  | deliver =>
    refine hret (wp_doSignals ht (fun _ => ⟨t, ht, h⟩) fun i hi k₁ hk₁ => ?_) hstep
    have hclear := h.clearSignal i
    exact wp_doSignal hk₁ (fun _ _ => ⟨_, hk₁, hclear⟩) (fun _ _ => trivial)
      (fun _ k₂ hk₂ => ⟨_, hk₂, hclear.enter i⟩) fun _ _ _ => trivial
  | sigreturn =>
    obtain ⟨ret, hc⟩ := hstep
    refine hret (wp_sysSigreturn ht (fun a0 pc sp k' hk' => ?_) fun _ _ => trivial) hc
    exact ⟨_, hk', h.blocked, h.mask, h.kill, h.first⟩
  | other k₁ =>
    obtain ⟨rfl, t₁, t', ht₁, ht', hblocked, hsigaction⟩ := hstep
    obtain rfl : t = t₁ := Option.some.inj (ht.symm.trans ht₁)
    refine ⟨t', ht', hblocked ▸ h.blocked, hsigaction ▸ h.mask, hsigaction ▸ h.kill, ?_⟩
    exact hok t' ht'

theorem SigReach.unmasked (hrun : SigReach me (SigEvent.Careful me) k k') (h : t.Unmasked)
    (ht : k.task me = some t) : ∃ t', k'.task me = some t' ∧ t'.Unmasked := by
  induction hrun with
  | start => exact ⟨t, ht, h⟩
  | step _ hok hstep ih =>
    obtain ⟨t', ht', h'⟩ := ih
    exact hok.step hstep h' ht'

/-- With careful events the two signals are never masked, and `SIGKILL` ends the
task. -/
theorem never_masked_of_careful (h : t.Unmasked) (ht : k.task me = some t)
    (hrun : SigReach me (SigEvent.Careful me) k k') : NeverMasked me k' := by
  obtain ⟨t', ht', h'⟩ := hrun.unmasked h ht
  exact h'.neverMasked ht'

end

/-- A task without handlers. -/
def newTask : Task := { usr1Task 0 with signal := 0, sigaction := fun _ => ⟨0, 0, 0, 0⟩ }

/-- The page at `0x3000` holds an action for a handler at `0x1000`, with `SIGKILL`
in its mask. -/
def newProgram : Kernel :=
  let k := runsAlone newTask
  k.setMm (k.fs.mm.setMem (store32 (store32 onePage 0x80402000 0x1000) 0x80402004
    (sigBit sigKillNr)))

theorem unmasked_newTask : newTask.Unmasked where
  blocked := by decide
  mask _ := zero_and
  kill := rfl
  first h := absurd h.1 (by decide)

/-- `ssetmask` with everything but `SIGSTOP`. -/
theorem never_masked_ssetmask : NeverMasked 1 (after (sysSsetmask 1 0xfffbffff) newProgram) := by
  have hreturns : returns (sysSsetmask 1 0xfffbffff) newProgram = true := by decide +kernel
  obtain ⟨ret, hstep⟩ := ok_after_of_returns hreturns
  refine never_masked_of_careful unmasked_newTask rfl (.step (e := .ssetmask 0xfffbffff) .start ?_
    ⟨ret, hstep⟩)
  show (0xfffbffff : Word).getLsbD 18 = false
  decide

/-- A signal is sent to the task. -/
theorem step_post {k : Kernel} {me : Slot} (h : (k.task me).isSome = true) (bit : Word) :
    SigEvent.Step me k (.other (k.post bit [me])) (k.post bit [me]) := by
  obtain ⟨t, ht⟩ := Option.isSome_iff_exists.mp h
  refine ⟨rfl, t, t.pend bit, ht, ?_, rfl, rfl⟩
  simp [Kernel.post, ht]

/-- `SIGUSR1` comes when its handler has been installed, and `SIGKILL` when the
handler runs. -/
def killMasked : Kernel :=
  (after (doSignals 1) ((after (sysSigaction 1 10 0x3000 0) newProgram).post (sigBit 9) [1])).post
    (sigBit sigKillNr) [1]

/-- The handler's mask keeps `SIGKILL` away, and `ssetmask` can keep `SIGSTOP`
away. -/
theorem kill_masked : newTask.Unmasked ∧
    (SigReach 1 (fun _ _ => True) newProgram killMasked ∧ ¬ NeverMasked 1 killMasked) ∧
    (SigReach 1 (fun _ _ => True) newProgram (after (sysSsetmask 1 (sigBit 18)) newProgram) ∧
      ¬ NeverMasked 1 (after (sysSsetmask 1 (sigBit 18)) newProgram)) := by
  have hblocked {k : Kernel} (h : (k.task 1).any (fun t => t.blocked &&& unmaskable ≠ 0) = true) :
      ¬ NeverMasked 1 k := by
    rintro ⟨t, ht, hzero, -⟩
    rw [ht] at h
    simp [hzero] at h
  refine ⟨unmasked_newTask, ⟨?_, hblocked (by decide +kernel)⟩, ?_, hblocked (by decide +kernel)⟩
  · obtain ⟨ret, hinstall⟩ := ok_after_of_returns
      (c := sysSigaction 1 10 0x3000 0) (s := newProgram) (by decide +kernel)
    obtain ⟨⟨⟩, hdeliver⟩ := ok_after_of_returns (c := doSignals 1)
      (s := (after (sysSigaction 1 10 0x3000 0) newProgram).post (sigBit 9) [1]) (by decide +kernel)
    have h₁ : SigReach 1 (fun _ _ => True) newProgram
        (after (sysSigaction 1 10 0x3000 0) newProgram) :=
      .step (e := .sigaction 10 0x3000 0) .start trivial ⟨ret, hinstall⟩
    have h₂ := h₁.step trivial (step_post (by decide +kernel) (sigBit 9))
    have h₃ := h₂.step (e := .deliver) trivial hdeliver
    exact h₃.step trivial (step_post (by decide +kernel) (sigBit sigKillNr))
  · obtain ⟨ret, hset⟩ := ok_after_of_returns (c := sysSsetmask 1 (sigBit 18)) (s := newProgram)
      (by decide +kernel)
    exact .step (e := .ssetmask (sigBit 18)) .start trivial ⟨ret, hset⟩

end LinuxRv.Proc
