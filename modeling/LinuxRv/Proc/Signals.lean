import LinuxRv.Proc.Fork
import LinuxRv.Proc.UserCalls

/-!
Signals and their handlers (`kernel/signal.c`).

`do_signal` puts five words on the user stack and adds the mask of the handler
to `blocked`; `sys_sigreturn` takes three of the words back. So neither the mask
nor the registers that a handler may use come back, and the mask of a handler,
like the argument of `sys_ssetmask`, can hold signals that are never to be
blocked.
-/

namespace LinuxRv.Proc

open ByteMemory Mm Prog Function BitVec Option Proc.Kernel

/-! ### The calls -/

/-- `SIGKILL` and `SIGSTOP`, counted from 0 as `sigaction` is. -/
def sigKillNr : Fin 32 := 8
def sigStopNr : Fin 32 := 18

/-- The bit of a signal in `signal` and `blocked`. -/
def sigBit (i : Fin 32) : Word := (1 <<< i.1 : Word)

def sysSgetmask (me : Slot) : ProcM ℤ := do
  return (← getTask me).blocked.toInt

def sysSsetmask (me : Slot) (newmask : Word) : ProcM ℤ := do
  let old := (← getTask me).blocked
  updateTask me fun t => { t with blocked := newmask &&& ~~~sigBit sigKillNr }
  return old.toInt

def sysSignal (me : Slot) (signum handler restorer : Word) : ProcM ℤ := do
  match sigIndex signum with
  | none => return -1
  | some i =>
    let old := ((← getTask me).sigaction i).handler
    setSigaction me i ⟨handler, 0, saOneshot ||| saNomask, restorer⟩
    return old.toInt

def sysSigreturn (me : Slot) : ProcM ℤ := do
  let cur ← getTask me
  let sp := cur.tf tfSp
  let a0 ← liftMm (getFsLong cur.pgdir (sp + 8))
  updateTask me fun t => { t with tf := update t.tf tfA0 a0 }
  let pc ← liftMm (getFsLong cur.pgdir (sp + 12))
  updateTask me fun t => { t with tf := update t.tf tfMepc pc }
  let sp' ← liftMm (getFsLong cur.pgdir (sp + 16))
  updateTask me fun t => { t with tf := update t.tf tfSp sp' }
  return a0.toInt

/-! ### What the calls do to the task -/

/-- The signal is neither ignored nor left to the default. -/
def Sigaction.Caught (a : Sigaction) : Prop := a.handler ≠ 0 ∧ a.handler ≠ 1

instance (a : Sigaction) : Decidable a.Caught := by
  unfold Sigaction.Caught
  infer_instance

/-- What `sys_sigaction` makes of the action for the signal `i`. -/
def Sigaction.installed (a : Sigaction) (i : Fin 32) : Sigaction :=
  { a with mask := if a.flags &&& saNomask ≠ 0 then 0 else a.mask ||| sigBit i }

/-- The signal that `do_signals` takes. -/
def Task.takes (t : Task) : Option (Fin 32) := firstBit (t.signal &&& ~~~t.blocked)

def Task.install (t : Task) (i : Fin 32) (a : Sigaction) : Task :=
  { t with sigaction := update t.sigaction i a }

/-- The signal `i` is not pending any more. -/
def Task.clearSignal (t : Task) (i : Fin 32) : Task :=
  { t with signal := t.signal &&& ~~~sigBit i }

/-- The task enters its handler for the signal `i`. -/
def Task.enter (t : Task) (i : Fin 32) : Task :=
  let sa := t.sigaction i
  { t with
    sigaction := if sa.flags &&& saOneshot ≠ 0 then
      update t.sigaction i { sa with handler := 0 } else t.sigaction
    tf := update (update (update (update t.tf
      tfSp (t.tf tfSp - 20)) tfA0 (.ofNat 32 (i.1 + 1))) tfRa sa.restorer) tfMepc sa.handler
    blocked := t.blocked ||| sa.mask }

/-- The task leaves its handler. -/
def Task.leave (t : Task) (a0 pc sp : Word) : Task :=
  { t with tf :=
      update (update (update t.tf tfA0 a0) tfMepc pc) tfSp sp }

/-! ### Sets of signals -/

theorem getLsbD_sigBit (i j : Fin 32) : (sigBit i).getLsbD j = decide (j = i) := by
  revert i j
  decide +kernel

theorem firstBit_sigBit (i : Fin 32) : firstBit (sigBit i) = some i := by
  revert i
  decide

/-- Words are equal if they have the same signals. -/
theorem eq_of_signals {a b : Word} (h : ∀ i : Fin 32, a.getLsbD i = b.getLsbD i) : a = b :=
  eq_of_getLsbD_eq fun i hi => h ⟨i, hi⟩

theorem sigBit_and_not {i : Fin 32} {b : Word} (h : b.getLsbD i = false) :
    sigBit i &&& ~~~b = sigBit i := by
  apply eq_of_signals
  intro j
  rw [getLsbD_and, getLsbD_not, getLsbD_sigBit]
  by_cases hij : j = i
  · rw [hij, h, decide_eq_true i.2]
    simp
  · simp only [hij, decide_false, Bool.false_and]

section

variable {Q : ℤ → Kernel → Prop} {k k' : Kernel} {me : Slot} {t : Task} {i : Fin 32}
  {E : Minix.Halt → Kernel → Prop}

theorem Kernel.task_setMm (k : Kernel) (mm : Mm.State) : (k.setMm mm).task = k.task := rfl

/-- Access to user memory leaves the tasks alone. -/
theorem wp_liftMm_task {α : Type} {c : Mm.M α} {Q : α → Kernel → Prop}
    (hQ : ∀ a k', k'.task = k.task → Q a k') (hE : ∀ e k', E e k') : wp (liftMm c) Q E k := by
  rw [wp_liftMm]
  exact wp_of_forall (fun a mm => hQ a _ (k.task_setMm mm)) fun _ _ => hE _ _

theorem wp_doSignal {Q : PUnit → Kernel → Prop} (ht : k.task me = some t)
    (hskip : (t.sigaction i).handler = 1 ∨ i.1 + 1 = sigChldNr → ¬ (t.sigaction i).Caught → Q ⟨⟩ k)
    (hexit : (t.sigaction i).handler = 0 → i.1 + 1 ≠ sigChldNr → E (.exit (i.1 + 1)) k)
    (hcaught : (t.sigaction i).Caught → ∀ k', k'.task me = some (t.enter i) → Q ⟨⟩ k')
    (hE : (t.sigaction i).Caught → ∀ e k', E e k') : wp (doSignal me i) Q E k := by
  rw [doSignal, wp_bind, wp_getTask ht]
  dsimp only
  refine wp_ite.mpr ⟨fun hone => wp_pure.mpr (hskip (.inl hone) fun h => h.2 hone), fun hone => ?_⟩
  refine wp_ite.mpr ⟨fun hzero => ?_, fun hzero => ?_⟩
  · refine wp_ite.mpr ⟨fun hchld => ?_, fun hchld => wp_throw.mpr (hexit hzero hchld)⟩
    exact wp_pure.mpr (hskip (.inr hchld) fun h => h.1 hzero)
  · have hc : (t.sigaction i).Caught := ⟨hzero, hone⟩
    -- the rest sees the task with the handler reset, if it is for one time only
    have hrest (k' : Kernel) (hk' : k'.task me = some { t with sigaction := (t.enter i).sigaction }) :
        wp (do
          liftMm (verifyArea t.pgdir (t.tf tfSp - 20) 20)
          liftMm (putLongs t.pgdir (t.tf tfSp - 20) [(t.sigaction i).restorer,
            .ofNat 32 (i.1 + 1), t.tf tfA0, t.tf tfMepc, t.tf tfSp])
          updateTask me fun t' => { t' with
            tf := update (update (update (update t'.tf
              tfSp (t.tf tfSp - 20)) tfA0 (.ofNat 32 (i.1 + 1))) tfRa
              (t.sigaction i).restorer) tfMepc (t.sigaction i).handler
            blocked := t'.blocked ||| (t.sigaction i).mask }) Q E k' := by
      rw [wp_bind]
      refine wp_liftMm_task (fun _ k₁ h₁ => wp_bind.mpr ?_) (hE hc)
      refine wp_liftMm_task (fun _ k₂ h₂ => wp_updateTask.mpr ?_) (hE hc)
      refine hcaught hc _ ?_
      rw [task_setTask_self, h₂, h₁, hk']
      rfl
    refine wp_ite.mpr ⟨fun hshot => ?_, fun hshot => ?_⟩
    · rw [wp_bind, setSigaction, wp_updateTask]
      refine hrest _ ?_
      rw [task_setTask_self, ht, Task.enter, if_pos hshot]
      rfl
    · refine hrest k ?_
      rw [ht, Task.enter, if_neg hshot]

theorem wp_doSignal_caught {Q : PUnit → Kernel → Prop} (ht : k.task me = some t)
    (hcaught : (t.sigaction i).Caught) (hQ : ∀ k', k'.task me = some (t.enter i) → Q ⟨⟩ k') :
    wp (doSignal me i) Q (fun _ _ => True) k :=
  wp_doSignal ht (fun _ hnot => absurd hcaught hnot) (fun _ _ => trivial) (fun _ => hQ)
    fun _ _ _ => trivial

theorem task_of_doSignal (ht : k.task me = some t) (hcaught : (t.sigaction i).Caught)
    (h : doSignal me i k = .ok ⟨⟩ k') : k'.task me = some (t.enter i) := by
  have hwp := wp_doSignal_caught (Q := fun _ k' => k'.task me = some (t.enter i)) ht hcaught
    fun _ hk => hk
  exact hwp.of_ok h

theorem wp_doSignals {Q : PUnit → Kernel → Prop} (ht : k.task me = some t)
    (hnone : t.takes = none → Q ⟨⟩ k)
    (hsome : ∀ i, t.takes = some i → ∀ k', k'.task me = some (t.clearSignal i) →
      wp (doSignal me i) Q E k') : wp (doSignals me) Q E k := by
  rw [doSignals, wp_bind, wp_getTask ht]
  cases htakes : t.takes with
  | none =>
    rw [Task.takes] at htakes
    simp only [htakes, wp_pure]
    exact hnone htakes
  | some i =>
    rw [Task.takes] at htakes
    simp only [htakes, wp_bind, wp_updateTask]
    refine hsome i htakes _ ?_
    rw [task_setTask_self, ht]
    rfl

theorem wp_sysSsetmask {newmask : Word} (ht : k.task me = some t) (hQ : ∀ ret k', k'.task me =
      some { t with blocked := newmask &&& ~~~sigBit sigKillNr } → Q ret k') :
    wp (sysSsetmask me newmask) Q E k := by
  rw [sysSsetmask, wp_bind, wp_getTask ht, wp_bind, wp_updateTask, wp_pure]
  refine hQ _ _ ?_
  rw [task_setTask_self, ht]
  rfl

theorem wp_sysSignal {signum handler restorer : Word}
    (ht : k.task me = some t) (hnone : sigIndex signum = none → Q (-1) k)
    (hsome : ∀ i, sigIndex signum = some i → ∀ ret k', k'.task me =
      some (t.install i ⟨handler, 0, saOneshot ||| saNomask, restorer⟩) → Q ret k') :
    wp (sysSignal me signum handler restorer) Q E k := by
  rw [sysSignal]
  cases hi : sigIndex signum with
  | none => exact wp_pure.mpr (hnone hi)
  | some i =>
    dsimp only
    rw [wp_bind, wp_getTask ht, wp_bind, setSigaction, wp_updateTask, wp_pure]
    refine hsome i hi _ _ ?_
    rw [task_setTask_self, ht]
    rfl

/-- The action that a program passes to `sys_sigaction`. -/
def actionAt (k : Kernel) (pgdir action : Word) : Option Sigaction :=
  match getBytes pgdir 16 action k.fs.mm with
  | .ok l _ => some (Sigaction.ofBytes l)
  | .error .. => none

theorem wp_sysSigaction {signum action oldaction : Word}
    (ht : k.task me = some t) (hnone : sigIndex signum = none → Q (-1) k)
    (hsome : ∀ i a, sigIndex signum = some i → actionAt k t.pgdir action = some a → ∀ k',
      k'.task me = some (t.install i (a.installed i)) → Q 0 k')
    (hE : ∀ e k', E e k') : wp (sysSigaction me signum action oldaction) Q E k := by
  rw [sysSigaction]
  cases hi : sigIndex signum with
  | none => exact wp_pure.mpr (hnone hi)
  | some i =>
    dsimp only
    rw [wp_bind, wp_getTask ht, wp_bind, wp_liftMm]
    cases hbytes : getBytes t.pgdir 16 action k.fs.mm with
    | error e mm => exact (wp_of_error hbytes).mpr (hE _ _)
    | ok l mm =>
      have ha : actionAt k t.pgdir action = some (Sigaction.ofBytes l) := by
        rw [actionAt, hbytes]
      have hrest (k' : Kernel) (hk' : k'.task me = some (t.install i (.ofBytes l))) :
          wp (do setSigaction me i ((Sigaction.ofBytes l).installed i); return 0) Q E k' := by
        rw [wp_bind, setSigaction, wp_updateTask, wp_pure]
        refine hsome i _ hi ha _ ?_
        rw [task_setTask_self, hk', map_some, Task.install, Task.install]
        simp only [update_idem]
      rw [wp_of_ok hbytes, wp_bind, setSigaction, wp_updateTask, task_setMm, ht]
      refine wp_ite.mpr ⟨fun _ => ?_, fun _ => hrest _ task_setTask_self⟩
      rw [wp_bind]
      refine wp_liftMm_task (fun _ k₁ h₁ => wp_bind.mpr ?_) hE
      refine wp_liftMm_task (fun _ k₂ h₂ => hrest k₂ ?_) hE
      rw [h₂, h₁, task_setTask_self]
      rfl

theorem wp_sysSigreturn (ht : k.task me = some t)
    (hQ : ∀ a0 pc sp k', k'.task me = some (t.leave a0 pc sp) → Q a0.toInt k')
    (hE : ∀ e k', E e k') : wp (sysSigreturn me) Q E k := by
  rw [sysSigreturn, wp_bind, wp_getTask ht, wp_bind]
  refine wp_liftMm_task (fun a0 k₁ h₁ => ?_) hE
  rw [wp_bind, wp_updateTask, wp_bind]
  refine wp_liftMm_task (fun pc k₂ h₂ => ?_) hE
  rw [wp_bind, wp_updateTask, wp_bind]
  refine wp_liftMm_task (fun sp k₃ h₃ => ?_) hE
  rw [wp_bind, wp_updateTask, wp_pure]
  refine hQ a0 pc sp _ ?_
  rw [task_setTask_self, h₃, task_setTask_self, h₂, task_setTask_self, h₁, ht]
  rfl

end

/-! ### The mask after a handler -/

/-- Handlers of the task that start, nest and end, with the masks that have been
added: `depth` handlers are running. In between the program runs, and signals
are sent to it. -/
inductive Handlers (me : Slot) (k : Kernel) : (depth : ℕ) → List Word → Kernel → Prop
  | start : Handlers me k 0 [] k
  | deliver {depth : ℕ} {masks : List Word} {k₁ k₂ : Kernel} {t : Task} {i : Fin 32}
      (hrun : Handlers me k depth masks k₁) (ht : k₁.task me = some t) (htakes : t.takes = some i)
      (hcaught : (t.sigaction i).Caught) (hcall : doSignals me k₁ = .ok ⟨⟩ k₂) :
      Handlers me k (depth + 1) ((t.sigaction i).mask :: masks) k₂
  | sigreturn {depth : ℕ} {masks : List Word} {k₁ k₂ : Kernel} {a : ℤ}
      (hrun : Handlers me k (depth + 1) masks k₁) (hcall : sysSigreturn me k₁ = .ok a k₂) :
      Handlers me k depth masks k₂
  | other {depth : ℕ} {masks : List Word} {k₁ k₂ : Kernel} {t t' : Task}
      (hrun : Handlers me k depth masks k₁) (ht : k₁.task me = some t)
      (ht' : k₂.task me = some t') (hblocked : t'.blocked = t.blocked)
      (hsigaction : t'.sigaction = t.sigaction) : Handlers me k depth masks k₂

/-- All masks together. -/
def union (masks : List Word) : Word := masks.foldr (· ||| ·) 0

section

variable {k k' : Kernel} {me : Slot} {t : Task} {i : Fin 32} {depth : ℕ} {masks : List Word}

/-- A handler that is for more than one time stays as it is. -/
theorem sigaction_enter (h : (t.sigaction i).flags &&& saOneshot = 0) (j : Fin 32) :
    ((t.enter j).sigaction i) = t.sigaction i := by
  rw [Task.enter]
  split_ifs with hj
  · refine update_of_ne (fun hij => hj ?_) _ _
    rw [← hij, h]
  · rfl

/-- The masks of all handlers that have been entered are in `blocked`. -/
theorem Handlers.blocked_eq (h : Handlers me k depth masks k') (ht : k.task me = some t) :
    ∃ t', k'.task me = some t' ∧ t'.blocked = t.blocked ||| union masks ∧
      ∀ i, (t.sigaction i).flags &&& saOneshot = 0 → t'.sigaction i = t.sigaction i := by
  induction h with
  | start => exact ⟨t, ht, by simp [union], fun _ _ => rfl⟩
  | @deliver depth masks k₁ k₂ t₁ i hrun ht₁ htakes hcaught hcall ih =>
    obtain ⟨t', ht', hblocked, hkeep⟩ := ih
    obtain rfl : t' = t₁ := some.inj (ht'.symm.trans ht₁)
    have hwp : wp (doSignals me) (fun _ k => k.task me = some ((t'.clearSignal i).enter i))
        (fun _ _ => True) k₁ := by
      refine wp_doSignals ht₁ (fun hnone => ?_) fun j hj k hk => ?_
      · rw [htakes] at hnone
        cases hnone
      · obtain rfl : i = j := some.inj (htakes.symm.trans hj)
        exact wp_doSignal_caught hk hcaught fun _ hk' => hk'
    refine ⟨_, hwp.of_ok hcall, ?_, fun j hj => ?_⟩
    · show t'.blocked ||| (t'.sigaction i).mask = _
      rw [hblocked, BitVec.or_assoc, BitVec.or_comm (union masks)]
      rfl
    · have hold := hkeep j hj
      rw [sigaction_enter (t := t'.clearSignal i) (hold ▸ hj) i]
      exact hold
  | sigreturn hrun hcall ih =>
    obtain ⟨t', ht', hrest⟩ := ih
    have hwp := wp_sysSigreturn (E := fun _ _ => True) ht'
      (Q := fun _ k => ∃ a0 pc sp, k.task me = some (t'.leave a0 pc sp))
      (fun a0 pc sp _ hk => ⟨a0, pc, sp, hk⟩) fun _ _ => trivial
    obtain ⟨a0, pc, sp, hk⟩ := hwp.of_ok hcall
    exact ⟨_, hk, hrest⟩
  | other hrun ht₁ ht₂ hblocked hsigaction ih =>
    obtain ⟨t', ht', hold, hkeep⟩ := ih
    obtain rfl := some.inj (ht'.symm.trans ht₁)
    exact ⟨_, ht₂, hblocked.trans hold, fun i hi => hsigaction ▸ hkeep i hi⟩

theorem or_eq_left_iff {b m : Word} : b ||| m = b ↔ m &&& ~~~b = 0 := by
  rw [eq_of_getLsbD_eq_iff, eq_of_getLsbD_eq_iff]
  refine forall_congr' fun j => forall_congr' fun hj => ?_
  simp only [getLsbD_or, getLsbD_and, getLsbD_not, hj, decide_true,
    Bool.true_and, ofNat_eq_ofNat, getLsbD_zero]
  cases b.getLsbD j <;> cases m.getLsbD j <;> decide

theorem or_union_eq_iff {b : Word} : b ||| union masks = b ↔ ∀ m ∈ masks, m &&& ~~~b = 0 := by
  rw [or_eq_left_iff]
  induction masks with
  | nil => simp [union]
  | cons m masks ih =>
    have hor : (m ||| union masks) &&& ~~~b = 0 ↔ m &&& ~~~b = 0 ∧ union masks &&& ~~~b = 0 := by
      rw [and_or_distrib_right]
      exact or_eq_zero_iff
    rw [List.forall_mem_cons, ← ih, ← hor]
    rfl

/-- The mask is the old one, and every handler that is for more than one time
runs again if its signal comes again. -/
def MaskRestored (me : Slot) (t : Task) (k' : Kernel) : Prop :=
  ∃ t', k'.task me = some t' ∧ t'.blocked = t.blocked ∧
    ∀ i, (t.sigaction i).Caught → (t.sigaction i).flags &&& saOneshot = 0 →
      t.blocked.getLsbD i = false →
      Task.takes { t' with signal := sigBit i } = some i ∧ t'.sigaction i = t.sigaction i

/-- Once all handlers have returned, the mask is the old one exactly if no
handler had anything to add to it. -/
theorem mask_restored_iff (h : Handlers me k 0 masks k') (ht : k.task me = some t) :
    MaskRestored me t k' ↔ ∀ m ∈ masks, m &&& ~~~t.blocked = 0 := by
  obtain ⟨t', ht', hblocked, hkeep⟩ := h.blocked_eq ht
  rw [← or_union_eq_iff, ← hblocked]
  constructor
  · rintro ⟨t₁, ht₁, hsame, -⟩
    obtain rfl : t' = t₁ := some.inj (ht'.symm.trans ht₁)
    exact hsame
  · intro hsame
    refine ⟨t', ht', hsame, fun i _ hshot hfree => ⟨?_, hkeep i hshot⟩⟩
    show firstBit (sigBit i &&& ~~~t'.blocked) = some i
    rw [hsame, sigBit_and_not hfree, firstBit_sigBit]

end

/-- A directory with one page, for the addresses from `0x3000` on. -/
def onePage : Mem :=
  store32 (store32 (fun _ => 0) 0x80400000 0x20100401) 0x8040100c 0x20100817

/-- A task with `SIGUSR1` pending and a handler for it at `0x1000`. -/
def usr1Task (mask : Word) : Task :=
  let t := ((single ⟨onePage, fun _ => 1, false⟩ 0x80400000).task 0).get rfl
  { t with
    signal := sigBit 9
    sigaction := update t.sigaction 9 ⟨0x1000, mask, 0, 0x1100⟩
    tf := update (update t.tf tfSp 0x3800) tfMepc 0x1234 }

/-- Task 1 runs in that page. -/
def runsAlone (t : Task) : Kernel :=
  { single ⟨onePage, fun _ => 1, false⟩ 0x80400000 with
    task := fun i => if i = 1 then some t else none }

def usr1Pending (mask : Word) : Kernel := runsAlone (usr1Task mask)

/-- The state after the handler has run. -/
def usr1Handled (mask : Word) : Kernel :=
  after (sysSigreturn 1) (after (doSignals 1) (usr1Pending mask))

theorem handlers_usr1 (mask : Word) (h : returns (doSignals 1) (usr1Pending mask) = true)
    (h' : returns (sysSigreturn 1) (after (doSignals 1) (usr1Pending mask)) = true) :
    Handlers 1 (usr1Pending mask) 0 [mask] (usr1Handled mask) := by
  obtain ⟨⟨⟩, hcall⟩ := ok_after_of_returns h
  obtain ⟨a, hcall'⟩ := ok_after_of_returns h'
  have htask : (usr1Pending mask).task 1 = some (usr1Task mask) := rfl
  have htakes : (usr1Task mask).takes = some 9 :=
    show firstBit (sigBit 9 &&& ~~~0) = some 9 by decide
  have hcaught : ((usr1Task mask).sigaction 9).Caught :=
    ⟨show (0x1000 : Word) ≠ 0 by decide, show (0x1000 : Word) ≠ 1 by decide⟩
  have hdeliver := Handlers.deliver .start htask htakes hcaught hcall
  exact .sigreturn hdeliver hcall'

/-- With `SA_NOMASK`, as in `user/t_sig.c`, there is no mask. -/
theorem mask_restored_nomask : MaskRestored 1 (usr1Task 0) (usr1Handled 0) :=
  (mask_restored_iff (handlers_usr1 0 (by decide +kernel) (by decide +kernel)) rfl).mpr
    (List.forall_mem_singleton.mpr zero_and)

/-- Otherwise the signal itself stays blocked for ever. -/
theorem mask_kept : Handlers 1 (usr1Pending (sigBit 9)) 0 [sigBit 9] (usr1Handled (sigBit 9)) ∧
    ¬ MaskRestored 1 (usr1Task (sigBit 9)) (usr1Handled (sigBit 9)) := by
  have hrun := handlers_usr1 (sigBit 9) (by decide +kernel) (by decide +kernel)
  refine ⟨hrun, ?_⟩
  rintro ⟨t', ht', hsame, -⟩
  obtain ⟨t₁, ht₁, hblocked, -⟩ := hrun.blocked_eq rfl
  obtain rfl : t' = t₁ := some.inj (ht'.symm.trans ht₁)
  exact absurd (hsame.symm.trans hblocked) (by decide)

/-! ### The registers after a handler -/

/-- Where a register is in a trap frame. -/
def regSlot (r : Fin 32) : Fin 100 := ⟨r.1 + 1, by omega⟩

/-- `a7` in a trap frame, with the number of a system call. -/
def tfA7 : Fin 100 := regSlot 17

/-- The number of `sigreturn`. -/
def nrSigreturn : Word := 72

/-- `gp`, `tp` and `s0` to `s11` -/
def calleeSaved : List (Fin 32) := [3, 4, 8, 9, 18, 19, 20, 21, 22, 23, 24, 25, 26, 27]

/-- `t0` to `t6` and `a1` to `a6` -/
def temporaries : List (Fin 32) := [5, 6, 7, 11, 12, 13, 14, 15, 16, 28, 29, 30, 31]

/-- The program goes on where it was, with the registers it had. -/
def SameRegisters (t t' : Task) : Prop :=
  t'.tf tfMepc = t.tf tfMepc ∧ ∀ r, r ≠ 0 → t'.tf (regSlot r) = t.tf (regSlot r)

/-- The handler that `t` has entered as `t₁` has returned to the restorer, and
the restorer has called `sigreturn`. -/
structure HandlerReturns (t t₁ t₂ : Task) (mm : Mm.State) : Prop where
  sp : t₂.tf tfSp = t₁.tf tfSp
  saved : ∀ r ∈ calleeSaved, t₂.tf (regSlot r) = t₁.tf (regSlot r)
  ra : t₂.tf tfRa = t₁.tf tfRa
  a7 : t₂.tf tfA7 = nrSigreturn
  /-- The words on the stack of the program are still there. -/
  stackA0 : getFsLong t₂.pgdir (t₁.tf tfSp + 8) mm = .ok (t.tf tfA0) mm
  stackPc : getFsLong t₂.pgdir (t₁.tf tfSp + 12) mm = .ok (t.tf tfMepc) mm
  stackSp : getFsLong t₂.pgdir (t₁.tf tfSp + 16) mm = .ok (t.tf tfSp) mm

section

variable {k k₁ k₂ : Kernel} {me : Slot} {t t₁ t₂ : Task} {i : Fin 32}
  {E : Minix.Halt → Kernel → Prop}

theorem HandlerReturns.wp_sysSigreturn (h : HandlerReturns t t₁ t₂ k₂.fs.mm)
    (ht₂ : k₂.task me = some t₂) : wp (sysSigreturn me) (fun _ k₃ => k₃.task me =
      some (t₂.leave (t.tf tfA0) (t.tf tfMepc) (t.tf tfSp))) E k₂ := by
  rw [sysSigreturn, wp_bind, wp_getTask ht₂]
  dsimp only
  rw [h.sp, wp_bind, wp_liftMm, wp_of_ok h.stackA0, wp_bind, wp_updateTask, wp_bind, wp_liftMm]
  refine (wp_of_ok h.stackPc).mpr ?_
  rw [wp_bind, wp_updateTask, wp_bind, wp_liftMm]
  refine (wp_of_ok h.stackSp).mpr ?_
  rw [wp_bind, wp_updateTask, wp_pure, task_setTask_self, task_setMm,
    task_setTask_self, task_setMm, task_setTask_self, task_setMm, ht₂]
  rfl

/-- Every register but `x0` is `ra`, `sp`, `a0`, `a7`, one that a handler saves or
a temporary. -/
theorem register_cases (r : Fin 32) : r = 0 ∨ r = 1 ∨ r = 2 ∨ r = 10 ∨ r = 17 ∨
    r ∈ calleeSaved ∨ r ∈ temporaries := by
  revert r
  decide

theorem leave_regSlot {r : Fin 32} {a0 pc sp : Word} (h0 : r ≠ 0) (h2 : r ≠ 2) (h10 : r ≠ 10) :
    (t.leave a0 pc sp).tf (regSlot r) = t.tf (regSlot r) := by
  have hne : regSlot r ≠ tfSp ∧ regSlot r ≠ tfMepc ∧ regSlot r ≠ tfA0 := by
    revert r
    decide
  dsimp only [Task.leave]
  rw [update_of_ne hne.1, update_of_ne hne.2.1, update_of_ne hne.2.2]

theorem enter_calleeSaved {r : Fin 32} (h : r ∈ calleeSaved) :
    (t.enter i).tf (regSlot r) = t.tf (regSlot r) := by
  have hne : regSlot r ≠ tfMepc ∧ regSlot r ≠ tfRa ∧ regSlot r ≠ tfA0 ∧ regSlot r ≠ tfSp := by
    revert r
    decide
  dsimp only [Task.enter]
  rw [update_of_ne hne.1, update_of_ne hne.2.1, update_of_ne hne.2.2.1, update_of_ne hne.2.2.2]

/-- The registers of the program once the handler has been left. -/
theorem sameRegisters_leave_iff (h : HandlerReturns t (t.enter i) t₂ k₂.fs.mm) :
    SameRegisters t (t₂.leave (t.tf tfA0) (t.tf tfMepc) (t.tf tfSp)) ↔
      t.tf tfRa = (t.sigaction i).restorer ∧ t.tf tfA7 = nrSigreturn ∧
        ∀ r ∈ temporaries, t₂.tf (regSlot r) = t.tf (regSlot r) := by
  have hra : t₂.tf (regSlot 1) = (t.sigaction i).restorer := h.ra.trans rfl
  have hother {r : Fin 32} (hr : r ∈ temporaries) : r ≠ 0 ∧ r ≠ 2 ∧ r ≠ 10 := by
    revert r
    decide
  constructor
  · rintro ⟨-, hsame⟩
    refine ⟨?_, ?_, fun r hr => ?_⟩
    · rw [← hra, ← leave_regSlot (by decide) (by decide) (by decide), hsame 1 (by decide)]
      rfl
    · rw [← h.a7, tfA7, ← leave_regSlot (t := t₂) (by decide) (by decide) (by decide)]
      exact (hsame 17 (by decide)).symm
    · rw [← hsame r (hother hr).1]
      exact (leave_regSlot (hother hr).1 (hother hr).2.1 (hother hr).2.2).symm
  · rintro ⟨hra', ha7, htemp⟩
    refine ⟨rfl, fun r hr => ?_⟩
    rcases register_cases r with rfl | rfl | rfl | rfl | rfl | hsaved | hr'
    · exact absurd rfl hr
    · rw [leave_regSlot (by decide) (by decide) (by decide), hra, ← hra']
      rfl
    · rfl
    · rfl
    · rw [leave_regSlot (by decide) (by decide) (by decide)]
      exact h.a7.trans ha7.symm
    · have hne : r ≠ 2 ∧ r ≠ 10 := by
        revert r
        decide
      rw [leave_regSlot hr hne.1 hne.2, h.saved r hsaved, enter_calleeSaved hsaved]
    · rw [leave_regSlot (hother hr').1 (hother hr').2.1 (hother hr').2.2, htemp r hr']

end

/-- The task is interrupted with `ra` and `a7` in its registers. -/
def interruptedWith (ra a7 : Word) : Task :=
  { usr1Task 0 with tf := update (update (usr1Task 0).tf tfRa ra) tfA7 a7 }

/-- A handler that returns at once. -/
def Task.returns (t : Task) : Task := { t with tf := update t.tf tfA7 nrSigreturn }

/-- The state in which the handler that returns at once calls `sigreturn`. -/
def usr1Returns (ra a7 : Word) : Kernel :=
  (after (doSignal 1 9) (runsAlone (interruptedWith ra a7))).setTask 1
    (some ((interruptedWith ra a7).enter 9).returns)

/-- The program of `d` has the word `v` at `a`. -/
def HasLong (μ : Mem) (d a v : Word) : Prop :=
  translateUser μ d a ≠ -1 ∧ load32 μ (translateUser μ d a) = v

instance {μ : Mem} {d a v : Word} : Decidable (HasLong μ d a v) := by
  unfold HasLong
  infer_instance

theorem getFsLong_eq {d a v : Word} {mm : Mm.State} (h : HasLong mm.mem d a v) :
    getFsLong d a mm = .ok v mm := by
  obtain ⟨hmap, rfl⟩ := h
  show (if translateUser mm.mem d a = -1 then _ else _ : Mm.M Word) mm = _
  rw [if_neg hmap]
  rfl

/-- Register `r` of the interrupted program is on its stack, `off` above `sp`. -/
abbrev Stacked (ra a7 off : Word) (r : Fin 100) : Prop :=
  HasLong (usr1Returns ra a7).fs.mm.mem ((interruptedWith ra a7).enter 9).returns.pgdir
    (((interruptedWith ra a7).enter 9).tf tfSp + off) ((interruptedWith ra a7).tf r)

theorem handlerReturns_usr1 (ra a7 : Word)
    (h : Stacked ra a7 8 tfA0 ∧ Stacked ra a7 12 tfMepc ∧ Stacked ra a7 16 tfSp) :
    HandlerReturns (interruptedWith ra a7) ((interruptedWith ra a7).enter 9)
      ((interruptedWith ra a7).enter 9).returns (usr1Returns ra a7).fs.mm where
  sp := rfl
  saved r hr := by
    refine update_of_ne ?_ _ _
    revert r
    decide
  ra := rfl
  a7 := rfl
  stackA0 := getFsLong_eq h.1
  stackPc := getFsLong_eq h.2.1
  stackSp := getFsLong_eq h.2.2

end LinuxRv.Proc
