import LinuxRv.Proc.Roster

/-!
Process numbers.

`find_empty_process` counts `last_pid` up, from the largest positive number on to
1, until no task has it, zombies included. Whatever else happens to the task
table, a number is only ever given to a new task and only goes away with one, so
numbers stay unique. At most 64 of them are taken at a time, so the search ends
after at most 65 steps.
-/

namespace LinuxRv.Proc

open ByteMemory Prog Fs Minix Function Option Proc.Kernel

namespace Pids

/-! ### Runs -/

/-- What changes process numbers. `do_exit` is two calls; in between it closes
files, which may sleep, and others run. -/
inductive Call
  | fork (r : Word) (me : Slot)
  | thread (fn : Word) (me : Slot)
  | exitStart (me : Slot)
  | exitEnd (me : Slot) (code : Word)
  | waitpid (me : Slot) (pid statAddr options : Word)

def Call.run : Call → ProcM PUnit
  | .fork r me => discard (sysFork r me)
  | .thread fn me => discard (kernelThread fn me)
  | .exitStart me => Proc.exitStart me
  | .exitEnd me code => Proc.exitEnd me code
  | .waitpid me pid statAddr options => discard (sysWaitpid me pid statAddr options)

def Call.caller : Call → Slot
  | .fork _ me => me
  | .thread _ me => me
  | .exitStart me => me
  | .exitEnd me _ => me
  | .waitpid me _ _ _ => me

/-- The number of the task in a slot. -/
def pid (k : Kernel) (i : Slot) : Option Word := (k.task i).map Task.pid

/-- There is only the idle task. -/
structure Booted (k : Kernel) : Prop where
  others : ∀ i, i ≠ 0 → k.task i = none
  lastPid : 0 ≤ k.lastPid.toInt

/-- States after any sequence of calls, by any tasks, with anything in between
that leaves process numbers alone. A call that sleeps or ends its task has
changed what it has changed by then. -/
inductive Reached : Kernel → Prop
  | boot {k : Kernel} (h : Booted k) : Reached k
  | call {k k' : Kernel} (c : Call) (h : Reached k) (hc : k.task c.caller ≠ none)
      (hrun : c.run k = .ok ⟨⟩ k') : Reached k'
  | stop {k k' : Kernel} {e : Minix.Halt} (c : Call) (h : Reached k) (hc : k.task c.caller ≠ none)
      (he : ∀ m, e ≠ .panic m) (hrun : c.run k = .error e k') : Reached k'
  | other {k k' : Kernel} (h : Reached k) (hpid : pid k' = pid k)
      (hlast : k'.lastPid = k.lastPid) : Reached k'

/-! ### The invariant -/

/-- Tasks other than the idle task have positive numbers, each its own. -/
structure Inv (k : Kernel) : Prop where
  positive : ∀ {i p}, i ≠ 0 → pid k i = some p → 0 < p.toInt
  unique : ∀ {i j p}, i ≠ 0 → j ≠ 0 → pid k i = some p → pid k j = some p → i = j
  lastPid : 0 ≤ k.lastPid.toInt

section

variable {i : Slot} {options p statAddr : Word} {k k' : Kernel} {me : Slot}

theorem Inv.congr (h : Inv k) (hpid : pid k' = pid k) (hlast : k'.lastPid = k.lastPid) : Inv k' where
  positive := by
    rw [hpid]
    exact h.positive
  unique := by
    rw [hpid]
    exact h.unique
  lastPid := hlast.symm ▸ h.lastPid

theorem pid_setTask (k : Kernel) (i : Slot) (o : Option Task) :
    pid (k.setTask i o) = update (pid k) i (o.map Task.pid) := by
  funext j
  rcases eq_or_ne j i with rfl | hne
  · rw [update_self]
    exact congrArg _ (update_self ..)
  · rw [update_of_ne hne]
    exact congrArg _ (update_of_ne hne ..)

/-- A task goes away. -/
theorem Inv.clear (h : Inv k) (i : Slot) : Inv (k.setTask i none) := by
  have hold {j : Slot} {p : Word} (hp : pid (k.setTask i none) j = some p) : pid k j = some p := by
    rw [pid_setTask] at hp
    rcases eq_or_ne j i with rfl | hne
    · rw [update_self] at hp
      cases hp
    · rwa [update_of_ne hne] at hp
  exact ⟨fun hi hp => h.positive hi (hold hp),
    fun hi hj hp hp' => h.unique hi hj (hold hp) (hold hp'), h.lastPid⟩

/-- A task with a fresh number comes in. -/
theorem Inv.add (h : Inv k) {nr : Slot} (hfresh : k.FreshPid p)
    (hpid : pid k' = update (pid k) nr (some p)) (hlast : k'.lastPid = p) : Inv k' := by
  have hne {j : Slot} {q : Word} (hq : pid k j = some q) : q ≠ p := by
    obtain ⟨t, ht, rfl⟩ := map_eq_some_iff.mp hq
    exact hfresh.ne (table_of_task ht)
  have hcases {j : Slot} {q : Word} (hq : pid k' j = some q) : j = nr ∧ q = p ∨ pid k j = some q := by
    rw [hpid] at hq
    rcases eq_or_ne j nr with rfl | hj
    · rw [update_self, some.injEq] at hq
      exact .inl ⟨rfl, hq.symm⟩
    · rw [update_of_ne hj] at hq
      exact .inr hq
  refine ⟨fun {i q} hi hq => ?_, fun {i j q} hi hj hq hq' => ?_, hlast.symm ▸ hfresh.nonneg⟩
  · rcases hcases hq with ⟨-, rfl⟩ | hq
    · exact hfresh.pos h.lastPid
    · exact h.positive hi hq
  · rcases hcases hq with ⟨rfl, rfl⟩ | hold <;> rcases hcases hq' with ⟨rfl, hqp⟩ | hold'
    · rfl
    · exact absurd rfl (hne hold')
    · exact absurd hqp (hne hold)
    · exact h.unique hi hj hold hold'

/-! ### Each part of the calls -/

theorem preserves_liftFs {α : Type} (c : FsM α) : Preserves Inv (liftFs c) := by
  intro k h
  rw [wp_liftFs]
  exact wp_of_forall (fun _ _ => h.congr rfl rfl) fun _ _ => h.congr rfl rfl

theorem preserves_liftMm {α : Type} (c : Mm.M α) : Preserves Inv (liftMm c) := preserves_liftFs _

theorem preserves_getTask (i : Slot) : Preserves Inv (getTask i) :=
  fun _ h => wp_getTask_of h fun _ _ => h

theorem preserves_updateTask {f : Task → Task} (hf : ∀ t, (f t).pid = t.pid) :
    Preserves Inv (updateTask i f) := by
  refine Preserves.modify fun k h => h.congr ?_ rfl
  rw [pid_setTask, map_map, show Task.pid ∘ f = Task.pid from funext hf]
  exact update_eq_self i (pid k)

theorem preserves_addSignal (i : Slot) (bit : Word) : Preserves Inv (addSignal i bit) :=
  preserves_updateTask fun _ => rfl

theorem preserves_release (i : Slot) : Preserves Inv (release i) := by
  refine (preserves_getTask i).bind fun _ => Preserves.ite (Preserves.throw _) ?_
  exact (Preserves.modify fun _ h => h.clear i).bind fun _ => preserves_liftMm _

theorem preserves_orphan : Preserves Inv (orphan me) := by
  refine (preserves_getTask me).bind fun _ => Preserves.forN fun i => Preserves.get.bind fun _ => ?_
  split
  · exact Preserves.pure _
  · refine Preserves.ite ?_ (Preserves.pure _)
    refine Preserves.bind (preserves_updateTask (by exact fun _ => rfl)) fun _ => ?_
    exact Preserves.ite (preserves_addSignal _ _) (Preserves.pure _)

theorem preserves_exitStart : Preserves Inv (exitStart me) := by
  refine (preserves_getTask me).bind fun _ => (preserves_liftMm _).bind fun _ => ?_
  exact Preserves.bind (preserves_updateTask (by exact fun _ => rfl)) fun _ => preserves_orphan

theorem preserves_tellFather (father : Word) : Preserves Inv (tellFather me father) := by
  refine Preserves.get.bind fun k => ?_
  split
  · exact preserves_addSignal _ _
  · exact preserves_release me

theorem preserves_exitEnd {code : Word} : Preserves Inv (exitEnd me code) := by
  refine Preserves.bind (preserves_updateTask (by exact fun _ => rfl)) fun _ => ?_
  exact (preserves_getTask me).bind fun _ => preserves_tellFather _

theorem preserves_waitStep : Preserves Inv (waitStep me p statAddr options i) := by
  refine (preserves_getTask me).bind fun _ => Preserves.get.bind fun _ => ?_
  split
  · exact Preserves.pure _
  · refine Preserves.ite (Preserves.pure _) ?_
    split
    · refine Preserves.ite (Preserves.pure _) ?_
      exact (preserves_liftMm _).bind fun _ => Preserves.pure _
    · refine Preserves.bind (preserves_updateTask (by exact fun _ => rfl)) fun _ => ?_
      refine (preserves_release i).bind fun _ => ?_
      exact (preserves_liftMm _).bind fun _ => Preserves.pure _
    · exact Preserves.pure _

theorem preserves_waitLoop (l : List Slot) (flag : Bool) :
    Preserves Inv (waitLoop me p statAddr options l flag) := by
  induction l generalizing flag with
  | nil =>
    rw [waitLoop]
    exact Preserves.ite (Preserves.ite (Preserves.pure _) (Preserves.throw _)) (Preserves.pure _)
  | cons i l ih =>
    refine preserves_waitStep.bind fun r => ?_
    split
    · exact Preserves.pure _
    · exact ih _

theorem preserves_sysWaitpid : Preserves Inv (sysWaitpid me p statAddr options) :=
  (preserves_getTask me).bind fun _ => (preserves_liftMm _).bind fun _ => preserves_waitLoop _ _

theorem pid_eq_table (k : Kernel) : pid k = fun i => (k.table i).map Ident.pid := by
  funext i
  rw [table, map_map]
  rfl

theorem pid_of_table {z : Ident} (h : k.table i = some z) : pid k i = some z.pid :=
  (congrFun (pid_eq_table k) i).trans (congrArg _ h)

theorem task_ne_none (h : k.table i ≠ none) : k.task i ≠ none := by
  intro hnone
  rw [table, hnone] at h
  exact h rfl

theorem Inv.forked (h : Inv k) {cur : Task} (hk : Forked k cur k') : Inv k' := by
  obtain ⟨p, hfresh, hlast, hsame | ⟨nr, -, htable⟩⟩ := hk
  · refine ⟨?_, ?_, hlast.symm ▸ hfresh.nonneg⟩
    · rw [pid_eq_table, hsame, ← pid_eq_table]
      exact h.positive
    · rw [pid_eq_table, hsame, ← pid_eq_table]
      exact h.unique
  · have hpid : pid k' = update (pid k) nr (some p) := by
      rw [pid_eq_table, htable, pid_eq_table]
      funext i
      rcases eq_or_ne i nr with rfl | hne
      · rw [update_self, update_self]
        rfl
      · rw [update_of_ne hne, update_of_ne hne]
    exact h.add hfresh hpid hlast

/-- Every call keeps the invariant, unless the kernel panics. -/
theorem Call.wp_run (c : Call) (h : Inv k) (hc : k.task c.caller ≠ none) :
    wp c.run (fun _ k' => Inv k') (fun e k' => (∀ m, e ≠ .panic m) → Inv k') k := by
  obtain ⟨cur, hcur⟩ := ne_none_iff_exists'.mp hc
  cases c with
  | fork r me =>
    refine wp_map.mpr ((wp_sysFork_table hcur).mono (fun _ _ hk => h.forked hk) ?_)
    rintro _ k' ⟨m, rfl⟩ hne
    exact absurd rfl (hne m)
  | thread fn me =>
    exact wp_map.mpr ((wp_kernelThread_table hcur).mono (fun _ _ hk => h.forked hk)
      fun _ _ hfalse => hfalse.elim)
  | exitStart me => exact (preserves_exitStart k h).mono (fun _ _ h => h) fun _ _ h _ => h
  | exitEnd me code => exact (preserves_exitEnd k h).mono (fun _ _ h => h) fun _ _ h _ => h
  | waitpid me p statAddr options =>
    exact wp_map.mpr ((preserves_sysWaitpid k h).mono (fun _ _ h => h) fun _ _ h _ => h)

theorem Reached.inv (h : Reached k) : Inv k := by
  induction h with
  | boot h =>
    have hnone {i : Slot} (hi : i ≠ 0) : pid _ i = none := congrArg _ (h.others i hi)
    refine ⟨fun hi hp => ?_, fun hi _ hp => ?_, h.lastPid⟩
    · cases (hnone hi).symm.trans hp
    · cases (hnone hi).symm.trans hp
  | call c _ hc hrun ih => exact (c.wp_run ih hc).of_ok hrun
  | stop c _ hc he hrun ih => exact (c.wp_run ih hc).of_error hrun he
  | other _ hpid hlast ih => exact ih.congr hpid hlast

/-- A whole `do_exit`. -/
theorem Reached.doExit {rd : RamDisk} {code : Word} (h : Reached k) {cur : Task}
    (hcur : k.task me = some cur) (hrun : doExit rd me code k = .ok ⟨⟩ k') : Reached k' := by
  obtain ⟨k₁, k₂, h₁, hsame, h₂⟩ := exists_of_doExit hrun
  have hme : k₂.table me ≠ none := by
    rw [hsame.table, ((wp_exitStart hcur).of_ok h₁).1, Table.adopt, table_of_task hcur]
    simp
  have hpid : pid k₂ = pid k₁ := by rw [pid_eq_table, hsame.table, ← pid_eq_table]
  refine .call (.exitEnd me code) (.other (.call (.exitStart me) h ?_ h₁) hpid hsame.lastPid) ?_ h₂
  · rw [Call.caller, hcur]
    simp
  · exact task_ne_none hme

/-- What `find_empty_process` returns: a free slot that is not the idle task's, or
`none` for `-EAGAIN` when there is none. -/
def FindsSlot (k : Kernel) : Option Slot → Prop
  | some i => i ≠ 0 ∧ k.task i = none
  | none => ∀ i, i ≠ 0 → k.task i ≠ none

theorem findsSlot (k : Kernel) : FindsSlot k (Mm.findEmptyProcess k.taken) := by
  have hmem (i : Slot) : i ∈ (List.finRange Mm.nrTasks).drop 1 ↔ i ≠ 0 := by
    revert i
    decide
  cases hfind : Mm.findEmptyProcess k.taken with
  | some i =>
    refine ⟨(hmem i).mp (List.mem_of_find?_eq_some hfind), ?_⟩
    exact task_of_findEmptyProcess hfind
  | none =>
    intro i hi
    have htaken := List.find?_eq_none.mp hfind i ((hmem i).mpr hi)
    simpa [taken] using htaken

end

/-- In every state that forks, new threads, exits and reaping lead to, the tasks
other than the idle task have positive numbers that differ from each other; and
`find_empty_process` returns, with a free slot from 1 on or with `-EAGAIN` if there
is none. -/
theorem pids_unique {k : Kernel} (h : Reached k) :
    (∀ i t, i ≠ 0 → k.task i = some t → 0 < t.pid.toInt) ∧
    (∀ i j t u, i ≠ 0 → j ≠ 0 → k.task i = some t → k.task j = some u → t.pid = u.pid → i = j) ∧
    wp findEmptyProcess (fun nr _ => FindsSlot k nr) (fun _ _ => False) k := by
  have hinv := h.inv
  have hpid {i : Slot} {t : Task} (ht : k.task i = some t) : pid k i = some t.pid :=
    congrArg _ ht
  refine ⟨fun i t hi ht => hinv.positive hi (hpid ht), fun i j t u hi hj ht hu heq => ?_, ?_⟩
  · exact hinv.unique hi hj (hpid ht) (heq ▸ hpid hu)
  · exact wp_findEmptyProcess fun p _ => findsSlot k

/-- The idle task, with `last_pid` at its largest value and two free pages. -/
def idleTask : Kernel :=
  let k := single ⟨fun _ => 0, fun n => if n < 2 then 0 else 1, false⟩ 0
  { k with
    task := fun i => (k.task i).map fun t => { t with pid := 0 }
    lastPid := 0x7fffffff }

def oneThread : Kernel := after (kernelThread 0 0) idleTask
def twoThreads : Kernel := after (kernelThread 0 0) oneThread

theorem booted_idleTask : Booted idleTask where
  others i hi := by
    have hnone : (single ⟨fun _ => 0, fun n => if n < 2 then 0 else 1, false⟩ 0).task i =
        none := if_neg hi
    change Option.map _ _ = none
    rw [hnone]
    rfl
  lastPid := by decide

theorem reached_thread {k k' : Kernel} {me : Slot} {fn : Word} {ret : ℤ} (h : Reached k)
    (hme : k.task me ≠ none) (hrun : kernelThread fn me k = .ok ret k') : Reached k' := by
  refine .call (.thread fn me) h hme ?_
  change discard (kernelThread fn me) k = _
  simp only [discard, Functor.mapConst, comp_apply, EStateM.map, hrun]

/-- The two threads that are started after the wrap get the numbers 1 and 2. -/
theorem pids_unique_after_wrap : pid twoThreads 1 = some 1 ∧ pid twoThreads 2 = some 2 ∧
    ∀ i j t u, i ≠ 0 → j ≠ 0 → twoThreads.task i = some t → twoThreads.task j = some u →
      t.pid = u.pid → i = j := by
  have hfirst : returns (kernelThread 0 0) idleTask = true := by decide +kernel
  have hsecond : returns (kernelThread 0 0) oneThread = true := by decide +kernel
  obtain ⟨r₁, h₁⟩ := ok_after_of_returns hfirst
  obtain ⟨r₂, h₂⟩ := ok_after_of_returns hsecond
  have hcaller : idleTask.table 0 ≠ none ∧ oneThread.table 0 ≠ none := by decide +kernel
  have hstarted : Reached oneThread :=
    reached_thread (.boot booted_idleTask) (task_ne_none hcaller.1) h₁
  have hreached : Reached twoThreads :=
    reached_thread hstarted (task_ne_none hcaller.2) h₂
  have hone : twoThreads.table 1 = some ⟨1, 0, 0, false⟩ := by decide +kernel
  have htwo : twoThreads.table 2 = some ⟨2, 0, 0, false⟩ := by decide +kernel
  exact ⟨pid_of_table hone, pid_of_table htwo, (pids_unique hreached).2.1⟩

end Pids

end LinuxRv.Proc
