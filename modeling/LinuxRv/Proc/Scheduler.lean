import LinuxRv.Proc.Kill

/-!
`schedule` (`kernel/sched.c`).

The loop that gives out time ends when some task that can run has a counter that
is not zero, or when no task can run. `sys_nice` lets a program lower its priority
to zero, so that its counter stays zero, and raise it until the counters
overflow; in between the loop ends at the second round at the latest.
-/

namespace LinuxRv.Proc

open ByteMemory Prog Function Option Proc.Kernel

/-! ### The scheduler -/

/-- `SIGALRM` -/
def sigAlrm : Word := 1 <<< 13

/-- `_BLOCKABLE` -/
def blockable : Word := ~~~0x40100

/-- An alarm that has expired is sent. -/
def Task.expire (t : Task) (jiffies : Word) : Task :=
  if t.alarm ≠ 0 ∧ t.alarm.toInt < jiffies.toInt then
    { t with signal := t.signal ||| sigAlrm, alarm := 0 }
  else t

/-- A signal ends an interruptible sleep. -/
def Task.rouse (t : Task) : Task :=
  if t.signal &&& ~~~(blockable &&& t.blocked) ≠ 0 ∧ t.state = .interruptible then
    { t with state := .running }
  else t

/-- A change to all tasks but the idle one. -/
def Kernel.mapTasks (k : Kernel) (f : Task → Task) : Kernel :=
  { k with task := fun i => if i = 0 then k.task i else (k.task i).map f }

/-- The first loop of `schedule`. -/
def Kernel.checkAlarms (k : Kernel) : Kernel :=
  k.mapTasks fun t => (t.expire k.jiffies).rouse

/-- The search for the task with most time left: the time and the slot. -/
def pick (k : Kernel) : List Slot → ℤ → Slot → ℤ × Slot
  | [], c, next => (c, next)
  | i :: l, c, next =>
    match k.task i with
    | none => pick k l c next
    | some t =>
      if t.state = .running ∧ c < t.counter.toInt then pick k l t.counter.toInt i
      else pick k l c next

/-- All tasks get time again. -/
def Task.recount (t : Task) : Task :=
  { t with counter := t.counter.sshiftRight 1 + t.priority }

/-- At most `n` rounds of the loop proper: the task to switch to. -/
def choose : ℕ → Kernel → Option (Slot × Kernel)
  | 0, _ => none
  | n + 1, k =>
    let (c, next) := pick k fromLast (-1) 0
    if c ≠ 0 then some (next, k) else choose n (k.mapTasks Task.recount)

def schedule (n : ℕ) (k : Kernel) : Option (Slot × Kernel) := choose n k.checkAlarms

/-! ### Who changes counters and priorities -/

def sysNice (me : Slot) (increment : Word) : ProcM ℤ := do
  let cur ← getTask me
  if 0 ≤ (cur.priority - increment).toInt then
    updateTask me fun t => { t with priority := t.priority - increment }
  return 0

/-- `do_timer`, without timers: is `schedule` to be called? -/
def doTimer (me : Slot) (cpl : Bool) : ProcM Bool := do
  updateTask me fun t =>
    if cpl then { t with utime := t.utime + 1 } else { t with stime := t.stime + 1 }
  updateTask me fun t => { t with counter := t.counter - 1 }
  if 0 < (← getTask me).counter.toInt then
    return false
  else
    updateTask me fun t => { t with counter := 0 }
    if cpl then
      updateTask me fun t => { t with counter := t.priority }
      return true
    else
      return false

section

variable {k k' : Kernel} {me i : Slot} {t : Task} {l : List Slot} {c : ℤ} {next : Slot}

/-- A task that can run. -/
def Kernel.Runs (k : Kernel) (i : Slot) (t : Task) : Prop := k.task i = some t ∧ t.state = .running

/-- The search finds a task with most time left. -/
theorem pick_spec (k : Kernel) (l : List Slot) (c : ℤ) (next : Slot) : c ≤ (pick k l c next).1 ∧
      (∀ i ∈ l, ∀ t, k.Runs i t → t.counter.toInt ≤ (pick k l c next).1) ∧
      (pick k l c next = (c, next) ∨ ∃ t, (pick k l c next).2 ∈ l ∧
        k.Runs (pick k l c next).2 t ∧ t.counter.toInt = (pick k l c next).1) := by
  induction l generalizing c next with
  | nil => exact ⟨le_rfl, fun _ h => (List.not_mem_nil h).elim, .inl rfl⟩
  | cons i l ih =>
    -- the rest of the search is for a time that is at least `c` and that of task `i`
    have hrest {c' : ℤ} {next' : Slot} (hc : c ≤ c') (hi : ∀ t, k.Runs i t → t.counter.toInt ≤ c')
        (hnext : (c', next') = (c, next) ∨ ∃ t, next' = i ∧ k.Runs i t ∧ t.counter.toInt = c')
        (heq : pick k (i :: l) c next = pick k l c' next') :
        c ≤ (pick k (i :: l) c next).1 ∧
          (∀ j ∈ i :: l, ∀ t, k.Runs j t → t.counter.toInt ≤ (pick k (i :: l) c next).1) ∧
          (pick k (i :: l) c next = (c, next) ∨ ∃ t, (pick k (i :: l) c next).2 ∈ i :: l ∧
            k.Runs (pick k (i :: l) c next).2 t ∧
            t.counter.toInt = (pick k (i :: l) c next).1) := by
      rw [heq]
      obtain ⟨hle, hmax, hfound⟩ := ih c' next'
      refine ⟨hc.trans hle, fun j hj t ht => ?_, ?_⟩
      · rcases List.mem_cons.mp hj with rfl | hj
        · exact (hi t ht).trans hle
        · exact hmax j hj t ht
      · rcases hfound with hsame | ⟨t, hmem, ht⟩
        · rw [hsame]
          rcases hnext with hnext | ⟨t, rfl, ht⟩
          · exact .inl hnext
          · exact .inr ⟨t, .head _, ht⟩
        · exact .inr ⟨t, .tail _ hmem, ht⟩
    cases ht : k.task i with
    | none =>
      refine hrest le_rfl (fun t h => ?_) (.inl rfl) (by rw [pick, ht])
      exact absurd (ht.symm.trans h.1) (by simp)
    | some t =>
      have hsame {t' : Task} (h : k.Runs i t') : t' = t :=
        some.inj (h.1.symm.trans ht)
      by_cases hmore : t.state = .running ∧ c < t.counter.toInt
      · refine hrest hmore.2.le (fun t' h => ?_) (.inr ⟨t, rfl, ⟨ht, hmore.1⟩, rfl⟩)
          (by rw [pick, ht]; exact if_pos hmore)
        rw [hsame h]
      · refine hrest le_rfl (fun t' h => ?_) (.inl rfl) (by rw [pick, ht]; exact if_neg hmore)
        obtain rfl := hsame h
        exact not_lt.mp fun hlt => hmore ⟨h.2, hlt⟩

/-! ### Fair shares -/

/-- A task with a priority that gives it time and never too much of it. -/
structure Task.Fair (t : Task) : Prop where
  pos : 1 ≤ t.priority.toInt
  le : t.priority.toInt ≤ 2 ^ 30
  counter : 0 ≤ t.counter.toInt

def Kernel.Fair (k : Kernel) : Prop := ∀ i t, k.task i = some t → t.Fair

theorem toInt_counter_recount (h : t.Fair) :
    t.recount.counter.toInt = t.counter.toInt / 2 + t.priority.toInt := by
  obtain ⟨hpos, hle, hcounter⟩ := h
  have hlt := BitVec.toInt_lt (x := t.counter)
  rw [Task.recount, BitVec.toInt_add, BitVec.toInt_sshiftRight, Int.shiftRight_eq_div_pow]
  refine Int.bmod_eq_of_le ?_ ?_ <;> omega

theorem Task.Fair.recount (h : t.Fair) : t.recount.Fair := by
  refine ⟨h.pos, h.le, ?_⟩
  rw [toInt_counter_recount h]
  have := h.pos
  have := h.counter
  omega

theorem Kernel.Fair.mapTasks {f : Task → Task} (h : k.Fair) (hf : ∀ t, t.Fair → (f t).Fair) :
    (k.mapTasks f).Fair := by
  intro i t ht
  unfold Kernel.mapTasks at ht
  dsimp only at ht
  split_ifs at ht
  · exact h i t ht
  · obtain ⟨t', ht', rfl⟩ := map_eq_some_iff.mp ht
    exact hf t' (h i t' ht')

theorem Task.Fair.check {j : Word} (h : t.Fair) : (t.expire j).rouse.Fair := by
  unfold expire rouse
  split_ifs <;> exact ⟨h.pos, h.le, h.counter⟩

/-- The loop ends, with a task that can run if there is one. -/
def Chooses (k : Kernel) : Prop :=
  ∃ n next k', schedule n k = some (next, k') ∧
    ∀ i t, i ≠ 0 → k.checkAlarms.Runs i t → next ≠ 0 ∧ ∃ t', k'.Runs next t'

/-- What has been found if some time is left. -/
theorem found_of_nonneg (h : 0 ≤ (pick k fromLast (-1) 0).1) :
    (pick k fromLast (-1) 0).2 ≠ 0 ∧ ∃ t, k.Runs (pick k fromLast (-1) 0).2 t ∧
      t.counter.toInt = (pick k fromLast (-1) 0).1 := by
  obtain ⟨-, -, hsame | ⟨t, hmem, ht, heq⟩⟩ := pick_spec k fromLast (-1) 0
  · rw [hsame] at h
    exact absurd h (by decide)
  · exact ⟨mem_fromLast.mp hmem, t, ht, heq⟩

theorem le_pick (hi : i ≠ 0) (ht : k.Runs i t) : t.counter.toInt ≤ (pick k fromLast (-1) 0).1 :=
  (pick_spec k fromLast (-1) 0).2.1 i (mem_fromLast.mpr hi) t ht

theorem choose_of_ne (n : ℕ) (h : (pick k fromLast (-1) 0).1 ≠ 0) :
    choose (n + 1) k = some ((pick k fromLast (-1) 0).2, k) :=
  if_pos h

theorem choose_of_eq (n : ℕ) (h : (pick k fromLast (-1) 0).1 = 0) :
    choose (n + 1) k = choose n (k.mapTasks Task.recount) :=
  if_neg (not_not_intro h)

theorem Kernel.Runs.recount (hi : i ≠ 0) (h : k.Runs i t) :
    (k.mapTasks Task.recount).Runs i t.recount := by
  refine ⟨?_, h.2⟩
  rw [mapTasks]
  dsimp only
  rw [if_neg hi, h.1, map_some]

/-- With fair shares two rounds are enough. -/
theorem Kernel.Fair.chooses (h : k.Fair) : Chooses k := by
  have hfair : k.checkAlarms.Fair := h.mapTasks fun _ ht => ht.check
  by_cases hzero : (pick k.checkAlarms fromLast (-1) 0).1 = 0
  · obtain ⟨hne, t, ht, -⟩ := found_of_nonneg (k := k.checkAlarms) hzero.ge
    have hle := le_pick hne (ht.recount hne)
    rw [toInt_counter_recount (hfair _ t ht.1)] at hle
    have hpos := (hfair _ t ht.1).pos
    have hcounter := (hfair _ t ht.1).counter
    refine ⟨2, _, _, (choose_of_eq 1 hzero).trans (choose_of_ne 0 (by omega)), fun _ _ _ _ => ?_⟩
    obtain ⟨hne', t', ht', -⟩ := found_of_nonneg (k := k.checkAlarms.mapTasks Task.recount) (by omega)
    exact ⟨hne', t', ht'⟩
  · refine ⟨1, _, _, choose_of_ne 0 hzero, fun i t hi ht => ?_⟩
    obtain ⟨hne, t', ht', -⟩ := found_of_nonneg ((hfair i t ht.1).counter.trans (le_pick hi ht))
    exact ⟨hne, t', ht'⟩

/-! ### Whole runs -/

/-- What happens to counters and priorities. -/
inductive SchedEvent
  | nice (me : Slot) (increment : Word)
  | fork (retFromTrap : Word) (me : Slot)
  | kernelThread (fn : Word) (me : Slot)
  | tick (me : Slot) (cpl : Bool)
  | schedule (n : ℕ)
  /-- Tasks sleep, are woken up, get signals, end and are released. -/
  | other (k' : Kernel)

def SchedEvent.Step (k : Kernel) : SchedEvent → Kernel → Prop
  | .nice me increment, k' => ∃ ret, sysNice me increment k = .ok ret k'
  | .fork r me, k' => ∃ cur, k.task me = some cur ∧ ∃ ret, sysFork r me k = .ok ret k'
  | .kernelThread fn me, k' =>
    ∃ cur, k.task me = some cur ∧ ∃ ret, Proc.kernelThread fn me k = .ok ret k'
  | .tick me cpl, k' => ∃ ret, doTimer me cpl k = .ok ret k'
  | .schedule n, k' => ∃ next, Proc.schedule n k = some (next, k')
  | .other k₁, k' => k' = k₁ ∧ ∀ i t', k'.task i = some t' →
      ∃ t, k.task i = some t ∧ t'.counter = t.counter ∧ t'.priority = t.priority

/-- No priority is zero or above `2 ^ 30`. -/
def SchedEvent.Moderate (k : Kernel) : SchedEvent → Prop
  | .nice me increment => ∀ t, k.task me = some t → 0 ≤ (t.priority - increment).toInt →
      1 ≤ (t.priority - increment).toInt ∧ (t.priority - increment).toInt ≤ 2 ^ 30
  | _ => True

/-- The states reached with events that are `ok`. -/
inductive SchedReach (ok : Kernel → SchedEvent → Prop) (k₀ : Kernel) : Kernel → Prop
  | start : SchedReach ok k₀ k₀
  | step {k k' : Kernel} {e : SchedEvent} (h : SchedReach ok k₀ k) (hok : ok k e)
      (hstep : e.Step k k') : SchedReach ok k₀ k'

/-- There is only task 0, as in `INIT_TASK`. -/
def Booted (k : Kernel) : Prop :=
  (∃ t, k.task 0 = some t ∧ t.counter = 15 ∧ t.priority = 15) ∧ ∀ i, i ≠ 0 → k.task i = none

theorem Booted.fair (h : Booted k) : k.Fair := by
  obtain ⟨⟨t₀, ht₀, hcounter, hpriority⟩, hnone⟩ := h
  intro i t ht
  by_cases hi : i = 0
  · subst hi
    obtain rfl : t₀ = t := some.inj (ht₀.symm.trans ht)
    exact ⟨by rw [hpriority]; decide, by rw [hpriority]; decide, by rw [hcounter]; decide⟩
  · exact absurd (ht.symm.trans (hnone i hi)) (by simp)

theorem Kernel.Fair.update (h : k.Fair) {o : Option Task} (ho : ∀ t, o = some t → t.Fair)
    (htask : k'.task = update k.task me o) : k'.Fair := by
  intro i t ht
  rw [htask] at ht
  by_cases hi : i = me
  · rw [hi, update_self] at ht
    exact ho t ht
  · rw [update_of_ne hi] at ht
    exact h i t ht

/-- A change to one task. -/
theorem Kernel.Fair.updateTask {f : Task → Task} (h : k.Fair)
    (hf : ∀ t, k.task me = some t → t.Fair → (f t).Fair) :
    (k.setTask me ((k.task me).map f)).Fair := by
  refine h.update (fun t ht => ?_) rfl
  obtain ⟨t', ht', rfl⟩ := map_eq_some_iff.mp ht
  exact hf t' ht' (h me t' ht')

/-- A task is added that has a full share of time, and starts to run. -/
theorem Kernel.Fair.share {child cur : Task} (h : k.Fair) (hchild : child.Fair) :
    ((k.setTask i (some child)).shared i cur).Fair := by
  have hset : (k.setTask i (some child)).Fair :=
    h.update (fun t ht => some.inj ht ▸ hchild) rfl
  refine hset.update (fun t ht => ?_) rfl
  obtain ⟨t', ht', rfl⟩ := map_eq_some_iff.mp ht
  exact ⟨(hset i t' ht').pos, (hset i t' ht').le, (hset i t' ht').counter⟩

theorem Task.Fair.full (h : t.Fair) : 0 ≤ t.priority.toInt := h.pos.trans' (by decide)

/-- A tick takes time from the task, or gives it a new share. -/
theorem wp_doTimer {cpl : Bool} {Q : Bool → Kernel → Prop} {E : Minix.Halt → Kernel → Prop}
    (ht : k.task me = some t)
    (hQ : ∀ b t', t'.priority = t.priority → t'.counter = t.counter - 1 ∧ 0 < t'.counter.toInt ∨
      t'.counter = 0 ∨ t'.counter = t.priority → Q b (k.setTask me (some t'))) :
    wp (doTimer me cpl) Q E k := by
  have htimes : (if cpl then { t with utime := t.utime + 1 }
      else { t with stime := t.stime + 1 }).priority = t.priority ∧
      (if cpl then { t with utime := t.utime + 1 }
      else { t with stime := t.stime + 1 }).counter = t.counter := by
    split_ifs <;> exact ⟨rfl, rfl⟩
  rw [doTimer, wp_bind, wp_updateTask, wp_bind, wp_updateTask, wp_bind, ht, task_setTask_self,
    map_some, map_some, setTask_setTask, wp_getTask task_setTask_self]
  generalize (if cpl then { t with utime := t.utime + 1 }
    else { t with stime := t.stime + 1 } : Task) = t₁ at htimes ⊢
  obtain ⟨hpriority, hcounter⟩ := htimes
  refine wp_ite.mpr ⟨fun hpos => wp_pure.mpr ?_, fun _ => ?_⟩
  · exact hQ _ _ hpriority (.inl ⟨congrArg (· - 1) hcounter, hpos⟩)
  · rw [wp_bind, wp_updateTask, task_setTask_self, map_some, setTask_setTask]
    refine wp_ite.mpr ⟨fun _ => ?_, fun _ => wp_pure.mpr (hQ _ _ hpriority (.inr (.inl rfl)))⟩
    rw [wp_bind, wp_updateTask, wp_pure, task_setTask_self, map_some, setTask_setTask]
    exact hQ _ _ hpriority (.inr (.inr hpriority))

theorem wp_doTimer_fair {cpl : Bool} (h : k.Fair) :
    wp (doTimer me cpl) (fun _ k' => k'.Fair) (fun _ _ => True) k := by
  cases ht : k.task me with
  | none =>
    rw [doTimer, wp_bind, wp_updateTask, wp_bind, wp_updateTask, wp_bind, ht]
    refine wp_getTask_of trivial fun t h => ?_
    simp [setTask] at h
  | some t =>
    refine wp_doTimer ht fun b t' hpriority hcounter => ?_
    have hfair := h me t ht
    refine h.update (fun t'' ht'' => ?_) rfl
    obtain rfl := some.inj ht''
    refine ⟨hpriority ▸ hfair.pos, hpriority ▸ hfair.le, ?_⟩
    rcases hcounter with ⟨-, hpos⟩ | hzero | hfull
    · exact hpos.le
    · rw [hzero]
      decide
    · rw [hfull]
      exact hfair.full

theorem choose_fair {n : ℕ} (h : k.Fair) (hc : choose n k = some (next, k')) : k'.Fair := by
  induction n generalizing k with
  | zero => cases hc
  | succ n ih =>
    by_cases hzero : (pick k fromLast (-1) 0).1 = 0
    · rw [choose_of_eq n hzero] at hc
      exact ih (h.mapTasks fun _ ht => ht.recount) hc
    · rw [choose_of_ne n hzero] at hc
      obtain ⟨-, rfl⟩ := Prod.mk.inj (some.inj hc)
      exact h

theorem SchedEvent.Moderate.step {e : SchedEvent} (hok : e.Moderate k) (hstep : e.Step k k')
    (h : k.Fair) : k'.Fair := by
  have hret {α : Type} {c : ProcM α} {a : α}
      (hwp : wp c (fun _ k' => k'.Fair) (fun _ _ => True) k) (hc : c k = .ok a k') : k'.Fair :=
    hwp.of_ok hc
  cases e with
  | nice me increment =>
    obtain ⟨ret, hc⟩ := hstep
    refine hret ?_ hc
    rw [sysNice, wp_bind]
    refine wp_getTask_of trivial fun cur hcur => ?_
    refine wp_ite.mpr ⟨fun hnonneg => ?_, fun _ => wp_pure.mpr h⟩
    rw [wp_bind, wp_updateTask, wp_pure]
    refine h.updateTask fun t ht hfair => ?_
    obtain rfl : cur = t := some.inj (hcur.symm.trans ht)
    obtain ⟨hpos, hle⟩ := hok cur hcur hnonneg
    exact ⟨hpos, hle, hfair.counter⟩
  | fork r me =>
    obtain ⟨cur, hcur, ret, hc⟩ := hstep
    have hfair := h me cur hcur
    refine hret (wp_sysFork_any hcur (fun pid mm _ => h) (fun nr pid mm page pgdir _ _ => ?_)
      fun _ _ _ => trivial) hc
    have hchild : (childTask r { k with lastPid := pid } cur page pgdir).Fair :=
      ⟨hfair.pos, hfair.le, hfair.full⟩
    exact Kernel.Fair.share (k := { k with lastPid := pid }.setMm mm) h hchild
  | kernelThread fn me =>
    obtain ⟨cur, hcur, ret, hc⟩ := hstep
    have hfair := h me cur hcur
    refine hret (wp_kernelThread hcur (fun pid mm _ => h) fun nr pid mm page _ _ => ?_) hc
    have hchild : (threadTask fn pid k cur page).Fair := ⟨hfair.pos, hfair.le, hfair.full⟩
    exact Kernel.Fair.share (k := { k with lastPid := pid }.setMm mm) h hchild
  | tick me cpl =>
    obtain ⟨ret, hc⟩ := hstep
    exact hret (wp_doTimer_fair h) hc
  | schedule n =>
    obtain ⟨next, hc⟩ := hstep
    exact choose_fair (h.mapTasks fun _ ht => ht.check) hc
  | other k₁ =>
    obtain ⟨rfl, hsame⟩ := hstep
    intro i t' ht'
    obtain ⟨t, ht, hcounter, hpriority⟩ := hsame i t' ht'
    obtain ⟨hpos, hle, hnonneg⟩ := h i t ht
    exact ⟨hpriority ▸ hpos, hpriority ▸ hle, hcounter ▸ hnonneg⟩

theorem SchedReach.fair (hrun : SchedReach SchedEvent.Moderate k k') (h : k.Fair) : k'.Fair := by
  induction hrun with
  | start => exact h
  | step _ hok hstep ih => exact hok.step hstep ih

/-- As long as nobody asks for a priority of zero or above `2 ^ 30`, the scheduler
makes a choice. -/
theorem chooses_of_moderate (hboot : Booted k) (hrun : SchedReach SchedEvent.Moderate k k') :
    Chooses k' :=
  (hrun.fair hboot.fair).chooses

/-! ### Priority zero -/

/-- The tasks that can run have neither time nor priority. -/
structure Starved (k : Kernel) : Prop where
  runs : ∃ i t, i ≠ 0 ∧ k.Runs i t
  counter : ∀ i t, i ≠ 0 → k.Runs i t → t.counter = 0
  priority : ∀ i t, i ≠ 0 → k.Runs i t → t.priority = 0

theorem Starved.recount (h : Starved k) : Starved (k.mapTasks Task.recount) := by
  have hback {i : Slot} {t : Task} (hi : i ≠ 0) (ht : (k.mapTasks Task.recount).Runs i t) :
      ∃ t₀, k.Runs i t₀ ∧ t = t₀.recount := by
    obtain ⟨htask, hstate⟩ := ht
    rw [mapTasks] at htask
    dsimp only at htask
    rw [if_neg hi] at htask
    obtain ⟨t₀, ht₀, rfl⟩ := map_eq_some_iff.mp htask
    exact ⟨t₀, ⟨ht₀, hstate⟩, rfl⟩
  obtain ⟨i, t, hi, ht⟩ := h.runs
  refine ⟨⟨i, t.recount, hi, ht.recount hi⟩, fun j t hj ht => ?_, fun j t hj ht => ?_⟩
  · obtain ⟨t₀, ht₀, rfl⟩ := hback hj ht
    dsimp only [Task.recount]
    rw [h.counter j t₀ hj ht₀, h.priority j t₀ hj ht₀]
    decide
  · obtain ⟨t₀, ht₀, rfl⟩ := hback hj ht
    exact h.priority j t₀ hj ht₀

/-- The loop goes on for ever. -/
theorem Starved.choose_eq_none (h : Starved k) (n : ℕ) : choose n k = none := by
  induction n generalizing k with
  | zero => rfl
  | succ n ih =>
    obtain ⟨i, t, hi, ht⟩ := h.runs
    have hle := le_pick hi ht
    rw [h.counter i t hi ht] at hle
    obtain ⟨hne, t', ht', heq⟩ := found_of_nonneg hle
    rw [h.counter _ t' hne ht'] at heq
    rw [choose_of_eq n heq.symm]
    exact ih h.recount

/-- The test for `Starved`, one slot after the other. -/
theorem starved_of_all {i : Slot} (hi : i ≠ 0)
    (hruns : (k.task i).any (fun t => t.state = .running) = true)
    (hall : ∀ j, j ≠ 0 → (k.task j).all (fun t => t.state = .running →
      t.counter = 0 ∧ t.priority = 0) = true) : Starved k := by
  have hzero {j : Slot} {t : Task} (hj : j ≠ 0) (ht : k.Runs j t) :
      t.counter = 0 ∧ t.priority = 0 := by
    have h := hall j hj
    rw [ht.1, all_some, decide_eq_true_eq] at h
    exact h ht.2
  obtain ⟨t, ht, hstate⟩ := (any_eq_true _ _).mp hruns
  exact ⟨⟨i, t, hi, ht, of_decide_eq_true hstate⟩, fun j t hj ht => (hzero hj ht).1,
    fun j t hj ht => (hzero hj ht).2⟩

end

/-- The kernel before `kernel_thread` is first called. -/
def booted : Kernel :=
  single ⟨fun _ => 0, fun n => if n < 4 then 0 else 1, false⟩ 0

/-- Task 1 can run. -/
def oneThread : Kernel := after (kernelThread 0 0) booted

theorem booted_booted : Booted booted :=
  ⟨⟨_, rfl, rfl, rfl⟩, fun _ hi => if_neg hi⟩

theorem reach_oneThread {ok : Kernel → SchedEvent → Prop}
    (hok : ok booted (.kernelThread 0 0)) : SchedReach ok booted oneThread := by
  have hreturns : returns (kernelThread 0 0) booted = true := by decide +kernel
  obtain ⟨ret, hc⟩ := ok_after_of_returns hreturns
  exact .step .start hok ⟨_, rfl, ret, hc⟩

/-- `nice(14)` leaves a priority of 1. -/
theorem chooses_nice : Chooses (after (sysNice 1 14) oneThread) := by
  have hreturns : returns (sysNice 1 14) oneThread = true := by decide +kernel
  obtain ⟨ret, hc⟩ := ok_after_of_returns hreturns
  refine chooses_of_moderate booted_booted
    (.step (e := .nice 1 14) (reach_oneThread trivial) (fun t ht _ => ?_) ⟨ret, hc⟩)
  have hall : (oneThread.task 1).all (fun t => t.priority = 15) = true := by decide +kernel
  rw [ht, all_some, decide_eq_true_eq] at hall
  rw [hall]
  decide

/-- Task 1 gives up its priority, starts a thread and goes to sleep. -/
def niced : Kernel := after (sysNice 1 15) oneThread
def nicedThread : Kernel := after (kernelThread 0 1) niced
def onlyNiced : Kernel :=
  nicedThread.setTask 1 ((nicedThread.task 1).map fun t => { t with state := .interruptible })

/-- The thread has neither time nor priority: the loop does not end. -/
theorem schedule_hangs :
    Booted booted ∧ SchedReach (fun _ _ => True) booted onlyNiced ∧ ¬ Chooses onlyNiced := by
  refine ⟨booted_booted, ?_, ?_⟩
  · obtain ⟨ret, hnice⟩ := ok_after_of_returns
      (c := sysNice 1 15) (s := oneThread) (by decide +kernel)
    obtain ⟨pid, hthread⟩ := ok_after_of_returns
      (c := kernelThread 0 1) (s := niced) (by decide +kernel)
    obtain ⟨cur, hcur⟩ := isSome_iff_exists.mp (show (niced.task 1).isSome = true by decide +kernel)
    have h₁ : SchedReach (fun _ _ => True) booted niced :=
      .step (e := .nice 1 15) (reach_oneThread trivial) trivial ⟨ret, hnice⟩
    have h₂ : SchedReach (fun _ _ => True) booted nicedThread :=
      .step (e := .kernelThread 0 1) h₁ trivial ⟨cur, hcur, pid, hthread⟩
    refine .step (e := .other onlyNiced) h₂ trivial ⟨rfl, fun i t' ht' => ?_⟩
    by_cases hi : i = 1
    · subst hi
      rw [onlyNiced, task_setTask_self] at ht'
      obtain ⟨t, ht, rfl⟩ := map_eq_some_iff.mp ht'
      exact ⟨t, ht, rfl, rfl⟩
    · exact ⟨t', (update_of_ne hi _ _).symm.trans ht', rfl, rfl⟩
  · rintro ⟨n, next, k', hchoose, -⟩
    have hstarved : Starved onlyNiced.checkAlarms :=
      starved_of_all (i := 2) (by decide) (by decide +kernel) (by decide +kernel)
    rw [schedule, hstarved.choose_eq_none n] at hchoose
    cases hchoose

end LinuxRv.Proc
