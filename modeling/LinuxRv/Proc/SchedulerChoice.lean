import LinuxRv.Proc.Scheduler

/-!
Which task `schedule` switches to.

The search starts with the sentinel -1, which is left when no task can run; a
result of 0 means that all tasks that can run have used up their time, and only
then is time given out again. After that the tasks that can run have some, so
the second search is the last.
-/

namespace LinuxRv.Proc

open ByteMemory List Option

section

variable {k : Kernel} {i j : Slot} {t : Task}

/-! ### The search -/

/-- Nothing is found that is not better. -/
theorem pick_eq_of_le {l : List Slot} {c : ℤ} (next : Slot)
    (h : ∀ i ∈ l, ∀ t, k.Runs i t → t.counter.toInt ≤ c) : pick k l c next = (c, next) := by
  induction l with
  | nil => rfl
  | cons i l ih =>
    have hrest := ih fun j hj => h j (mem_cons_of_mem _ hj)
    rw [pick]
    cases ht : k.task i with
    | none => exact hrest
    | some t =>
      have hle (hstate : t.state = .running) : t.counter.toInt ≤ c :=
        h i mem_cons_self t ⟨ht, hstate⟩
      exact (if_neg fun hmore => absurd (hle hmore.1) (not_le.mpr hmore.2)).trans hrest

/-- Of the tasks with most time left the search takes the first. -/
theorem le_pick_slot {l : List Slot} {c : ℤ} {next : Slot} (hl : l.Pairwise (· > ·)) (hi : i ∈ l)
    (ht : k.Runs i t) (hc : c < t.counter.toInt) (hmost : t.counter.toInt = (pick k l c next).1) :
    i ≤ (pick k l c next).2 := by
  induction l generalizing c next with
  | nil => cases hi
  | cons j l ih =>
    obtain ⟨hj, hl⟩ := pairwise_cons.mp hl
    rw [pick] at hmost ⊢
    cases htj : k.task j with
    | none =>
      rw [htj] at hmost
      rcases mem_cons.mp hi with rfl | hi
      · rw [ht.1] at htj
        cases htj
      · exact ih hl hi hc hmost
    | some tj =>
      simp only [htj] at hmost ⊢
      by_cases hmore : tj.state = .running ∧ c < tj.counter.toInt
      · rw [if_pos hmore] at hmost ⊢
        rcases mem_cons.mp hi with rfl | hi
        · -- the task itself: nothing after it has more time
          obtain rfl : t = tj := some.inj (ht.1.symm.trans htj)
          have hspec := (pick_spec k l t.counter.toInt i).2.1
          rw [← hmost] at hspec
          rw [pick_eq_of_le i hspec]
        · rcases lt_or_ge tj.counter.toInt t.counter.toInt with hlt | hge
          · exact ih hl hi hlt hmost
          · -- a task in front of it has as much
            have hspec := (pick_spec k l tj.counter.toInt j).2.1
            rw [← hmost] at hspec
            rw [pick_eq_of_le j fun i' hi' t' ht' => (hspec i' hi' t' ht').trans hge]
            exact (hj i hi).le
      · rw [if_neg hmore] at hmost ⊢
        rcases mem_cons.mp hi with rfl | hi
        · obtain rfl : t = tj := some.inj (ht.1.symm.trans htj)
          exact absurd ⟨ht.2, hc⟩ hmore
        · exact ih hl hi hc hmost

/-! ### One call -/

/-- An alarm has expired, or a signal is there that is not blocked. -/
def Task.Due (t : Task) (jiffies : Word) : Prop :=
  (t.alarm ≠ 0 ∧ t.alarm.toInt < jiffies.toInt) ∨ t.signal &&& ~~~(blockable &&& t.blocked) ≠ 0

theorem Task.check_of_not_due {jiffies : Word} (h : ¬ t.Due jiffies) :
    (t.expire jiffies).rouse = t := by
  obtain ⟨halarm, hsignal⟩ := not_or.mp h
  rw [expire, if_neg halarm, rouse, if_neg fun hrouse => hsignal hrouse.1]

theorem Task.exists_check (t : Task) (jiffies : Word) : ∃ alarm signal state,
    (t.expire jiffies).rouse = { t with alarm := alarm, signal := signal, state := state } := by
  rw [expire, rouse]
  split_ifs <;> exact ⟨_, _, _, rfl⟩

/-- What the alarm pass `k₁` does to the tasks of `k`. -/
structure AlarmPass (k k₁ : Kernel) : Prop where
  task : ∀ i, k₁.task i = k.task i ∨ i ≠ 0 ∧ ∃ t alarm signal state, k.task i = some t ∧
    t.Due k.jiffies ∧
    k₁.task i = some { t with alarm := alarm, signal := signal, state := state }
  rest : k₁ = { k with task := k₁.task }

theorem alarmPass_checkAlarms (k : Kernel) : AlarmPass k k.checkAlarms := by
  refine ⟨fun i => ?_, rfl⟩
  rcases eq_or_ne i 0 with rfl | hi
  · exact .inl rfl
  have htask : k.checkAlarms.task i = (k.task i).map fun t => (t.expire k.jiffies).rouse :=
    if_neg hi
  rw [htask]
  cases ht : k.task i with
  | none => exact .inl rfl
  | some t =>
    by_cases hdue : t.Due k.jiffies
    · obtain ⟨alarm, signal, state, heq⟩ := t.exists_check k.jiffies
      exact .inr ⟨hi, t, alarm, signal, state, rfl, hdue, congrArg some heq⟩
    · exact .inl (congrArg some (Task.check_of_not_due hdue))

/-- Some task besides the idle one can run. -/
def Kernel.Busy (k : Kernel) : Prop := ∃ i t, i ≠ 0 ∧ k.Runs i t

/-- All tasks that can run have used up their time. -/
def Kernel.Spent (k : Kernel) : Prop := k.Busy ∧ ∀ i t, i ≠ 0 → k.Runs i t → t.counter = 0

/-- The task in slot `next` has most time, and the highest slot of those that have. -/
def Kernel.Largest (k : Kernel) (next : Slot) : Prop :=
  next ≠ 0 ∧ ∃ t, k.Runs next t ∧ ∀ j t', j ≠ 0 → k.Runs j t' →
    t'.counter.toInt < t.counter.toInt ∨ t'.counter = t.counter ∧ j ≤ next

/-- What `schedule` does after the alarm pass: the task it switches to, and the
counters that are left. -/
structure Choice (k : Kernel) (next : Slot) (k' : Kernel) : Prop where
  spent : k.Spent → k' = k.mapTasks Task.recount
  same : ¬ k.Spent → k' = k
  largest : k.Busy → k'.Largest next
  idle : ¬ k.Busy → next = 0

theorem largest_pick (hpos : 0 ≤ (pick k fromLast (-1) 0).1) :
    k.Largest (pick k fromLast (-1) 0).2 := by
  obtain ⟨hne, t, ht, heq⟩ := found_of_nonneg hpos
  refine ⟨hne, t, ht, fun j t' hj ht' => ?_⟩
  have hle := le_pick hj ht'
  rw [← heq] at hle
  rcases lt_or_eq_of_le hle with hlt | hsame
  · exact .inl hlt
  · refine .inr ⟨BitVec.eq_of_toInt_eq hsame, ?_⟩
    exact le_pick_slot pairwise_fromLast (mem_fromLast.mpr hj) ht' (by omega) (hsame.trans heq)

theorem spent_iff (hcounter : ∀ i t, i ≠ 0 → k.Runs i t → 0 ≤ t.counter.toInt) :
    k.Spent ↔ (pick k fromLast (-1) 0).1 = 0 := by
  constructor
  · rintro ⟨⟨i, t, hi, ht⟩, hzero⟩
    have hle := le_pick hi ht
    obtain ⟨hne, t', ht', heq⟩ := found_of_nonneg ((hcounter i t hi ht).trans hle)
    rw [← heq, hzero _ t' hne ht']
    rfl
  · intro hzero
    obtain ⟨hne, t, ht, -⟩ := found_of_nonneg hzero.ge
    refine ⟨⟨_, t, hne, ht⟩, fun i t' hi ht' => BitVec.eq_of_toInt_eq ?_⟩
    have hle := le_pick hi ht'
    have hge := hcounter i t' hi ht'
    rw [hzero] at hle
    exact le_antisymm hle hge

/-- `counter/2 + priority`, as the machine computes it. -/
theorem toInt_recount (t : Task) :
    t.recount.counter.toInt = (t.counter.toInt / 2 + t.priority.toInt).bmod (2 ^ 32) := by
  rw [Task.recount, BitVec.toInt_add, BitVec.toInt_sshiftRight, Int.shiftRight_eq_div_pow]
  rfl

/-- The counters are as large as they were. -/
theorem counter_checkAlarms (hcounter : ∀ i t, k.task i = some t → 0 ≤ t.counter.toInt)
    (ht : k.checkAlarms.task i = some t) : 0 ≤ t.counter.toInt := by
  rcases (alarmPass_checkAlarms k).task i with hsame | ⟨-, t₀, _, _, _, ht₀, -, heq⟩
  · exact hcounter i t (hsame.symm.trans ht)
  · obtain rfl := some.inj (ht.symm.trans heq)
    exact hcounter i t₀ ht₀

/-- `schedule` takes the task with most time left, and gives out time once and only
if the tasks that can run have none. Two searches are enough. -/
theorem schedule_choice (k : Kernel) (hcounter : ∀ i t, k.task i = some t → 0 ≤ t.counter.toInt)
    (hruns : ∀ i t, i ≠ 0 → k.checkAlarms.Runs i t →
      1 ≤ t.priority.toInt ∧ t.priority.toInt < 2 ^ 29 ∧ t.counter.toInt < 2 ^ 29) :
    AlarmPass k k.checkAlarms ∧ (∀ t : Task, t.recount = { t with counter := t.recount.counter } ∧
        t.recount.counter.toInt = (t.counter.toInt / 2 + t.priority.toInt).bmod (2 ^ 32)) ∧
      ∃ next k', (∀ n, 2 ≤ n → schedule n k = some (next, k')) ∧ Choice k.checkAlarms next k' := by
  refine ⟨alarmPass_checkAlarms k, fun t => ⟨rfl, toInt_recount t⟩, ?_⟩
  set k₁ := k.checkAlarms
  have hnonneg (i : Slot) (t : Task) (_ : i ≠ 0) (ht : k₁.Runs i t) : 0 ≤ t.counter.toInt :=
    counter_checkAlarms hcounter ht.1
  have hspent := spent_iff hnonneg
  by_cases hzero : (pick k₁ fromLast (-1) 0).1 = 0
  · -- the second search finds time
    obtain ⟨hne, t, ht, -⟩ := found_of_nonneg hzero.ge
    have hle := le_pick hne (ht.recount hne)
    obtain ⟨hprio, hprio', hcount⟩ := hruns _ t hne ht
    have hpos : 0 < t.recount.counter.toInt := by
      have ht₀ := hnonneg _ t hne ht
      rw [toInt_recount, Int.bmod_eq_of_le (by omega) (by omega)]
      omega
    refine ⟨(pick (k₁.mapTasks Task.recount) fromLast (-1) 0).2, k₁.mapTasks Task.recount, fun n hn => ?_, ⟨fun _ => rfl, fun h => ?_, fun _ => ?_,
      fun h => ?_⟩⟩
    · obtain ⟨n, rfl⟩ := Nat.exists_eq_add_of_le' hn
      exact (choose_of_eq (n + 1) hzero).trans (choose_of_ne n (by omega))
    · exact absurd (hspent.mpr hzero) h
    · exact largest_pick (by omega)
    · exact absurd ⟨_, t, hne, ht⟩ h
  · refine ⟨(pick k₁ fromLast (-1) 0).2, k₁, fun n hn => ?_, ⟨fun h => ?_, fun _ => rfl, fun h => ?_, fun h => ?_⟩⟩
    · obtain ⟨n, rfl⟩ := Nat.exists_eq_add_of_le' hn
      exact choose_of_ne (n + 1) hzero
    · exact absurd (hspent.mp h) hzero
    · obtain ⟨i, t, hi, ht⟩ := h
      exact largest_pick ((hnonneg i t hi ht).trans (le_pick hi ht))
    · rw [pick_eq_of_le 0 fun i hi t ht => absurd ⟨i, t, mem_fromLast.mp hi, ht⟩ h]

end

/-- Task 1 has used up its time. -/
def spentThread : Kernel :=
  booted.setTask 1 ((booted.task 0).map fun t => { t with counter := 0 })

/-- Time is given out, and task 1 runs. -/
theorem spentThread_schedule : ∃ k', (∀ n, 2 ≤ n → schedule n spentThread = some (1, k')) ∧
    Choice spentThread.checkAlarms 1 k' := by
  have hone {i : Slot} {t : Task} {k : Kernel} (hi : i ≠ 0)
      (hk : k = spentThread ∨ k = spentThread.checkAlarms) (ht : k.task i = some t) :
      i = 1 ∧ t.priority = 15 ∧ t.counter = 0 := by
    have hall (j : Slot) (hj : j ≠ 0) :
        (spentThread.task j).all (fun t => j = 1 ∧ t.priority = 15 ∧ t.counter = 0) = true ∧
        (spentThread.checkAlarms.task j).all
          (fun t => j = 1 ∧ t.priority = 15 ∧ t.counter = 0) = true := by
      decide +revert +kernel
    rcases hk with rfl | rfl
    · simpa [ht] using (hall i hi).1
    · simpa [ht] using (hall i hi).2
  obtain ⟨-, -, next, k', hnext, hchoice⟩ := schedule_choice spentThread (fun i t ht => by
    by_cases hi : i = 0
    · subst hi
      obtain rfl := some.inj ht
      decide
    · rw [(hone hi (.inl rfl) ht).2.2]
      decide) (fun i t hi ht => by
    obtain ⟨-, hprio, hcounter⟩ := hone hi (.inr rfl) ht.1
    rw [hprio, hcounter]
    decide)
  have hrun : (schedule 2 spentThread).map Prod.fst = some 1 := by decide +kernel
  rw [hnext 2 le_rfl] at hrun
  obtain rfl := some.inj hrun
  exact ⟨k', hnext, hchoice⟩

/-- Task 1 sleeps with a signal to be delivered, and has given up its priority. -/
def signalledSleeper : Kernel :=
  booted.setTask 1 ((booted.task 0).map fun t =>
    { t with state := .interruptible, counter := 0, priority := 0, signal := 1 })

/-- No task besides the idle one can run; the alarm pass makes one runnable that
never gets any time. -/
theorem signalledSleeper_schedule :
    (∀ i, (signalledSleeper.task i).all (fun t => 0 ≤ t.counter.toInt) = true) ∧
    (∀ i, i ≠ 0 → (signalledSleeper.task i).all (fun t => t.state ≠ .running) = true) ∧
    ∀ n, schedule n signalledSleeper = none := by
  refine ⟨by decide +kernel, by decide +kernel, fun n => ?_⟩
  have hstarved : Starved signalledSleeper.checkAlarms :=
    starved_of_all (i := 1) (by decide) (by decide +kernel) (by decide +kernel)
  exact hstarved.choose_eq_none n

end LinuxRv.Proc
