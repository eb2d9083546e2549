import LinuxRv.Proc.Roster

/-!
The end of processes: from `do_exit` to `waitpid`.

`do_exit` is two steps, before and after it may sleep over closing files: the
children are given away in the first one, and in the second one the process
becomes a zombie. A `waitpid` that sleeps looks at the table again when it is
woken up, so each look is a step. Everything else the kernel does leaves the
table alone.
-/

namespace LinuxRv.Proc

open ByteMemory Prog Fs Minix Function Option Proc.Kernel

namespace Reaping

variable {k' : Kernel} {cur : Task}

/-- The kernel, and the argument of each `do_exit` that is under way. -/
structure Sys where
  k : Kernel
  exiting : Slot → Option Word

inductive Event
  | fork (me : Slot)
  | thread (me : Slot)
  | exit (me : Slot) (code : Word)
  | zombie (me : Slot)
  | waitpid (me : Slot) (pid statAddr options : Word) (ret : ℤ)
  | kill (me : Slot) (pid sig : Word)
  | other

/-- `me` is a process that runs, not a zombie or on its way there. -/
structure Sys.Runs (s : Sys) (me : Slot) (cur : Task) : Prop where
  task : s.k.task me = some cur
  alive : cur.state ≠ .zombie
  stays : s.exiting me = none
  ne_zero : me ≠ 0

inductive Step : Sys → Event → Sys → Prop
  | fork {s : Sys} {me : Slot} {cur : Task} {r : Word} {ret : ℤ} {k' : Kernel}
      (h : s.Runs me cur) (hk : sysFork r me s.k = .ok ret k') :
      Step s (.fork me) { s with k := k' }
  | thread {s : Sys} {me : Slot} {cur : Task} {fn : Word} {ret : ℤ} {k' : Kernel}
      (h : s.Runs me cur) (hk : kernelThread fn me s.k = .ok ret k') :
      Step s (.thread me) { s with k := k' }
  /-- Process 1 does not exit. -/
  | exit {s : Sys} {me : Slot} {cur : Task} {code : Word} {k' : Kernel} (h : s.Runs me cur)
      (hinit : me ≠ 1) (hk : exitStart me s.k = .ok ⟨⟩ k') :
      Step s (.exit me code) ⟨k', update s.exiting me (some code)⟩
  | zombie {s : Sys} {me : Slot} {code : Word} {k' : Kernel} (h : s.exiting me = some code)
      (hk : exitEnd me code s.k = .ok ⟨⟩ k') :
      Step s (.zombie me) ⟨k', update s.exiting me none⟩
  | waitpid {s : Sys} {me : Slot} {cur : Task} {pid statAddr options : Word} {ret : ℤ}
      {k' : Kernel} (h : s.Runs me cur) (hk : sysWaitpid me pid statAddr options s.k = .ok ret k') :
      Step s (.waitpid me pid statAddr options ret) { s with k := k' }
  | kill {s : Sys} {me : Slot} {cur : Task} {pid sig : Word} {ret : ℤ} {k' : Kernel}
      (h : s.Runs me cur) (hk : sysKill me pid sig s.k = .ok ret k') :
      Step s (.kill me pid sig) { s with k := k' }
  | other {s : Sys} {k' : Kernel} (hk : s.k.Same k') : Step s .other { s with k := k' }

inductive Run : Sys → List Event → Sys → Prop
  | nil (s : Sys) : Run s [] s
  | cons {s s₁ s' : Sys} {e : Event} {es : List Event} (hs : Step s e s₁) (h : Run s₁ es s') :
      Run s (e :: es) s'

theorem step_zombie {k : Kernel} {ex : Slot → Option Word} {me : Slot} {code : Word}
    (hex : ex me = none) (hk : exitEnd me code k = .ok ⟨⟩ k') :
    Step ⟨k, update ex me (some code)⟩ (.zombie me) ⟨k', ex⟩ := by
  have h : Step ⟨k, update ex me (some code)⟩ (.zombie me)
      ⟨k', update (update ex me (some code)) me none⟩ :=
    .zombie (update_self me (some code) ex) hk
  rwa [update_idem, ← hex, update_eq_self] at h

/-- Process numbers are unique, every process has a father, which is alive, and
process 1 is there. `ex` has the processes on their way to be zombies. -/
structure Inv (τ : Table) (ex : Slot → Option Word) : Prop where
  idle : ∃ z, τ 0 = some z ∧ z.pid = 0 ∧ z.zombie = false
  init : ∃ z, τ 1 = some z ∧ z.pid = 1 ∧ z.zombie = false
  pid_pos : ∀ {i z}, i ≠ 0 → τ i = some z → 0 < z.pid.toInt
  pid_unique : ∀ {i j z z'}, τ i = some z → τ j = some z' → z.pid = z'.pid → i = j
  father : ∀ {i z}, i ≠ 0 → τ i = some z →
    ∃ j f, τ j = some f ∧ f.pid = z.father ∧ f.zombie = false ∧ ex j = none
  father_ne : ∀ {i z}, i ≠ 0 → i ≠ 1 → τ i = some z → z.father ≠ 0
  exiting : ∀ {i code}, ex i = some code → i ≠ 0 ∧ i ≠ 1 ∧ ∃ z, τ i = some z ∧ z.zombie = false

section

variable {τ : Table} {ex : Slot → Option Word} {me i : Slot} {c z : Ident}

theorem Inv.init_stays (h : Inv τ ex) : ex 1 = none := by
  cases hex : ex 1 with
  | none => rfl
  | some code => exact absurd rfl (h.exiting hex).2.1

/-- A new process. -/
theorem Inv.fork (h : Inv τ ex) (hme : τ me = some c) (hzero : me ≠ 0) (halive : c.zombie = false)
    (hstays : ex me = none) {nr : Slot} (hnr : τ nr = none) {pid code : Word}
    (hpos : 0 < pid.toInt) (hfresh : ∀ i z, τ i = some z → z.pid ≠ pid) :
    Inv (update τ nr (some ⟨pid, c.pid, code, false⟩)) ex := by
  -- a slot of the new table
  have hcases {i : Slot} {z : Ident}
      (hi : update τ nr (some ⟨pid, c.pid, code, false⟩) i = some z) :
      i = nr ∧ z = ⟨pid, c.pid, code, false⟩ ∨ τ i = some z := by
    rcases eq_or_ne i nr with rfl | hne
    · rw [update_self, some.injEq] at hi
      exact .inl ⟨rfl, hi.symm⟩
    · rw [update_of_ne hne] at hi
      exact .inr hi
  have hold {i : Slot} {z : Ident} (hi : τ i = some z) :
      update τ nr (some ⟨pid, c.pid, code, false⟩) i = some z := by
    rw [update_of_ne, hi]
    rintro rfl
    exact absurd (hnr.symm.trans hi) (by simp)
  obtain ⟨z₀, hz₀, hidle⟩ := h.idle
  obtain ⟨z₁, hz₁, hinit, halive₁⟩ := h.init
  refine ⟨⟨z₀, hold hz₀, hidle⟩, ⟨z₁, hold hz₁, hinit, halive₁⟩, ?_, ?_, ?_, ?_, ?_⟩
  · intro i z hi hz
    rcases hcases hz with ⟨-, rfl⟩ | hz
    · exact hpos
    · exact h.pid_pos hi hz
  · intro i j z z' hz hz' heq
    rcases hcases hz with ⟨rfl, rfl⟩ | hzi <;> rcases hcases hz' with ⟨rfl, rfl⟩ | hzj
    · rfl
    · exact absurd heq.symm (hfresh j z' hzj)
    · exact absurd heq (hfresh i z hzi)
    · exact h.pid_unique hzi hzj heq
  · intro i z hi hz
    rcases hcases hz with ⟨-, rfl⟩ | hz
    · exact ⟨me, c, hold hme, rfl, halive, hstays⟩
    · obtain ⟨j, f, hj, hf⟩ := h.father hi hz
      exact ⟨j, f, hold hj, hf⟩
  · intro i z hi hi' hz
    rcases hcases hz with ⟨-, rfl⟩ | hz
    · have hme := h.pid_pos hzero hme
      rintro hc
      rw [show c.pid = 0 from hc] at hme
      exact absurd hme (by decide)
    · exact h.father_ne hi hi' hz
  · intro i code hi
    obtain ⟨hi₀, hi₁, z, hz, halive⟩ := h.exiting hi
    exact ⟨hi₀, hi₁, z, hold hz, halive⟩

/-- A process that is as before, but for its father. -/
structure Ident.Like (z z' : Ident) : Prop where
  pid : z'.pid = z.pid
  zombie : z'.zombie = z.zombie
  exitCode : z'.exitCode = z.exitCode

theorem adopt_some {pid : Word} {z' : Ident} (h : τ.adopt pid i = some z') :
    ∃ z, τ i = some z ∧ Ident.Like z z' ∧ (z.father = pid ∧ z'.father = 1 ∨
      z.father ≠ pid ∧ z'.father = z.father) := by
  obtain ⟨z, hz, rfl⟩ := map_eq_some_iff.mp h
  refine ⟨z, hz, ?_⟩
  split_ifs with hf
  · exact ⟨⟨rfl, rfl, rfl⟩, .inl ⟨hf, rfl⟩⟩
  · exact ⟨⟨rfl, rfl, rfl⟩, .inr ⟨hf, rfl⟩⟩

theorem exists_adopt (pid : Word) (h : τ i = some z) :
    ∃ z', τ.adopt pid i = some z' ∧ Ident.Like z z' := by
  refine ⟨_, by rw [Table.adopt, h, map_some], ?_⟩
  split_ifs <;> exact ⟨rfl, rfl, rfl⟩

/-- The children of a process go to process 1. -/
theorem Inv.adopt (h : Inv τ ex) (hme : τ me = some c) (hzero : me ≠ 0) (hone : me ≠ 1)
    (halive : c.zombie = false) (code : Word) : Inv (τ.adopt c.pid) (update ex me (some code)) := by
  obtain ⟨z₀, hz₀, hidle, halive₀⟩ := h.idle
  obtain ⟨z₁, hz₁, hinit, halive₁⟩ := h.init
  obtain ⟨z₀', hz₀', hlike₀⟩ := exists_adopt c.pid hz₀
  obtain ⟨z₁', hz₁', hlike₁⟩ := exists_adopt c.pid hz₁
  have hinit' := hlike₁.pid.trans hinit
  have halive₁' := hlike₁.zombie.trans halive₁
  refine ⟨⟨z₀', hz₀', hlike₀.pid.trans hidle, hlike₀.zombie.trans halive₀⟩,
    ⟨z₁', hz₁', hinit', halive₁'⟩, ?_, ?_, ?_, ?_, ?_⟩
  · intro i z' hi hz'
    obtain ⟨z, hz, hlike, -⟩ := adopt_some hz'
    exact hlike.pid ▸ h.pid_pos hi hz
  · intro i j z z' hz hz' heq
    obtain ⟨y, hy, hlike, -⟩ := adopt_some hz
    obtain ⟨y', hy', hlike', -⟩ := adopt_some hz'
    exact h.pid_unique hy hy' (hlike.pid.symm.trans (heq.trans hlike'.pid))
  · intro i z' hi hz'
    obtain ⟨z, hz, -, ⟨-, hf⟩ | ⟨hne, hf⟩⟩ := adopt_some hz'
    · refine ⟨1, z₁', hz₁', hinit'.trans hf.symm, halive₁', ?_⟩
      rw [update_of_ne hone.symm, h.init_stays]
    · -- the father is not the process that gives its children away
      obtain ⟨j, f, hj, hpid, hf', hstays⟩ := h.father hi hz
      obtain ⟨f', hj', hlike'⟩ := exists_adopt c.pid hj
      refine ⟨j, f', hj', hlike'.pid.trans (hpid.trans hf.symm), hlike'.zombie.trans hf', ?_⟩
      rw [update_of_ne, hstays]
      rintro rfl
      rw [← hpid, some.inj (hj.symm.trans hme)] at hne
      exact hne rfl
  · intro i z' hi hi' hz'
    obtain ⟨z, hz, -, ⟨-, hf⟩ | ⟨-, hf⟩⟩ := adopt_some hz'
    · rw [hf]
      decide
    · exact hf ▸ h.father_ne hi hi' hz
  · intro i code' hi
    rcases eq_or_ne i me with rfl | hne
    · obtain ⟨c', hc', hlike⟩ := exists_adopt c.pid hme
      exact ⟨hzero, hone, c', hc', hlike.zombie.trans halive⟩
    · rw [update_of_ne hne] at hi
      obtain ⟨hi₀, hi₁, z, hz, hz'⟩ := h.exiting hi
      obtain ⟨z', hadopt, hlike⟩ := exists_adopt c.pid hz
      exact ⟨hi₀, hi₁, z', hadopt, hlike.zombie.trans hz'⟩

/-- A process becomes a zombie. -/
theorem Inv.zombie (h : Inv τ ex) (hme : τ me = some c) {code : Word} (hex : ex me = some code) :
    Inv (update τ me (some { c with exitCode := code, zombie := true })) (update ex me none) := by
  obtain ⟨hzero, hone, -⟩ := h.exiting hex
  have hcases {i : Slot} {z' : Ident}
      (hi : update τ me (some { c with exitCode := code, zombie := true }) i = some z') :
      ∃ z, τ i = some z ∧ z'.pid = z.pid ∧ z'.father = z.father := by
    rcases eq_or_ne i me with rfl | hne
    · rw [update_self, some.injEq] at hi
      exact ⟨c, hme, hi ▸ rfl, hi ▸ rfl⟩
    · rw [update_of_ne hne] at hi
      exact ⟨z', hi, rfl, rfl⟩
  have hold {i : Slot} {z : Ident} (hne : i ≠ me) (hi : τ i = some z) :
      update τ me (some { c with exitCode := code, zombie := true }) i = some z := by
    rw [update_of_ne hne, hi]
  obtain ⟨z₀, hz₀, hidle⟩ := h.idle
  obtain ⟨z₁, hz₁, hinit⟩ := h.init
  refine ⟨⟨z₀, hold hzero.symm hz₀, hidle⟩, ⟨z₁, hold hone.symm hz₁, hinit⟩, ?_, ?_, ?_, ?_, ?_⟩
  · intro i z' hi hz'
    obtain ⟨z, hz, hpid, -⟩ := hcases hz'
    exact hpid ▸ h.pid_pos hi hz
  · intro i j z z' hz hz' heq
    obtain ⟨y, hy, hpid, -⟩ := hcases hz
    obtain ⟨y', hy', hpid', -⟩ := hcases hz'
    exact h.pid_unique hy hy' (hpid.symm.trans (heq.trans hpid'))
  · intro i z' hi hz'
    obtain ⟨z, hz, -, hfather⟩ := hcases hz'
    obtain ⟨j, f, hj, hpid, hf, hstays⟩ := h.father hi hz
    -- its own children have left it before
    have hne : j ≠ me := by
      rintro rfl
      exact absurd (hstays.symm.trans hex) (by simp)
    exact ⟨j, f, hold hne hj, hpid.trans hfather.symm, hf, (update_of_ne hne ..).trans hstays⟩
  · intro i z' hi hi' hz'
    obtain ⟨z, hz, -, hfather⟩ := hcases hz'
    exact hfather ▸ h.father_ne hi hi' hz
  · intro i code' hi
    rcases eq_or_ne i me with rfl | hne
    · rw [update_self] at hi
      cases hi
    · rw [update_of_ne hne] at hi
      obtain ⟨hi₀, hi₁, z, hz, halive⟩ := h.exiting hi
      exact ⟨hi₀, hi₁, z, hold hne hz, halive⟩

/-- A zombie goes. -/
theorem Inv.reap (h : Inv τ ex) (hi : τ i = some z) (hzombie : z.zombie = true) (hzero : i ≠ 0) :
    Inv (update τ i none) ex := by
  have hcases {j : Slot} {y : Ident} (hj : update τ i none j = some y) : τ j = some y := by
    rw [update_apply] at hj
    exact (ite_none_left_eq_some.mp hj).2
  have halive {j : Slot} {y : Ident} (hj : τ j = some y) (hy : y.zombie = false) :
      update τ i none j = some y := by
    rw [update_of_ne, hj]
    rintro rfl
    rw [some.inj (hj.symm.trans hi), hzombie] at hy
    cases hy
  obtain ⟨z₀, hz₀, hidle⟩ := h.idle
  obtain ⟨z₁, hz₁, hinit, halive₁⟩ := h.init
  refine ⟨⟨z₀, by rw [update_of_ne hzero.symm, hz₀], hidle⟩,
    ⟨z₁, halive hz₁ halive₁, hinit, halive₁⟩, fun hj hy => h.pid_pos hj (hcases hy),
    fun hy hy' => h.pid_unique (hcases hy) (hcases hy'), ?_,
    fun hj hj' hy => h.father_ne hj hj' (hcases hy), ?_⟩
  · intro j y hj hy
    obtain ⟨j', f, hf, hpid, hf', hstays⟩ := h.father hj (hcases hy)
    exact ⟨j', f, halive hf hf', hpid, hf', hstays⟩
  · intro j code hj
    obtain ⟨hj₀, hj₁, y, hy, hy'⟩ := h.exiting hj
    exact ⟨hj₀, hj₁, y, halive hy hy', hy'⟩

end

/-! ### Steps -/

/-- The invariant of a whole run. -/
structure Sys.Inv (s : Sys) : Prop where
  table : Reaping.Inv s.k.table s.exiting
  lastPid : 0 ≤ s.k.lastPid.toInt

theorem Sys.Inv.forked {s : Sys} {me : Slot} (h : s.Inv) (hruns : s.Runs me cur)
    (hk : Forked s.k cur k') : Sys.Inv { s with k := k' } := by
  obtain ⟨pid, hfresh, hlast, hsame | ⟨nr, hnr, htable⟩⟩ := hk
  · exact ⟨hsame.symm ▸ h.table, hlast.symm ▸ hfresh.nonneg⟩
  · refine ⟨?_, hlast.symm ▸ hfresh.nonneg⟩
    rw [htable]
    refine h.table.fork (table_of_task hruns.task) hruns.ne_zero ?_ hruns.stays hnr
      (hfresh.pos h.lastPid) fun i z hz hpid => ?_
    · simp [Task.ident, hruns.alive]
    · exact hfresh.ne hz hpid

/-- The last part of `do_exit` leaves a zombie with the argument of `do_exit`. -/
theorem Sys.Inv.exitEnd {s : Sys} {me : Slot} {code : Word} (h : s.Inv)
    (hex : s.exiting me = some code) (hk : exitEnd me code s.k = .ok ⟨⟩ k') :
    ∃ c, s.k.table me = some c ∧ k'.lastPid = s.k.lastPid ∧
      k'.table = update s.k.table me (some { c with exitCode := code, zombie := true }) := by
  obtain ⟨hzero, hone, c, hc, -⟩ := h.table.exiting hex
  obtain ⟨cur, hcur, rfl⟩ := task_of_table hc
  obtain ⟨j, f, hj, hpid, -⟩ := h.table.father hzero hc
  obtain ⟨htable, hlast⟩ := (wp_exitEnd hcur (h.table.father_ne hzero hone hc) hj hpid).of_ok hk
  exact ⟨cur.ident, hc, hlast, htable⟩

theorem Sys.Inv.step {s s' : Sys} {e : Event} (h : s.Inv) (hs : Step s e s') : s'.Inv := by
  cases hs with
  | fork hruns hk => exact h.forked hruns ((wp_sysFork_table hruns.task).of_ok hk)
  | thread hruns hk => exact h.forked hruns ((wp_kernelThread_table hruns.task).of_ok hk)
  | @exit me cur code k' hruns hinit hk =>
    obtain ⟨htable, hlast⟩ := (wp_exitStart hruns.task).of_ok hk
    refine ⟨?_, hlast.symm ▸ h.lastPid⟩
    dsimp only
    rw [htable]
    exact h.table.adopt (table_of_task hruns.task) hruns.ne_zero hinit
      (by simp [Task.ident, hruns.alive]) code
  | @zombie me code k' hex hk =>
    obtain ⟨c, hc, hlast, htable⟩ := h.exitEnd hex hk
    refine ⟨?_, hlast.symm ▸ h.lastPid⟩
    dsimp only
    rw [htable]
    exact h.table.zombie hc hex
  | @waitpid me cur pid statAddr options ret k' hruns hk =>
    rcases (wp_sysWaitpid hruns.task).of_ok hk with ⟨hsame, -⟩ | ⟨i, z, hreaps⟩
    · exact ⟨hsame.table.symm ▸ h.table, hsame.lastPid.symm ▸ h.lastPid⟩
    · refine ⟨?_, hreaps.lastPid.symm ▸ h.lastPid⟩
      dsimp only
      rw [hreaps.table]
      exact h.table.reap hreaps.child hreaps.zombie hreaps.ne_zero
  | kill hruns hk =>
    have hsame := (keepsTable_sysKill s.k (.refl _)).of_ok hk
    exact ⟨hsame.table.symm ▸ h.table, hsame.lastPid.symm ▸ h.lastPid⟩
  | other hsame => exact ⟨hsame.table.symm ▸ h.table, hsame.lastPid.symm ▸ h.lastPid⟩

theorem Sys.Inv.run {s s' : Sys} {es : List Event} (h : s.Inv) (hrun : Run s es s') : s'.Inv := by
  induction hrun with
  | nil => exact h
  | cons hs _ ih => exact ih (h.step hs)

/-! ### The way of a zombie -/

/-- Slot `i` has the zombie of process `pid`, which has ended with `code`. -/
def Sys.Zombie (s : Sys) (i : Slot) (pid code : Word) : Prop :=
  ∃ z, s.k.table i = some z ∧ z.zombie = true ∧ z.pid = pid ∧ z.exitCode = code

/-- `waitpid` returns `pid`. -/
def Event.Returns (e : Event) (pid : Word) : Prop :=
  ∃ me p statAddr options, e = .waitpid me p statAddr options pid.toInt

/-- The event is a `waitpid` by the father the zombie in slot `i` has at the time,
which returns `pid` and stores `code`. -/
def ReapedBy (s : Sys) (e : Event) (s' : Sys) (i : Slot) (pid code : Word) : Prop :=
  ∃ me cur p statAddr options z, e = .waitpid me p statAddr options pid.toInt ∧
    s.Runs me cur ∧ Reaps s.k me cur statAddr i z pid.toInt s'.k ∧ z.pid = pid ∧ z.exitCode = code

/-- The zombie stays in its slot and no `waitpid` returns its number, until one is
by its father and returns its number and its exit code. -/
inductive Fate (i : Slot) (pid code : Word) : Sys → List Event → Sys → Prop
  | stays {s : Sys} (h : s.Zombie i pid code) : Fate i pid code s [] s
  | later {s s₁ s' : Sys} {e : Event} {es : List Event} (h : s.Zombie i pid code)
      (hs : Step s e s₁) (hno : ¬ e.Returns pid) (hrest : Fate i pid code s₁ es s') :
      Fate i pid code s (e :: es) s'
  | reaped {s s₁ s' : Sys} {e : Event} {es : List Event} (h : s.Zombie i pid code)
      (hs : Step s e s₁) (hreaped : ReapedBy s e s₁ i pid code) (hrest : Run s₁ es s') :
      Fate i pid code s (e :: es) s'

section

variable {s s' : Sys} {i : Slot} {pid code : Word}

theorem Sys.Zombie.of_table (h : s.Zombie i pid code) (htable : s'.k.table i = s.k.table i) :
    s'.Zombie i pid code := by
  rw [Sys.Zombie, htable]
  exact h

theorem not_returns_of_ne {me : Slot} {p statAddr options : Word} {ret : ℤ}
    (h : ret ≠ pid.toInt) : ¬ (Event.waitpid me p statAddr options ret).Returns pid := by
  rintro ⟨_, _, _, _, heq⟩
  injection heq with _ _ _ _ hret
  exact h hret

/-- A `waitpid` without a zombie does not return the number of one. -/
theorem Sys.Zombie.ne_of_noZombie (hinv : s.Inv) (h : s.Zombie i pid code) {ret : ℤ}
    (hno : NoZombie s.k ret) : ret ≠ pid.toInt := by
  obtain ⟨z, hz, hzombie, rfl, -⟩ := h
  have hi : i ≠ 0 := by
    rintro rfl
    obtain ⟨z₀, hz₀, -, halive⟩ := hinv.table.idle
    rw [some.inj (hz₀.symm.trans hz), hzombie] at halive
    cases halive
  have hpos := hinv.table.pid_pos hi hz
  rcases hno with rfl | rfl | ⟨j, y, -, hy, halive, rfl⟩
  · omega
  · rw [echild]
    omega
  · intro heq
    obtain rfl := hinv.table.pid_unique hy hz (BitVec.toInt_inj.mp heq)
    rw [some.inj (hy.symm.trans hz), hzombie] at halive
    cases halive

theorem Sys.Zombie.step (hinv : s.Inv) (h : s.Zombie i pid code) {e : Event} (hs : Step s e s') :
    s'.Zombie i pid code ∧ ¬ e.Returns pid ∨ ReapedBy s e s' i pid code := by
  have hsome : s.k.table i ≠ none := by
    obtain ⟨z, hz, -⟩ := h
    simp [hz]
  have hforked {cur : Task} {k' : Kernel} (hk : Forked s.k cur k') :
      Sys.Zombie { s with k := k' } i pid code := by
    obtain ⟨_, _, _, hsame | ⟨nr, hnr, htable⟩⟩ := hk
    · exact h.of_table (congrFun hsame i)
    · refine h.of_table ?_
      dsimp only
      rw [htable, update_of_ne]
      rintro rfl
      exact hsome hnr
  cases hs with
  | fork hruns hk =>
    exact .inl ⟨hforked ((wp_sysFork_table hruns.task).of_ok hk), by rintro ⟨_, _, _, _, ⟨⟩⟩⟩
  | thread hruns hk =>
    exact .inl ⟨hforked ((wp_kernelThread_table hruns.task).of_ok hk), by rintro ⟨_, _, _, _, ⟨⟩⟩⟩
  | exit hruns _ hk =>
    obtain ⟨htable, -⟩ := (wp_exitStart hruns.task).of_ok hk
    obtain ⟨z, hz, hzombie, hpid, hcode⟩ := h
    obtain ⟨z', hz', hlike⟩ := exists_adopt _ hz
    refine .inl ⟨⟨z', ?_, hlike.zombie.trans hzombie, hlike.pid.trans hpid,
      hlike.exitCode.trans hcode⟩, by rintro ⟨_, _, _, _, ⟨⟩⟩⟩
    exact (congrFun htable i).trans hz'
  | @zombie me code' k' hex hk =>
    obtain ⟨c, hc, -, htable⟩ := hinv.exitEnd hex hk
    refine .inl ⟨h.of_table ?_, by rintro ⟨_, _, _, _, ⟨⟩⟩⟩
    dsimp only
    rw [htable, update_of_ne]
    -- the process that ends now is none yet
    rintro rfl
    obtain ⟨-, -, y, hy, halive⟩ := hinv.table.exiting hex
    obtain ⟨z, hz, hzombie, -⟩ := h
    rw [some.inj (hy.symm.trans hz), hzombie] at halive
    cases halive
  | @waitpid me cur p statAddr options ret k' hruns hk =>
    rcases (wp_sysWaitpid hruns.task).of_ok hk with ⟨hsame, hno⟩ | ⟨j, y, hreaps⟩
    · exact .inl ⟨h.of_table (congrFun hsame.table i), not_returns_of_ne (h.ne_of_noZombie hinv hno)⟩
    · rcases eq_or_ne i j with rfl | hne
      · obtain ⟨z, hz, -, rfl, rfl⟩ := h
        obtain rfl := some.inj (hz.symm.trans hreaps.child)
        obtain rfl := hreaps.ret
        exact .inr ⟨me, cur, p, statAddr, options, z, rfl, hruns, hreaps, rfl, rfl⟩
      · refine .inl ⟨h.of_table ?_, not_returns_of_ne ?_⟩
        · dsimp only
          rw [hreaps.table, update_of_ne hne]
        · obtain ⟨z, hz, -, rfl, -⟩ := h
          rw [hreaps.ret]
          exact fun heq =>
            hne (hinv.table.pid_unique hz hreaps.child (BitVec.toInt_inj.mp heq).symm)
  | kill hruns hk =>
    have hsame := (keepsTable_sysKill s.k (.refl _)).of_ok hk
    exact .inl ⟨h.of_table (congrFun hsame.table i), by rintro ⟨_, _, _, _, ⟨⟩⟩⟩
  | other hsame => exact .inl ⟨h.of_table (congrFun hsame.table i), by rintro ⟨_, _, _, _, ⟨⟩⟩⟩

theorem fate_of_run (hinv : s.Inv) (h : s.Zombie i pid code) {es : List Event} (hrun : Run s es s') :
    Fate i pid code s es s' := by
  induction hrun with
  | nil => exact .stays h
  | cons hs hrest ih =>
    rcases h.step hinv hs with ⟨h₁, hno⟩ | hreaped
    · exact .later h hs hno (ih (hinv.step hs) h₁)
    · exact .reaped h hs hreaped hrest

end

/-- Task 0 has started process 1. -/
structure Booted (s : Sys) : Prop where
  idle : ∃ t, s.k.task 0 = some t ∧ t.pid = 0 ∧ t.state ≠ .zombie
  init : ∃ t, s.k.task 1 = some t ∧ t.pid = 1 ∧ t.father = 0 ∧ t.state ≠ .zombie
  others : ∀ i, i ≠ 0 → i ≠ 1 → s.k.task i = none
  exiting : ∀ i, s.exiting i = none
  lastPid : 0 ≤ s.k.lastPid.toInt

theorem Booted.inv {s : Sys} (h : Booted s) : s.Inv := by
  obtain ⟨t₀, ht₀, hpid₀, halive₀⟩ := h.idle
  obtain ⟨t₁, ht₁, hpid₁, hfather, halive₁⟩ := h.init
  have h₀ := table_of_task ht₀
  have h₁ := table_of_task ht₁
  have hz₀ : t₀.ident.zombie = false := by simp [Task.ident, halive₀]
  have hz₁ : t₁.ident.zombie = false := by simp [Task.ident, halive₁]
  -- there are only these two
  have hcases {i : Slot} {z : Ident} (hz : s.k.table i = some z) :
      i = 0 ∧ z = t₀.ident ∨ i = 1 ∧ z = t₁.ident := by
    rcases eq_or_ne i 0 with rfl | hi
    · exact .inl ⟨rfl, some.inj (hz.symm.trans h₀)⟩
    · rcases eq_or_ne i 1 with rfl | hi'
      · exact .inr ⟨rfl, some.inj (hz.symm.trans h₁)⟩
      · rw [table, h.others i hi hi'] at hz
        cases hz
  refine ⟨⟨⟨_, h₀, hpid₀, hz₀⟩, ⟨_, h₁, hpid₁, hz₁⟩, ?_, ?_, ?_, ?_, ?_⟩, h.lastPid⟩
  · intro i z hi hz
    obtain ⟨rfl, -⟩ | ⟨-, rfl⟩ := hcases hz
    · exact absurd rfl hi
    · rw [show t₁.ident.pid = 1 from hpid₁]
      decide
  · intro i j z z' hz hz' heq
    have hne : t₀.ident.pid ≠ t₁.ident.pid := by
      rw [show t₀.ident.pid = 0 from hpid₀, show t₁.ident.pid = 1 from hpid₁]
      decide
    obtain ⟨rfl, rfl⟩ | ⟨rfl, rfl⟩ := hcases hz <;> obtain ⟨rfl, rfl⟩ | ⟨rfl, rfl⟩ := hcases hz'
    · rfl
    · exact absurd heq hne
    · exact absurd heq.symm hne
    · rfl
  · intro i z hi hz
    obtain ⟨rfl, -⟩ | ⟨-, rfl⟩ := hcases hz
    · exact absurd rfl hi
    · exact ⟨0, _, h₀, hpid₀.trans hfather.symm, hz₀, h.exiting 0⟩
  · intro i z hi hi' hz
    obtain ⟨rfl, -⟩ | ⟨rfl, -⟩ := hcases hz
    · exact absurd rfl hi
    · exact absurd rfl hi'
  · intro i code hi
    exact absurd ((h.exiting i).symm.trans hi) (by simp)

theorem Sys.exists_runs (s : Sys) (me : Slot) (z : Ident) (h : s.k.table me = some z)
    (halive : z.zombie = false) (hstays : s.exiting me = none) (hzero : me ≠ 0) :
    ∃ cur, s.Runs me cur := by
  obtain ⟨t, ht, rfl⟩ := task_of_table h
  exact ⟨t, ht, by simpa [Task.ident] using halive, hstays, hzero⟩

/-- Tasks 0 and 1, with four free pages. -/
def twoTasks : Kernel :=
  let k := single ⟨fun _ => 0, fun n => if n < 4 then 0 else 1, false⟩ 0
  { k with task := fun i =>
      if i = 0 then (k.task 0).map fun t => { t with pid := 0 } else if i = 1 then k.task 0 else none }

def threadStarted : Kernel := after (kernelThread 0 1) twoTasks
def threadExits : Kernel := after (exitStart 2) threadStarted
def threadEnded : Kernel := after (exitEnd 2 0x700) threadExits

theorem booted_twoTasks : Booted ⟨twoTasks, fun _ => none⟩ where
  idle := ⟨_, rfl, rfl, by decide⟩
  init := ⟨_, rfl, rfl, rfl, by decide⟩
  others := fun i hi hi' => (if_neg hi).trans (if_neg hi')
  exiting := fun _ => rfl
  lastPid := by decide

/-- A process starts a thread, which ends. -/
theorem run_thread_exit {k₀ k₁ k₂ k₃ : Kernel} {me nr : Slot} {fn code : Word} {z c : Ident} {ret : ℤ}
    (hme : me ≠ 0) (hnr : nr ≠ 0 ∧ nr ≠ 1) (hz : k₀.table me = some z ∧ z.zombie = false)
    (h₁ : kernelThread fn me k₀ = .ok ret k₁) (hc : k₁.table nr = some c ∧ c.zombie = false)
    (h₂ : exitStart nr k₁ = .ok ⟨⟩ k₂) (h₃ : exitEnd nr code k₂ = .ok ⟨⟩ k₃) :
    Run ⟨k₀, fun _ => none⟩ [.thread me, .exit nr code, .zombie nr] ⟨k₃, fun _ => none⟩ := by
  obtain ⟨init, hinit⟩ := Sys.exists_runs ⟨k₀, fun _ => none⟩ me z hz.1 hz.2 rfl hme
  obtain ⟨cur, hcur⟩ := Sys.exists_runs ⟨k₁, fun _ => none⟩ nr c hc.1 hc.2 rfl hnr.1
  exact .cons (.thread hinit h₁) (.cons (.exit hcur hnr.2 h₂) (.cons (step_zombie rfl h₃) (.nil _)))

theorem run_threadEnded : Run ⟨twoTasks, fun _ => none⟩ [.thread 1, .exit 2 0x700, .zombie 2]
    ⟨threadEnded, fun _ => none⟩ := by
  have hthread : returns (kernelThread 0 1) twoTasks = true := by decide +kernel
  have hexit : returns (exitStart 2) threadStarted = true := by decide +kernel
  have hend : returns (exitEnd 2 0x700) threadExits = true := by decide +kernel
  have hinit : twoTasks.table 1 = some ⟨1, 0, 0, false⟩ := by decide +kernel
  have hstarted : threadStarted.table 2 = some ⟨2, 1, 0, false⟩ := by decide +kernel
  obtain ⟨ret, h₁⟩ := ok_after_of_returns hthread
  obtain ⟨⟨⟩, h₂⟩ := ok_after_of_returns hexit
  obtain ⟨⟨⟩, h₃⟩ := ok_after_of_returns hend
  exact run_thread_exit (by decide) (by decide) ⟨hinit, rfl⟩ h₁ ⟨hstarted, rfl⟩ h₂ h₃

end Reaping

end LinuxRv.Proc
