import Mathlib.Data.Set.Basic
import Mathlib.Tactic.Common

/-!
`sleep_on` and `wake_up` (`kernel/sched.c`).

A wait queue is one variable, which has the task that went to sleep last. The
others hang on the `tmp` variables of the calls of `sleep_on`: a task that is
resumed wakes the one it found in the variable. Every sleeping task has exactly
one variable or `tmp` that points to it, so a wake-up goes down the whole chain.

The kernel is not preempted and `wake_up` is not called from interrupts, so the
two halves of `sleep_on`, before and after `schedule`, are one step each.
-/

namespace LinuxRv.WaitQueue

open Function Option

inductive TaskState
  | running
  | interruptible
  | uninterruptible
  | zombie
  deriving DecidableEq, Repr

variable {T Q : Type}

/-- A call of `sleep_on` that has not returned: its argument, its `tmp`, and the
number of the call. -/
@[ext] structure Call (T Q : Type) where
  p : Q
  tmp : Option T
  since : ℕ
  deriving DecidableEq

/-- The task table, the queue variables, and what is on the kernel stacks. -/
structure Sys (T Q : Type) where
  task : T → Option TaskState
  head : Q → Option T
  call : T → Option (Call T Q)
  current : T
  /-- Calls of `sleep_on` so far. -/
  calls : ℕ

section

variable [DecidableEq T] [DecidableEq Q]

def Sys.setState (s : Sys T Q) (t : T) (st : TaskState) : Sys T Q :=
  { s with task := update s.task t (some st) }

/-- `if (tmp) tmp->state = 0` -/
def Sys.wake (s : Sys T Q) : Option T → Sys T Q
  | none => s
  | some t => s.setState t .running

/-- `sleep_on`, up to `schedule`. -/
def Sys.sleepOn (s : Sys T Q) (q : Q) : Sys T Q :=
  { s.setState s.current .uninterruptible with
    head := update s.head q (some s.current)
    call := update s.call s.current (some ⟨q, s.head q, s.calls⟩)
    calls := s.calls + 1 }

def Sys.wakeUp (s : Sys T Q) (q : Q) : Sys T Q :=
  match s.head q with
  | none => s
  | some t => { s.setState t .running with head := update s.head q none }

/-- `schedule` has switched to `t`, which goes on where it was: in `sleep_on`, if
it has called it. -/
def Sys.resume (s : Sys T Q) (t : T) : Sys T Q :=
  match s.call t with
  | none => { s with current := t }
  | some c => { s.wake c.tmp with call := update s.call t none, current := t }

/-- The current task is running code of its own. Task 0 runs when nobody else
does, whatever its state is. -/
def Sys.Runs (idle : T) (s : Sys T Q) : Prop :=
  s.call s.current = none ∧ (s.task s.current = some .running ∨ s.current = idle)

inductive Step (idle : T) : Sys T Q → Sys T Q → Prop
  /-- Task 0 trying to sleep is a panic. -/
  | sleepOn {s : Sys T Q} (h : s.Runs idle) (hidle : s.current ≠ idle) (q : Q) :
      Step idle s (s.sleepOn q)
  | wakeUp {s : Sys T Q} (q : Q) : Step idle s (s.wakeUp q)
  | schedule {s : Sys T Q} {t : T} (h : s.task t = some .running ∨ t = idle) :
      Step idle s (s.resume t)
  | pause {s : Sys T Q} (h : s.Runs idle) : Step idle s (s.setState s.current .interruptible)
  /-- A signal, in `schedule`. -/
  | signal {s : Sys T Q} {t : T} (h : s.task t = some .interruptible) :
      Step idle s (s.setState t .running)
  | fork {s : Sys T Q} (h : s.Runs idle) {t : T} (ht : s.task t = none) :
      Step idle s (s.setState t .running)
  | exit {s : Sys T Q} (h : s.Runs idle) : Step idle s (s.setState s.current .zombie)
  | release {s : Sys T Q} {t : T} (ht : s.task t = some .zombie) :
      Step idle s { s with task := update s.task t none }

/-- Runs from any state in which nobody has called `sleep_on`. -/
inductive Reach (idle : T) : Sys T Q → Prop
  | start {s : Sys T Q} (hcall : ∀ t, s.call t = none) (hhead : ∀ q, s.head q = none) :
      Reach idle s
  | step {s s' : Sys T Q} (h : Reach idle s) (hs : Step idle s s') : Reach idle s'

/-- The tasks that a step makes runnable because one of `M` is resumed in it. -/
def passedOn (s s' : Sys T Q) (M : Set T) : Set T :=
  {t | ∃ j ∈ M, ∃ c, s.call j = some c ∧ s'.call j = none ∧ c.tmp = some t}

/-- Runs from `s₀`, where the tasks of `M₀` have been made runnable, with all the
tasks made runnable as a consequence. -/
inductive After (idle : T) (s₀ : Sys T Q) (M₀ : Set T) : Set T → Sys T Q → Prop
  | refl : After idle s₀ M₀ M₀ s₀
  | step {M : Set T} {s s' : Sys T Q} (h : After idle s₀ M₀ M s) (hs : Step idle s s') :
      After idle s₀ M₀ (M ∪ passedOn s s' M) s'

/-- `t` is asleep in `sleep_on(&q)`. -/
def Sys.Blocked (s : Sys T Q) (q : Q) (t : T) : Prop :=
  (∃ c, s.call t = some c ∧ c.p = q) ∧ s.task t = some .uninterruptible

end

/-! ### The pointers -/

section

variable {t : T}

/-- What points to `t`: the variable `q`, or the `tmp` of a call for `q`. -/
def Sys.Points (s : Sys T Q) (q : Q) (t : T) : Prop :=
  s.head q = some t ∨ ∃ j c, s.call j = some c ∧ c.p = q ∧ c.tmp = some t

structure Inv (idle : T) (s : Sys T Q) : Prop where
  /-- Pointers are to tasks that sleep on the same queue. -/
  blocked : ∀ {q t}, s.Points q t → s.Blocked q t
  /-- A task that sleeps can be woken. -/
  points : ∀ {q t}, s.Blocked q t → s.Points q t
  head_tmp : ∀ {q t j c}, s.head q = some t → s.call j = some c → c.tmp ≠ some t
  tmp_tmp : ∀ {t j c j' c'}, s.call j = some c → c.tmp = some t → s.call j' = some c' →
    c'.tmp = some t → j = j'
  /-- Until it is resumed, a task in `sleep_on` is asleep or has been woken. -/
  state : ∀ {t c}, s.call t = some c → s.task t = some .uninterruptible ∨ s.task t = some .running
  /-- `tmp` went to sleep before. -/
  older : ∀ {j c t c'}, s.call j = some c → c.tmp = some t → s.call t = some c' → c'.since < c.since
  since_lt : ∀ {t c}, s.call t = some c → c.since < s.calls
  idle_awake : s.call idle = none

variable {idle : T} {s : Sys T Q}

theorem Inv.start (hcall : ∀ t, s.call t = none) (hhead : ∀ q, s.head q = none) : Inv idle s := by
  constructor <;> simp [Sys.Points, Sys.Blocked, hcall, hhead]

theorem Inv.not_points (h : Inv idle s) (ht : s.call t = none) (q : Q) : ¬ s.Points q t := by
  intro hp
  obtain ⟨⟨c, hc, -⟩, -⟩ := h.blocked hp
  exact absurd (ht.symm.trans hc) (by simp)

/-- Only one variable has a task. -/
theorem Inv.head_head (h : Inv idle s) {q q' : Q} (hq : s.head q = some t)
    (hq' : s.head q' = some t) : q = q' := by
  obtain ⟨⟨c, hc, rfl⟩, -⟩ := h.blocked (.inl hq)
  obtain ⟨⟨c', hc', rfl⟩, -⟩ := h.blocked (.inl hq')
  rw [some.inj (hc.symm.trans hc')]

theorem Inv.call_eq_none (h : Inv idle s) (ht : s.task t ≠ some .uninterruptible)
    (ht' : s.task t ≠ some .running) : s.call t = none := by
  cases hc : s.call t with
  | none => rfl
  | some c => exact ((h.state hc).elim ht ht').elim

theorem ne_of_call {i : T} {c : Call T Q} (ht : s.call t = none) (hi : s.call i = some c) :
    i ≠ t := by
  rintro rfl
  exact absurd (ht.symm.trans hi) (by simp)

/-- Tasks are woken and the pointers to them are dropped. -/
theorem Inv.of_woken {s' : Sys T Q} (h : Inv idle s) (hcalls : s'.calls = s.calls)
    (hcall : ∀ {j c}, s'.call j = some c → s.call j = some c)
    (hhead : ∀ {q t}, s'.head q = some t → s.head q = some t)
    (htask : ∀ i, s'.task i = s.task i ∨ s'.task i = some .running)
    (hkept : ∀ {q i}, s'.Points q i → s'.call i = s.call i ∧ s'.task i = s.task i)
    (hlost : ∀ {q i}, s.Points q i → s'.Points q i ∨ s'.task i = some .running) : Inv idle s' where
  blocked := by
    intro q i hp
    obtain ⟨hci, hti⟩ := hkept hp
    have hp₀ : s.Points q i := by
      rcases hp with hp | ⟨j, c, hj, hq, ht⟩
      · exact .inl (hhead hp)
      · exact .inr ⟨j, c, hcall hj, hq, ht⟩
    obtain ⟨⟨c, hc, hq⟩, hst⟩ := h.blocked hp₀
    exact ⟨⟨c, hci.trans hc, hq⟩, hti.trans hst⟩
  points := by
    rintro q i ⟨⟨c, hc, hq⟩, hst⟩
    have hst₀ : s.task i = some .uninterruptible := by
      rcases htask i with heq | heq
      · exact heq.symm.trans hst
      · exact absurd (heq.symm.trans hst) (by decide)
    refine (hlost (h.points ⟨⟨c, hcall hc, hq⟩, hst₀⟩)).resolve_right fun hrun => ?_
    exact absurd (hrun.symm.trans hst) (by decide)
  head_tmp := fun hq hj => h.head_tmp (hhead hq) (hcall hj)
  tmp_tmp := fun hj ht hj' ht' => h.tmp_tmp (hcall hj) ht (hcall hj') ht'
  state := by
    intro t c hc
    rcases htask t with heq | heq
    · rw [heq]
      exact h.state (hcall hc)
    · exact .inr heq
  older := fun hj ht hc => h.older (hcall hj) ht (hcall hc)
  since_lt := fun hc => hcalls ▸ h.since_lt (hcall hc)
  idle_awake := by
    cases hc : s'.call idle with
    | none => rfl
    | some c => exact absurd (h.idle_awake.symm.trans (hcall hc)) (by simp)

end

section

variable [DecidableEq T] {idle : T} {s : Sys T Q}

/-- A change to the state of a task that is not in `sleep_on`. -/
theorem Inv.of_task (h : Inv idle s) {t : T} (ht : s.call t = none) (o : Option TaskState) :
    Inv idle { s with task := update s.task t o } := by
  have htask {i : T} {c : Call T Q} (hi : s.call i = some c) :
      update s.task t o i = s.task i := update_of_ne (ne_of_call ht hi) _ _
  refine { h with blocked := fun hp => ?_, points := ?_, state := fun hi => ?_ }
  · obtain ⟨⟨c, hc, hq⟩, hst⟩ := h.blocked hp
    exact ⟨⟨c, hc, hq⟩, (htask hc).trans hst⟩
  · rintro q i ⟨⟨c, hc, hq⟩, hst⟩
    exact h.points ⟨⟨c, hc, hq⟩, (htask hc).symm.trans hst⟩
  · dsimp only
    rw [htask hi]
    exact h.state hi

/-- The task to be woken when `t` is resumed. -/
def Sys.next (s : Sys T Q) (t : T) : Option T := (s.call t).bind Call.tmp

theorem task_resume (s : Sys T Q) (t i : T) :
    (s.resume t).task i = if s.next t = some i then some .running else s.task i := by
  unfold Sys.resume Sys.next
  cases s.call t with
  | none => simp
  | some c =>
    cases htmp : c.tmp with
    | none => simp [htmp, Sys.wake]
    | some j => simp [htmp, Sys.wake, Sys.setState, update_apply, eq_comm]

theorem call_resume (s : Sys T Q) (t i : T) :
    (s.resume t).call i = if i = t then none else s.call i := by
  unfold Sys.resume
  cases hc : s.call t with
  | none =>
    split_ifs with hi
    · exact hi ▸ hc
    · rfl
  | some c => exact update_apply ..

theorem head_resume (s : Sys T Q) (t : T) : (s.resume t).head = s.head := by
  unfold Sys.resume Sys.wake
  split
  · rfl
  · split <;> rfl

theorem calls_resume (s : Sys T Q) (t : T) : (s.resume t).calls = s.calls := by
  unfold Sys.resume Sys.wake
  split
  · rfl
  · split <;> rfl

theorem Inv.resume (h : Inv idle s) {t : T} (ht : s.task t = some .running ∨ t = idle) :
    Inv idle (s.resume t) := by
  have hcall {j : T} {c : Call T Q} (hj : (s.resume t).call j = some c) : j ≠ t ∧ s.call j = some c := by
    rw [call_resume] at hj
    exact ite_none_left_eq_some.mp hj
  refine h.of_woken (calls_resume s t) (fun hj => (hcall hj).2) ?_ ?_ ?_ ?_
  · intro q i hi
    rwa [head_resume] at hi
  · intro i
    rw [task_resume]
    split <;> simp
  · intro q i hp
    have hp₀ : s.Points q i := by
      rcases hp with hp | ⟨j, c, hj, hq, htmp⟩
      · exact .inl (head_resume s t ▸ hp)
      · exact .inr ⟨j, c, (hcall hj).2, hq, htmp⟩
    have hne : i ≠ t := by
      rintro rfl
      obtain ⟨⟨c, hc, -⟩, hst⟩ := h.blocked hp₀
      rcases ht with hrun | rfl
      · exact absurd (hrun.symm.trans hst) (by decide)
      · exact absurd (h.idle_awake.symm.trans hc) (by simp)
    -- the resumed task has the only pointer to the one it wakes
    have hnext : s.next t ≠ some i := by
      intro hnext
      obtain ⟨c, hc, htmp⟩ := bind_eq_some_iff.mp hnext
      rcases hp with hp | ⟨j, c', hj, -, htmp'⟩
      · exact h.head_tmp (head_resume s t ▸ hp) hc htmp
      · exact (hcall hj).1 (h.tmp_tmp (hcall hj).2 htmp' hc htmp)
    rw [call_resume, if_neg hne, task_resume, if_neg hnext]
    exact ⟨rfl, rfl⟩
  · rintro q i (hp | ⟨j, c, hj, hq, htmp⟩)
    · exact .inl (.inl (by rw [head_resume, hp]))
    · rcases eq_or_ne j t with rfl | hne
      · exact .inr (by rw [task_resume, Sys.next, hj, bind_some, if_pos htmp])
      · exact .inl (.inr ⟨j, c, by rw [call_resume, if_neg hne, hj], hq, htmp⟩)

end

section

variable {K M M₀ : Set T} {c : Call T Q} {i : T} {q : Q} {s' s₀ : Sys T Q} [DecidableEq T]
  [DecidableEq Q] {idle : T} {s : Sys T Q}

theorem task_wakeUp (s : Sys T Q) (q : Q) (i : T) :
    (s.wakeUp q).task i = if s.head q = some i then some .running else s.task i := by
  unfold Sys.wakeUp
  cases s.head q with
  | none => simp
  | some t => simp [Sys.setState, update_apply, eq_comm]

theorem call_wakeUp (s : Sys T Q) (q : Q) : (s.wakeUp q).call = s.call := by
  unfold Sys.wakeUp
  split <;> rfl

theorem head_wakeUp (s : Sys T Q) (q q' : Q) :
    (s.wakeUp q).head q' = if q' = q then none else s.head q' := by
  unfold Sys.wakeUp
  cases hq : s.head q with
  | none =>
    split_ifs with h
    · exact h ▸ hq
    · rfl
  | some t => exact update_apply ..

theorem calls_wakeUp (s : Sys T Q) (q : Q) : (s.wakeUp q).calls = s.calls := by
  unfold Sys.wakeUp
  split <;> rfl

theorem Inv.wakeUp (h : Inv idle s) (q : Q) : Inv idle (s.wakeUp q) := by
  refine h.of_woken (calls_wakeUp s q) (fun hj => call_wakeUp s q ▸ hj) ?_ ?_ ?_ ?_
  · intro q' i hi
    rw [head_wakeUp] at hi
    exact (ite_none_left_eq_some.mp hi).2
  · intro i
    rw [task_wakeUp]
    split <;> simp
  · intro q' i hp
    rw [call_wakeUp, task_wakeUp]
    refine ⟨rfl, if_neg fun hq => ?_⟩
    rcases hp with hp | ⟨j, c, hj, -, ht⟩
    · rw [head_wakeUp] at hp
      obtain ⟨hne, hp⟩ := ite_none_left_eq_some.mp hp
      exact hne (h.head_head hp hq)
    · exact h.head_tmp hq (call_wakeUp s q ▸ hj) ht
  · rintro q' i (hp | ⟨j, c, hj, hq', ht⟩)
    · rcases eq_or_ne q' q with rfl | hne
      · exact .inr (by rw [task_wakeUp, if_pos hp])
      · exact .inl (.inl (by rw [head_wakeUp, if_neg hne, hp]))
    · exact .inl (.inr ⟨j, c, by rw [call_wakeUp, hj], hq', ht⟩)

theorem task_sleepOn (s : Sys T Q) (q : Q) (i : T) :
    (s.sleepOn q).task i = if i = s.current then some .uninterruptible else s.task i :=
  update_apply ..

theorem call_sleepOn (s : Sys T Q) (q : Q) (i : T) :
    (s.sleepOn q).call i = if i = s.current then some ⟨q, s.head q, s.calls⟩ else s.call i :=
  update_apply ..

theorem head_sleepOn (s : Sys T Q) (q q' : Q) :
    (s.sleepOn q).head q' = if q' = q then some s.current else s.head q' :=
  update_apply ..

/-- A call is the new one or one from before. -/
theorem call_of_sleepOn {j : T} (hj : (s.sleepOn q).call j = some c) :
    j = s.current ∧ c = ⟨q, s.head q, s.calls⟩ ∨ j ≠ s.current ∧ s.call j = some c := by
  rw [call_sleepOn] at hj
  split_ifs at hj with hcur
  · exact .inl ⟨hcur, (some.inj hj).symm⟩
  · exact .inr ⟨hcur, hj⟩

theorem blocked_sleepOn (hcur : s.call s.current = none) {q' : Q} :
    (s.sleepOn q).Blocked q' i ↔ q' = q ∧ i = s.current ∨ s.Blocked q' i := by
  constructor
  · rintro ⟨⟨c, hc, rfl⟩, hst⟩
    rcases call_of_sleepOn hc with ⟨rfl, rfl⟩ | ⟨hne, hc⟩
    · exact .inl ⟨rfl, rfl⟩
    · rw [task_sleepOn, if_neg hne] at hst
      exact .inr ⟨⟨c, hc, rfl⟩, hst⟩
  · rintro (⟨rfl, rfl⟩ | ⟨⟨c, hc, rfl⟩, hst⟩)
    · exact ⟨⟨_, (call_sleepOn ..).trans (if_pos rfl), rfl⟩, (task_sleepOn ..).trans (if_pos rfl)⟩
    · have hne := ne_of_call hcur hc
      exact ⟨⟨c, by rw [call_sleepOn, if_neg hne, hc], rfl⟩, by rw [task_sleepOn, if_neg hne, hst]⟩

/-- What was in the variable is in `tmp` now. -/
theorem points_sleepOn (hcur : s.call s.current = none) {q' : Q} :
    (s.sleepOn q).Points q' i ↔ q' = q ∧ i = s.current ∨ s.Points q' i := by
  constructor
  · rintro (hp | ⟨j, c, hj, rfl, htmp⟩)
    · rw [head_sleepOn] at hp
      split_ifs at hp with hq
      · exact .inl ⟨hq, (some.inj hp).symm⟩
      · exact .inr (.inl hp)
    · rcases call_of_sleepOn hj with ⟨rfl, rfl⟩ | ⟨-, hj⟩
      · exact .inr (.inl htmp)
      · exact .inr (.inr ⟨j, c, hj, rfl, htmp⟩)
  · rintro (⟨rfl, rfl⟩ | hp | ⟨j, c, hj, rfl, htmp⟩)
    · exact .inl ((head_sleepOn ..).trans (if_pos rfl))
    · rcases eq_or_ne q' q with rfl | hne
      · exact .inr ⟨s.current, _, (call_sleepOn ..).trans (if_pos rfl), rfl, hp⟩
      · exact .inl (by rw [head_sleepOn, if_neg hne, hp])
    · have hne := ne_of_call hcur hj
      exact .inr ⟨j, c, by rw [call_sleepOn, if_neg hne, hj], rfl, htmp⟩

theorem Inv.sleepOn (h : Inv idle s) (hcur : s.call s.current = none) (hidle : s.current ≠ idle)
    (q : Q) : Inv idle (s.sleepOn q) where
  blocked := fun hp => (blocked_sleepOn hcur).mpr (((points_sleepOn hcur).mp hp).imp_right h.blocked)
  points := fun hb => (points_sleepOn hcur).mpr (((blocked_sleepOn hcur).mp hb).imp_right h.points)
  head_tmp := by
    intro q' t j c hq hj htmp
    have hnot := h.not_points hcur
    rw [head_sleepOn] at hq
    rcases call_of_sleepOn hj with ⟨rfl, rfl⟩ | ⟨-, hj⟩ <;> split_ifs at hq with hqq
    · exact hnot q (.inl (hq ▸ htmp))
    · exact hqq (h.head_head hq htmp)
    · exact hnot c.p (.inr ⟨j, c, hj, rfl, hq ▸ htmp⟩)
    · exact h.head_tmp hq hj htmp
  tmp_tmp := by
    intro t j c j' c' hj htmp hj' htmp'
    rcases call_of_sleepOn hj with ⟨rfl, rfl⟩ | ⟨-, hj⟩ <;>
      rcases call_of_sleepOn hj' with ⟨rfl, rfl⟩ | ⟨-, hj'⟩
    · rfl
    · exact absurd htmp' (h.head_tmp htmp hj')
    · exact absurd htmp (h.head_tmp htmp' hj)
    · exact h.tmp_tmp hj htmp hj' htmp'
  state := by
    intro t c hc
    rw [task_sleepOn]
    rcases call_of_sleepOn hc with ⟨rfl, -⟩ | ⟨hne, hc⟩
    · exact .inl (if_pos rfl)
    · rw [if_neg hne]
      exact h.state hc
  older := by
    intro j c t c' hj htmp ht
    rcases call_of_sleepOn hj with ⟨rfl, rfl⟩ | ⟨-, hj⟩ <;>
      rcases call_of_sleepOn ht with ⟨rfl, rfl⟩ | ⟨-, ht⟩
    · exact absurd (.inl htmp) (h.not_points hcur q)
    · exact h.since_lt ht
    · exact absurd (.inr ⟨j, c, hj, rfl, htmp⟩) (h.not_points hcur c.p)
    · exact h.older hj htmp ht
  since_lt := by
    intro t c hc
    rcases call_of_sleepOn hc with ⟨-, rfl⟩ | ⟨-, hc⟩
    · exact Nat.lt_succ_self _
    · exact Nat.lt_succ_of_lt (h.since_lt hc)
  idle_awake := by rw [call_sleepOn, if_neg hidle.symm, h.idle_awake]

theorem Inv.step (h : Inv idle s) (hs : Step idle s s') : Inv idle s' := by
  cases hs with
  | sleepOn hruns hidle q => exact h.sleepOn hruns.1 hidle q
  | wakeUp q => exact h.wakeUp q
  | schedule ht => exact h.resume ht
  | pause hruns => exact h.of_task hruns.1 _
  | signal ht => exact h.of_task (h.call_eq_none (by simp [ht]) (by simp [ht])) _
  | fork _ ht => exact h.of_task (h.call_eq_none (by simp [ht]) (by simp [ht])) _
  | exit hruns => exact h.of_task hruns.1 _
  | release ht => exact h.of_task (h.call_eq_none (by simp [ht]) (by simp [ht])) _

theorem Reach.inv (h : Reach idle s) : Inv idle s := by
  induction h with
  | start hcall hhead => exact .start hcall hhead
  | step _ hs ih => exact ih.step hs

/-! ### One step, seen from a call -/

theorem calls_le_of_step (hs : Step idle s s') : s.calls ≤ s'.calls := by
  cases hs with
  | sleepOn => exact Nat.le_succ _
  | wakeUp q => rw [calls_wakeUp]
  | schedule => rw [calls_resume]
  | _ => exact le_rfl

/-- Whoever woke `i` in a step: `wake_up`, or a task that has been resumed. -/
def WokenBy (s s' : Sys T Q) (i : T) : Prop :=
  (∃ q, s.head q = some i) ∨ ∃ j, s.next j = some i ∧ s.task j = some .running ∧ s'.call j = none

/-- A task that is in an old call after a step was in it before, and if its state
has changed, it has been woken. -/
theorem Inv.call_of_step (h : Inv idle s) (hs : Step idle s s') (hi : s'.call i = some c) (hlt : c.since < s.calls) :
    s.call i = some c ∧ (s'.task i = s.task i ∨ s'.task i = some .running ∧ WokenBy s s' i) := by
  have hother {t : T} (ht : s.call t = none) (hi : s.call i = some c) (o : Option TaskState) :
      update s.task t o i = s.task i := update_of_ne (ne_of_call ht hi) ..
  cases hs with
  | sleepOn hruns hidle q =>
    rcases call_of_sleepOn hi with ⟨-, rfl⟩ | ⟨hne, hi⟩
    · exact absurd hlt (lt_irrefl _)
    · exact ⟨hi, .inl (by rw [task_sleepOn, if_neg hne])⟩
  | wakeUp q =>
    rw [call_wakeUp] at hi
    refine ⟨hi, ?_⟩
    rw [task_wakeUp]
    split_ifs with hq
    · exact .inr ⟨rfl, .inl ⟨q, hq⟩⟩
    · exact .inl rfl
  | @schedule t ht =>
    rw [call_resume] at hi
    obtain ⟨-, hi⟩ := ite_none_left_eq_some.mp hi
    refine ⟨hi, ?_⟩
    rw [task_resume]
    split_ifs with hnext
    · refine .inr ⟨rfl, .inr ⟨t, hnext, ht.resolve_right ?_, by rw [call_resume, if_pos rfl]⟩⟩
      rintro rfl
      rw [Sys.next, h.idle_awake] at hnext
      exact nomatch hnext
    · exact .inl rfl
  | pause hruns => exact ⟨hi, .inl (hother hruns.1 hi _)⟩
  | signal ht => exact ⟨hi, .inl (hother (h.call_eq_none (by simp [ht]) (by simp [ht])) hi _)⟩
  | fork _ ht => exact ⟨hi, .inl (hother (h.call_eq_none (by simp [ht]) (by simp [ht])) hi _)⟩
  | exit hruns => exact ⟨hi, .inl (hother hruns.1 hi _)⟩
  | release ht => exact ⟨hi, .inl (hother (h.call_eq_none (by simp [ht]) (by simp [ht])) hi _)⟩

/-- A call goes on until its task is resumed and wakes `tmp`. -/
theorem call_or_woken (hs : Step idle s s') {j : T} (hj : s.next j = some i) :
    s'.call j = s.call j ∨ s'.task i = some .running := by
  obtain ⟨c, hc, -⟩ := bind_eq_some_iff.mp hj
  cases hs with
  | sleepOn hruns hidle q => exact .inl (by rw [call_sleepOn, if_neg (ne_of_call hruns.1 hc)])
  | wakeUp q => exact .inl (by rw [call_wakeUp])
  | @schedule t ht =>
    rcases eq_or_ne j t with rfl | hne
    · exact .inr (by rw [task_resume, if_pos hj])
    · exact .inl (by rw [call_resume, if_neg hne])
  | _ => exact .inl rfl

/-! ### After a wake-up -/

/-- The tasks of `K` that are still in the calls they were in at `s₀`: the ones
asleep hang on others of them, and the ones awake are in `M`. -/
structure Covers (s₀ : Sys T Q) (K M : Set T) (s : Sys T Q) : Prop where
  held : ∀ i ∈ K, s.call i = s₀.call i → s.task i = some .uninterruptible →
    ∃ j ∈ K, s.call j = s₀.call j ∧ s.next j = some i
  marked : ∀ i ∈ K, s.call i = s₀.call i → s.task i = some .running → i ∈ M

theorem Covers.step (hcov : Covers s₀ K M s)
    (hK : ∀ i ∈ K, ∃ c, s₀.call i = some c ∧ c.since < s.calls) (h : Inv idle s)
    (hs : Step idle s s') : Covers s₀ K (M ∪ passedOn s s' M) s' where
  held := by
    intro i hi hcall hst
    obtain ⟨c, hc, hlt⟩ := hK i hi
    obtain ⟨hci, htask | ⟨hrun, -⟩⟩ := h.call_of_step hs (hcall.trans hc) hlt
    · obtain ⟨j, hj, hcj, hnext⟩ := hcov.held i hi (hci.trans hc.symm) (htask.symm.trans hst)
      rcases call_or_woken hs hnext with hkeep | hrun
      · refine ⟨j, hj, hkeep.trans hcj, ?_⟩
        rw [Sys.next, hkeep]
        exact hnext
      · exact absurd (hrun.symm.trans hst) (by decide)
    · exact absurd (hrun.symm.trans hst) (by decide)
  marked := by
    intro i hi hcall hst
    obtain ⟨c, hc, hlt⟩ := hK i hi
    obtain ⟨hci, hwoken⟩ := h.call_of_step hs (hcall.trans hc) hlt
    have hsame := hci.trans hc.symm
    rcases h.state hci with hsleep | hrun
    · obtain ⟨j, hj, hcj, hnext⟩ := hcov.held i hi hsame hsleep
      obtain ⟨c', hc', htmp⟩ := bind_eq_some_iff.mp hnext
      rcases hwoken with htask | ⟨-, ⟨q, hq⟩ | ⟨j', hnext', hrun', hnone⟩⟩
      · exact absurd (htask.symm.trans hst) (by simp [hsleep])
      · exact absurd htmp (h.head_tmp hq hc')
      · -- the task that woke `i` is the one it hung on
        obtain ⟨c'', hc'', htmp'⟩ := bind_eq_some_iff.mp hnext'
        obtain rfl := h.tmp_tmp hc' htmp hc'' htmp'
        exact .inr ⟨j, hcov.marked j hj hcj hrun', c', hc', hnone, htmp⟩
    · exact .inl (hcov.marked i hi hsame hrun)

theorem After.inv (ha : After idle s₀ M₀ M s) (h : Inv idle s₀) :
    Inv idle s ∧ s₀.calls ≤ s.calls := by
  induction ha with
  | refl => exact ⟨h, le_rfl⟩
  | step _ hs ih => exact ⟨ih.1.step hs, ih.2.trans (calls_le_of_step hs)⟩

theorem After.covers (ha : After idle s₀ M₀ M s) (h : Inv idle s₀)
    (hK : ∀ i ∈ K, ∃ c, s₀.call i = some c) (hcov : Covers s₀ K M₀ s₀) : Covers s₀ K M s := by
  induction ha with
  | refl => exact hcov
  | step ha hs ih =>
    obtain ⟨hinv, hle⟩ := ha.inv h
    refine ih.step (fun i hi => ?_) hinv hs
    obtain ⟨c, hc⟩ := hK i hi
    exact ⟨c, hc, (h.since_lt hc).trans_le hle⟩

omit [DecidableEq T] [DecidableEq Q] in
/-- A task that is asleep hangs, at some distance, on one that has been woken. -/
theorem Covers.exists_marked (hcov : Covers s₀ K M s)
    (h : Inv idle s) (hi : i ∈ K) (hcall : s.call i = s₀.call i)
    (hc : s.call i = some c) (hst : s.task i = some .uninterruptible) :
    ∃ j ∈ M, ∃ c', s.call j = s₀.call j ∧ s.call j = some c' ∧ c.since < c'.since := by
  -- the calls get newer on the way, up to the last one made
  induction hn : s.calls - c.since using Nat.strong_induction_on generalizing i c with
  | _ n ih =>
    obtain ⟨j, hj, hcj, hnext⟩ := hcov.held i hi hcall hst
    obtain ⟨c', hc', htmp⟩ := bind_eq_some_iff.mp hnext
    have hlt := h.older hc' htmp hc
    rcases h.state hc' with hsleep | hrun
    · have hlast := h.since_lt hc'
      obtain ⟨k, hk, c'', hck, hc'', hlt'⟩ := ih _ (by omega) hj hcj hc' hsleep rfl
      exact ⟨k, hk, c'', hck, hc'', hlt.trans hlt'⟩
    · exact ⟨j, hcov.marked j hj hcj hrun, c', hcj, hc', hlt⟩

/-- However the run goes on after `wake_up(&q)` in `s`, a task of `W` that is
still in its call is running as soon as the other tasks made runnable as a
consequence have been resumed. `M₀` are the first ones of them. -/
def WakesAll (idle : T) (s : Sys T Q) (q : Q) (M₀ W : Set T) : Prop :=
  ∀ M s', After idle (s.wakeUp q) M₀ M s' → ∀ i ∈ W,
    (∀ j ∈ M, j ≠ i → s'.call j ≠ s.call j) → s'.call i = s.call i → s'.task i = some .running

theorem wakesAll_of_covers (h : Inv idle s) {W : Set T} (hW : W ⊆ K)
    (hK : ∀ i ∈ K, ∃ c, s.call i = some c) (hcov : Covers (s.wakeUp q) K M₀ (s.wakeUp q)) :
    WakesAll idle s q M₀ W := by
  intro M s' ha i hi hresumed hcall
  have hcalls := call_wakeUp s q
  obtain ⟨hinv, -⟩ := ha.inv (h.wakeUp q)
  obtain ⟨c, hc⟩ := hK i (hW hi)
  refine (hinv.state (hcall.trans hc)).resolve_left fun hst => ?_
  obtain ⟨j, hj, c', hcj, hc', hlt⟩ := (ha.covers (h.wakeUp q) (hcalls ▸ hK) hcov).exists_marked
    hinv (hW hi) (hcalls ▸ hcall) (hcall.trans hc) hst
  refine hresumed j hj ?_ (hcalls ▸ hcj)
  rintro rfl
  rw [some.inj (hc'.symm.trans (hcall.trans hc))] at hlt
  exact lt_irrefl _ hlt

/-- The task that `wake_up(&q)` itself makes runnable. -/
def Sys.woken (s : Sys T Q) (q : Q) : Set T := {t | s.head q = some t}

/-- The tasks that `wake_up(&q)` leaves runnable in `sleep_on(&q)`, which besides
that one are those of earlier wake-ups that have not been resumed. -/
def Sys.runnable (s : Sys T Q) (q : Q) : Set T :=
  {t | (∃ c, s.call t = some c ∧ c.p = q) ∧ (s.wakeUp q).task t = some .running}

/-- The queue: the task in the variable, the one in its `tmp`, and so on. -/
inductive Sys.Queued (s : Sys T Q) (q : Q) : T → Prop
  | head {t : T} (h : s.head q = some t) : Queued s q t
  | tmp {j t : T} (h : Queued s q j) (ht : s.next j = some t) : Queued s q t

omit [DecidableEq T] [DecidableEq Q] in
theorem Inv.blocked_of_queued (h : Inv idle s) {t : T} (ht : s.Queued q t) : s.Blocked q t := by
  induction ht with
  | head ht => exact h.blocked (.inl ht)
  | tmp _ hnext ih =>
    obtain ⟨c, hc, htmp⟩ := bind_eq_some_iff.mp hnext
    obtain ⟨⟨c', hc', hq⟩, -⟩ := ih
    obtain rfl := some.inj (hc.symm.trans hc')
    exact h.blocked (.inr ⟨_, c, hc, hq, htmp⟩)

end

/-- Tasks 1 and 2 sleep, task 4 wakes task 2, and before that is resumed task 3
goes to sleep. -/
def twoWaves : Sys (Fin 5) Unit :=
  let s : Sys (Fin 5) Unit := ⟨fun _ => some .running, fun _ => none, fun _ => none, 1, 0⟩
  let s := (((s.sleepOn ()).resume 2).sleepOn ()).resume 4
  ((((s.wakeUp ()).resume 3).sleepOn ()).resume 4)

theorem reach_twoWaves : Reach 0 twoWaves := by
  have h : Reach 0 (⟨fun _ => some .running, fun _ => none, fun _ => none, 1, 0⟩ :
      Sys (Fin 5) Unit) := .start (fun _ => rfl) fun _ => rfl
  have h₁ := (h.step (.sleepOn ⟨rfl, .inl rfl⟩ (by decide) ())).step (.schedule (t := 2) (.inl rfl))
  have h₂ := (h₁.step (.sleepOn ⟨rfl, .inl rfl⟩ (by decide) ())).step (.schedule (t := 4) (.inl rfl))
  have h₃ := (h₂.step (.wakeUp ())).step (.schedule (t := 3) (.inl rfl))
  exact (h₃.step (.sleepOn ⟨rfl, .inl rfl⟩ (by decide) ())).step (.schedule (t := 4) (.inl rfl))

end LinuxRv.WaitQueue
