import LinuxRv.Proc.Exit
import LinuxRv.Proc.Fork

/-!
`sys_kill` (`kernel/exit.c`).

The four loops of `sys_kill` share a pointer that starts behind the last slot.
The `else` in front of the fourth loop stands after the `if` in the body of the
third one and belongs to it: with `pid == -1` the first task that gets the
signal hands the slots below it to the loop over a process group, the group 1,
and with `pid < -1` no loop runs.
-/

namespace LinuxRv.Proc

open ByteMemory Prog Minix List Proc.Kernel
open Mm (nrTasks)

/-! ### The source -/

/-- Whether `cur` may send a signal to `p`. -/
def maySignal (cur p : Task) : Bool := cur.euid = p.euid ∨ cur.euid = 0

/-- `1<<(sig-1)` -/
def signalBit (sig : Word) : Word := 1 <<< (sig.toNat - 1)

def sendSig (me : Slot) (sig : Word) (i : Slot) (priv : Bool) : ProcM ℤ := do
  let cur ← getTask me
  match (← get).task i with
  | none => return -einval
  | some p =>
    if sig.toInt < 1 ∨ 32 < sig.toInt then
      return -einval
    else if priv ∨ maySignal cur p then
      addSignal i (signalBit sig)
      return 0
    else
      return -eperm

/-- A loop that sends the signal to the tasks with `test`. -/
def killLoop (me : Slot) (sig : Word) (test : Task → Bool) (priv : Bool) : List Slot → ℤ → ProcM ℤ
  | [], retval => return retval
  | i :: l, retval => do
      if ((← get).task i).any test then
        let err ← sendSig me sig i priv
        killLoop me sig test priv l (if err ≠ 0 then err else retval)
      else
        killLoop me sig test priv l retval

/-- The loop for `pid == -1`, with the `else` of its `if`. -/
def killAll (me : Slot) (pid sig : Word) : List Slot → ℤ → ProcM ℤ
  | [], retval => return retval
  | i :: l, retval => do
      let err ← sendSig me sig i false
      if err ≠ 0 then
        killAll me pid sig l err
      else
        killLoop me sig (fun p => p.pgrp = -pid) false l retval

def sysKill (me : Slot) (pid sig : Word) : ProcM ℤ := do
  let cur ← getTask me
  if pid = 0 then
    killLoop me sig (fun p => p.pgrp = cur.pid) true fromLast 0
  else if 0 < pid.toInt then
    killLoop me sig (fun p => p.pid = pid) false fromLast 0
  else if pid = -1 then
    killAll me pid sig fromLast 0
  else
    return 0

/-! ### The tasks that get the signal -/

def Task.pend (t : Task) (bit : Word) : Task := { t with signal := t.signal ||| bit }

/-- The signal `bit` is pending for the tasks in `l`. -/
def Kernel.post (k : Kernel) (bit : Word) (l : List Slot) : Kernel :=
  { k with task := fun i => if i ∈ l then (k.task i).map fun p => p.pend bit else k.task i }

/-- The slot of a task with `test`. -/
def Kernel.has (k : Kernel) (test : Task → Bool) (i : Slot) : Bool := (k.task i).any test

/-- Of the slots in `l`, those the loop for `pid == -1` finds. -/
def reached (k : Kernel) (cur : Task) (pid : Word) : List Slot → List Slot
  | [] => []
  | i :: l =>
    if k.has (maySignal cur) i then
      i :: l.filter (k.has fun p => p.pgrp = -pid ∧ maySignal cur p)
    else reached k cur pid l

section

variable {k : Kernel} {me i : Slot} {cur : Task} {sig pid bit : Word} {l : List Slot}
  {E : Minix.Halt → Kernel → Prop} {test : Task → Bool} {j : Slot} {priv : Bool}

theorem Kernel.post_nil (k : Kernel) (bit : Word) : k.post bit [] = k := by
  simp [post]

theorem Kernel.post_post (hi : i ∉ l) : (k.post bit [i]).post bit l = k.post bit (i :: l) := by
  unfold post
  congr 1
  funext j
  by_cases hj : j = i
  · subst hj
    simp [hi]
  · simp [hj]

theorem Kernel.task_post_of_ne (h : j ≠ i) : (k.post bit [i]).task j = k.task j := by
  simp [post, h]

theorem Kernel.has_post_of_ne (h : j ≠ i) : (k.post bit [i]).has test j = k.has test j := by
  rw [has, task_post_of_ne h, has]

theorem wp_addSignal {Q : PUnit → Kernel → Prop} :
    wp (addSignal i bit) Q E k ↔ Q ⟨⟩ (k.post bit [i]) := by
  have hpost : k.setTask i ((k.task i).map fun t => t.pend bit) = k.post bit [i] := by
    unfold setTask post
    congr 1
    funext j
    by_cases hj : j = i
    · subst hj
      simp
    · simp [hj]
  rw [addSignal, wp_updateTask, ← hpost]
  rfl

/-- Sending a signal succeeds exactly for a task the sender may signal. -/
theorem wp_sendSig {Q : ℤ → Kernel → Prop} (hcur : k.task me = some cur)
    (hsig : 1 ≤ sig.toNat ∧ sig.toNat ≤ 32)
    (hsent : k.has (fun p => priv || maySignal cur p) i = true → Q 0 (k.post (signalBit sig) [i]))
    (hnot : k.has (fun p => priv || maySignal cur p) i = false → ∀ err, err ≠ 0 → Q err k) :
    wp (sendSig me sig i priv) Q E k := by
  have hrange : ¬ (sig.toInt < 1 ∨ 32 < sig.toInt) := by
    rw [BitVec.toInt_eq_toNat_of_lt (by omega)]
    omega
  rw [sendSig, wp_bind, wp_getTask hcur, wp_bind, wp_get]
  cases ht : k.task i with
  | none => exact wp_pure.mpr (hnot (by rw [has, ht]; rfl) _ (by decide))
  | some p =>
    have hhas : k.has (fun p => priv || maySignal cur p) i = (priv || maySignal cur p) := by
      rw [has, ht, Option.any_some]
    dsimp only
    rw [if_neg hrange]
    refine wp_ite.mpr ⟨fun hmay => ?_, fun hmay => ?_⟩
    · rw [wp_bind, wp_addSignal, wp_pure]
      exact hsent (hhas.trans (by simpa using hmay))
    · exact wp_pure.mpr (hnot (hhas.trans (by simpa using hmay)) _ (by decide))

/-- What a signal to `i` changes does not matter for the slots in `l`. -/
theorem filter_has_post (hi : i ∉ l) :
    l.filter ((k.post bit [i]).has test) = l.filter (k.has test) :=
  filter_congr fun _ hj => has_post_of_ne fun h => hi (h ▸ hj)

/-- The caller is still there, with the same user. -/
theorem task_post (hcur : k.task me = some cur) (bit : Word) (i : Slot) :
    ∃ cur', (k.post bit [i]).task me = some cur' ∧ maySignal cur' = maySignal cur := by
  by_cases h : me = i
  · subst h
    exact ⟨cur.pend bit, by simp [post, hcur], rfl⟩
  · exact ⟨cur, by rw [task_post_of_ne h, hcur], rfl⟩

theorem wp_killLoop {r : ℤ} (hcur : k.task me = some cur) (hsig : 1 ≤ sig.toNat ∧ sig.toNat ≤ 32)
    (hl : l.Nodup) : wp (killLoop me sig test priv l r) (fun _ k' => k' = k.post (signalBit sig)
      (l.filter (k.has fun p => test p && (priv || maySignal cur p)))) E k := by
  induction l generalizing k cur r with
  | nil => exact wp_pure.mpr (post_nil k _).symm
  | cons i l ih =>
    obtain ⟨hi, hl⟩ := nodup_cons.mp hl
    have hhas : k.has (fun p => test p && (priv || maySignal cur p)) i =
        (k.has test i && k.has (fun p => priv || maySignal cur p) i) := by
      unfold has
      cases k.task i <;> rfl
    have hskip (h : (k.has test i && k.has (fun p => priv || maySignal cur p) i) = false)
        {r : ℤ} : wp (killLoop me sig test priv l r) (fun _ k' => k' = k.post (signalBit sig)
            ((i :: l).filter (k.has fun p => test p && (priv || maySignal cur p)))) E k := by
      rw [filter_cons_of_neg (by rw [hhas, h]; exact Bool.false_ne_true)]
      exact ih hcur hl
    rw [killLoop, wp_bind, wp_get]
    refine wp_ite.mpr ⟨fun htest => ?_, fun htest => ?_⟩
    · refine wp_bind.mpr (wp_sendSig hcur hsig (fun hmay => ?_) fun hmay err _ => ?_)
      · obtain ⟨cur', hcur', hsame⟩ := task_post hcur (signalBit sig) i
        have htest : k.has test i = true := htest
        rw [filter_cons_of_pos (by rw [hhas, htest, hmay]; rfl)]
        have hrest := ih (r := if (0 : ℤ) ≠ 0 then 0 else r) hcur' hl
        rw [filter_has_post hi, hsame, post_post fun h => hi (mem_of_mem_filter h)] at hrest
        exact hrest
      · exact hskip (by rw [hmay, Bool.and_false])
    · exact hskip (by rw [has, Bool.eq_false_iff.mpr htest, Bool.false_and])

theorem wp_killAll {retval : ℤ} (hcur : k.task me = some cur)
    (hsig : 1 ≤ sig.toNat ∧ sig.toNat ≤ 32) (hl : l.Nodup) : wp (killAll me pid sig l retval)
      (fun _ k' => k' = k.post (signalBit sig) (reached k cur pid l)) E k := by
  induction l generalizing retval with
  | nil => exact wp_pure.mpr (post_nil k _).symm
  | cons i l ih =>
    obtain ⟨hi, hl⟩ := nodup_cons.mp hl
    rw [killAll, reached]
    refine wp_bind.mpr (wp_sendSig hcur hsig (fun hmay => ?_) fun hmay err herr => ?_)
    · have hmay : k.has (maySignal cur) i = true := hmay
      obtain ⟨cur', hcur', hsame⟩ := task_post hcur (signalBit sig) i
      rw [if_pos hmay, if_neg (not_not.mpr rfl)]
      -- the rest of the slots is for the loop over the process group
      refine (wp_killLoop hcur' hsig hl).imp fun _ k' h' => h'.trans ?_
      rw [filter_has_post hi, hsame, post_post fun h => hi (mem_of_mem_filter h)]
      simp only [Bool.false_or, Bool.decide_and, Bool.decide_eq_true]
    · have hmay : k.has (maySignal cur) i = false := hmay
      rw [hmay, if_neg Bool.false_ne_true, if_pos herr]
      exact ih hl

/-- The loop finds a task if it is in the process group, or no slot above it is
that of a task with a signal. -/
theorem mem_reached (hl : l.Pairwise (· > ·)) : i ∈ reached k cur pid l ↔
    i ∈ l ∧ k.has (maySignal cur) i = true ∧ (k.has (fun p => p.pgrp = -pid) i = true ∨
      ∀ j ∈ l, i < j → k.has (maySignal cur) j = false) := by
  induction l with
  | nil => simp [reached]
  | cons a l ih =>
    obtain ⟨ha, hl⟩ := pairwise_cons.mp hl
    have hlt : i ∈ l → i < a := fun h => ha i h
    have hgroup : k.has (fun p => p.pgrp = -pid ∧ maySignal cur p) i =
        (k.has (fun p => p.pgrp = -pid) i && k.has (maySignal cur) i) := by
      unfold has
      cases k.task i <;> simp
    rw [reached]
    by_cases hmay : k.has (maySignal cur) a = true
    · rw [if_pos hmay, mem_cons, mem_filter, hgroup, Bool.and_eq_true, mem_cons]
      constructor
      · rintro (rfl | ⟨hi, hpgrp, hsig⟩)
        · refine ⟨.inl rfl, hmay, .inr fun j hj hij => ?_⟩
          rcases mem_cons.mp hj with rfl | hj
          · exact absurd hij (lt_irrefl _)
          · exact absurd hij (not_lt.mpr (ha j hj).le)
        · exact ⟨.inr hi, hsig, .inl hpgrp⟩
      · rintro ⟨rfl | hi, hsig, hpgrp | hnone⟩
        · exact .inl rfl
        · exact .inl rfl
        · exact .inr ⟨hi, hpgrp, hsig⟩
        · rw [hnone a (.head _) (hlt hi)] at hmay
          cases hmay
    · rw [if_neg hmay, ih hl, mem_cons]
      have hmay : k.has (maySignal cur) a = false := Bool.eq_false_iff.mpr hmay
      constructor
      · rintro ⟨hi, hsig, hpgrp | hnone⟩
        · exact ⟨.inr hi, hsig, .inl hpgrp⟩
        · refine ⟨.inr hi, hsig, .inr fun j hj hij => ?_⟩
          rcases mem_cons.mp hj with rfl | hj
          · exact hmay
          · exact hnone j hj hij
      · rintro ⟨rfl | hi, hsig, hrest⟩
        · rw [hmay] at hsig
          cases hsig
        · exact ⟨hi, hsig, hrest.imp_right fun hnone j hj => hnone j (.tail _ hj)⟩

theorem mem_fromLast : i ∈ fromLast ↔ i ≠ 0 := by
  revert i
  decide

theorem pairwise_fromLast : fromLast.Pairwise (· > ·) := by decide

theorem nodup_fromLast : fromLast.Nodup := pairwise_fromLast.imp fun h => h.ne'

/-- Posting to two sets of tasks is the same if they differ in tasks for which
the signal is pending already. -/
theorem Kernel.post_eq_iff {l l' : List Slot} : k.post bit l = k.post bit l' ↔
    ∀ i p, k.task i = some p → p.signal ||| bit ≠ p.signal → (i ∈ l ↔ i ∈ l') := by
  have hpend (p : Task) : p.pend bit = p ↔ p.signal ||| bit = p.signal :=
    ⟨fun h => congrArg Task.signal h, fun h => by rw [Task.pend, h]⟩
  constructor
  · intro h i p hp hne
    have htask : (k.post bit l).task i = (k.post bit l').task i := by rw [h]
    simp only [post, hp, Option.map_some] at htask
    by_cases hl : i ∈ l <;> by_cases hl' : i ∈ l' <;> simp [hl, hl'] at htask ⊢
    · exact hne ((hpend p).mp htask)
    · exact hne ((hpend p).mp htask.symm)
  · intro h
    unfold post
    congr 1
    funext i
    cases hp : k.task i with
    | none => simp
    | some p =>
      by_cases hne : p.signal ||| bit = p.signal
      · simp [(hpend p).mpr hne]
      · simp only [h i p hp hne]

/-! ### Which calls are right -/

/-- Whether `kill(pid, ..)` is for `p`, with `pid` not 0. -/
def addressed (pid : Word) (p : Task) : Bool :=
  if 0 < pid.toInt then p.pid = pid else pid = -1 ∨ p.pgrp = -pid

/-- `sys_kill` returns, the signal is pending for the tasks it is for and the
caller may send it to, and nothing else has changed. -/
def KillsRight (k : Kernel) (me : Slot) (cur : Task) (pid sig : Word) : Prop :=
  wp (sysKill me pid sig) (fun _ k' => k' = k.post (signalBit sig)
    (fromLast.filter (k.has fun p => addressed pid p && maySignal cur p))) (fun _ _ => False) k

/-- Every task the caller may send the signal to, and for which it is not
pending, is one the call does not miss. -/
def MissesNone (k : Kernel) (cur : Task) (pid sig : Word) : Prop :=
  ∀ i p, i ≠ 0 → k.task i = some p → maySignal cur p = true →
    p.signal ||| signalBit sig ≠ p.signal → 0 < pid.toInt ∨
      (pid = -1 ∧ (p.pgrp = 1 ∨ ∀ j, i < j → k.has (maySignal cur) j = false)) ∨
      (pid ≠ -1 ∧ p.pgrp ≠ -pid)

/-- What `sys_kill` does. -/
theorem wp_sysKill (hcur : k.task me = some cur) (hsig : 1 ≤ sig.toNat ∧ sig.toNat ≤ 32)
    (hpid : pid ≠ 0) : wp (sysKill me pid sig) (fun _ k' => k' = k.post (signalBit sig)
      (if 0 < pid.toInt then fromLast.filter (k.has fun p => addressed pid p && maySignal cur p)
      else if pid = -1 then reached k cur pid fromLast else [])) E k := by
  rw [sysKill, wp_bind, wp_getTask hcur, if_neg hpid]
  refine wp_ite.mpr ⟨fun hpos => ?_, fun hpos => wp_ite.mpr ⟨fun hall => ?_, fun hall => ?_⟩⟩
  · refine (wp_killLoop hcur hsig nodup_fromLast).imp fun _ k' h => h.trans ?_
    simp only [addressed, hpos, if_true, Bool.false_or]
  · rw [if_neg hpos, if_pos hall]
    exact wp_killAll hcur hsig nodup_fromLast
  · rw [if_neg hpos, if_neg hall]
    exact wp_pure.mpr (post_nil k _).symm

/-- Whether the call is right depends on the tasks it posts the signal to. -/
theorem killsRight_iff_of_wp {l : List Slot} (h : wp (sysKill me pid sig)
    (fun _ k' => k' = k.post (signalBit sig) l) (fun _ _ => False) k) :
    KillsRight k me cur pid sig ↔ ∀ i p, k.task i = some p →
      p.signal ||| signalBit sig ≠ p.signal → (i ∈ l ↔
        i ∈ fromLast.filter (k.has fun p => addressed pid p && maySignal cur p)) := by
  rw [← post_eq_iff]
  refine ⟨fun h' => ?_, fun heq => h.imp fun _ k' hk => hk.trans heq⟩
  by_contra hne
  exact not_wp_false ((wp_and h h').imp fun _ _ hk => hne (hk.1.symm.trans hk.2))

/-- `sys_kill` reaches exactly the right tasks if it misses none. -/
theorem kill_right_iff (hcur : k.task me = some cur) (hsig : 1 ≤ sig.toNat ∧ sig.toNat ≤ 32)
    (hpid : pid ≠ 0) : KillsRight k me cur pid sig ↔ MissesNone k cur pid sig := by
  have hhas (i : Slot) (p : Task) (hp : k.task i = some p) (test : Task → Bool) :
      k.has test i = test p := by
    rw [has, hp, Option.any_some]
  rw [killsRight_iff_of_wp (wp_sysKill hcur hsig hpid)]
  by_cases hpos : 0 < pid.toInt
  · rw [if_pos hpos]
    exact iff_of_true (fun _ _ _ _ => Iff.rfl) fun _ _ _ _ _ _ => .inl hpos
  · rw [if_neg hpos]
    refine forall_congr' fun i => forall_congr' fun p => ?_
    by_cases hp : k.task i = some p
    · have hright : i ∈ fromLast.filter (k.has fun p => addressed pid p && maySignal cur p) ↔
          i ≠ 0 ∧ (pid = -1 ∨ p.pgrp = -pid) ∧ maySignal cur p = true := by
        rw [mem_filter, mem_fromLast, hhas i p hp]
        simp [addressed, hpos]
      rw [hright]
      by_cases hall : pid = -1
      · have hone : -pid = 1 := by
          rw [hall]
          rfl
        rw [if_pos hall, mem_reached pairwise_fromLast, mem_fromLast, hhas i p hp, hhas i p hp]
        have habove : (∀ j ∈ fromLast, i < j → k.has (maySignal cur) j = false) ↔
            ∀ j, i < j → k.has (maySignal cur) j = false :=
          ⟨fun h j hij => h j (mem_fromLast.mpr fun h0 => by rw [h0] at hij; cases hij) hij,
            fun h j _ => h j⟩
        rw [habove, hone, decide_eq_true_eq]
        simp only [hp, hall, ne_eq, true_or, true_and, not_true_eq_false, false_and, or_false,
          forall_const]
        tauto
      · rw [if_neg hall]
        simp only [hp, hpos, hall, not_mem_nil, ne_eq, false_or, false_and, not_false_eq_true,
          true_and, forall_const]
        tauto
    · simp [hp]

end

/-- Two tasks of the process group 5 besides task 0. -/
def groupOfTwo : Kernel :=
  let k := single ⟨fun _ => 0, fun _ => 0, false⟩ 0
  { k with task := fun i =>
      if i = 1 then (k.task 0).map fun t => { t with pid := 2, pgrp := 5 }
      else if i = 2 then (k.task 0).map fun t => { t with pid := 3, pgrp := 5 }
      else k.task i }

/-- `kill(2, SIGKILL)` -/
theorem kill_right_process : ∃ cur, groupOfTwo.task 1 = some cur ∧
    KillsRight groupOfTwo 1 cur 2 9 :=
  ⟨_, rfl, (kill_right_iff rfl (by decide) (by decide)).mpr fun _ _ _ _ _ _ => .inl (by decide)⟩

/-- `kill(-5, SIGKILL)` reaches nobody, and `kill(-1, SIGKILL)` misses task 1. -/
theorem kill_group_missed : ∃ cur, groupOfTwo.task 1 = some cur ∧
    ¬ KillsRight groupOfTwo 1 cur (-5) 9 ∧ ¬ KillsRight groupOfTwo 1 cur (-1) 9 := by
  refine ⟨_, rfl, fun h => ?_, fun h => ?_⟩
  · have hpost := (killsRight_iff_of_wp (wp_sysKill rfl (by decide) (by decide))).mp h 1 _ rfl
      (by decide)
    exact absurd (hpost.mpr (by decide)) (by decide)
  · have hpost := (killsRight_iff_of_wp (wp_sysKill rfl (by decide) (by decide))).mp h 1 _ rfl
      (by decide)
    exact absurd (hpost.mpr (by decide)) (by decide)

end LinuxRv.Proc
