import LinuxRv.Proc.Kill

/-!
Who is in the task table, before and after `fork`, `exit`, `waitpid` and `kill`.

Of a task only the process number, the father, the exit code and whether it is a
zombie are looked at. Most of the kernel leaves these alone; the calls that do
not are functions of this table, whatever else they do.
-/

namespace LinuxRv.Proc

open ByteMemory Prog Fs Minix Function Proc.Kernel
open Mm (nrTasks)
open Option (map_none map_some some)

@[ext] structure Ident where
  pid : Word
  father : Word
  exitCode : Word
  zombie : Bool
  deriving DecidableEq

def Task.ident (t : Task) : Ident := ⟨t.pid, t.father, t.exitCode, t.state = .zombie⟩

abbrev Table := Slot → Option Ident

def Kernel.table (k : Kernel) : Table := fun i => (k.task i).map Task.ident

/-- The table and the last process number given out. -/
structure Kernel.Same (k k' : Kernel) : Prop where
  table : k'.table = k.table
  lastPid : k'.lastPid = k.lastPid

theorem Kernel.Same.refl (k : Kernel) : k.Same k := ⟨rfl, rfl⟩

theorem Kernel.Same.trans {k k' k'' : Kernel} (h : k.Same k') (h' : k'.Same k'') : k.Same k'' :=
  ⟨h'.table.trans h.table, h'.lastPid.trans h.lastPid⟩

theorem Kernel.table_setTask (k : Kernel) (i : Slot) (o : Option Task) :
    (k.setTask i o).table = update k.table i (o.map Task.ident) := by
  funext j
  rcases eq_or_ne j i with rfl | hne
  · simp [table, setTask]
  · simp [table, setTask, hne]

theorem Kernel.table_of_task {k : Kernel} {i : Slot} {t : Task} (h : k.task i = some t) :
    k.table i = some t.ident := by
  rw [table, h, map_some]

theorem Kernel.task_of_table {k : Kernel} {i : Slot} {z : Ident} (h : k.table i = some z) :
    ∃ t, k.task i = some t ∧ t.ident = z := Option.map_eq_some_iff.mp h

theorem Kernel.same_setTask {k : Kernel} {i : Slot} {f : Task → Task}
    (hf : ∀ t, (f t).ident = t.ident) : k.Same (k.setTask i ((k.task i).map f)) := by
  refine ⟨?_, rfl⟩
  rw [table_setTask, Option.map_map, show Task.ident ∘ f = Task.ident from funext hf]
  exact update_eq_self _ _

/-! ### What leaves the table alone -/

section

variable {k₀ : Kernel} {me : Slot} {sig : Word} {i : Slot} {priv : Bool} {rd : RamDisk} {α : Type}

/-- The program leaves the table as it is, if it returns. -/
abbrev KeepsTable {α : Type} (k₀ : Kernel) (c : ProcM α) : Prop :=
  Keeps k₀.Same (fun _ _ => True) c

theorem keepsTable_liftFs (c : FsM α) : KeepsTable k₀ (liftFs c) := by
  intro k h
  rw [wp_liftFs]
  exact wp_of_forall (fun _ _ => ⟨h.table, h.lastPid⟩) fun _ _ => trivial

theorem keepsTable_liftMm (c : Mm.M α) : KeepsTable k₀ (liftMm c) := keepsTable_liftFs _

theorem keepsTable_getTask (i : Slot) : KeepsTable k₀ (getTask i) :=
  fun _ h => wp_getTask_of trivial fun _ _ => h

theorem keepsTable_updateTask {f : Task → Task} (hf : ∀ t, (f t).ident = t.ident) :
    KeepsTable k₀ (updateTask i f) :=
  .modify fun _ h => h.trans (same_setTask hf)

theorem keepsTable_addSignal (i : Slot) (bit : Word) : KeepsTable k₀ (addSignal i bit) :=
  keepsTable_updateTask fun _ => rfl

theorem keepsTable_closeFd (fd : Fin nrOpen) : KeepsTable k₀ (closeFd rd me fd) := by
  refine .bind (keepsTable_updateTask (by exact fun _ => rfl)) fun _ => ?_
  refine (keepsTable_getTask me).bind fun t => ?_
  split
  · exact .pure _
  · refine .bind (keepsTable_updateTask (by exact fun _ => rfl)) fun _ => ?_
    refine Keeps.get.bind fun k => ?_
    refine .ite (.throw fun _ _ => trivial) (.bind ?_ fun _ => ?_)
    · exact .modify fun _ h => ⟨h.table, h.lastPid⟩
    · exact .ite (.pure _) ((keepsTable_liftFs _).bind fun _ => .pure _)

theorem keepsTable_closeAll : KeepsTable k₀ (closeAll rd me) :=
  .forN fun _ => (keepsTable_getTask me).bind fun _ =>
    .ite (keepsTable_closeFd _).discard (.pure _)

theorem keepsTable_killSession : KeepsTable k₀ (killSession me) := by
  refine (keepsTable_getTask me).bind fun _ => .forM fun i => Keeps.get.bind fun _ => ?_
  split
  · exact .pure _
  · exact .ite (keepsTable_addSignal _ _) (.pure _)

theorem keepsTable_leaveSession : KeepsTable k₀ (leaveSession me) := by
  refine (keepsTable_getTask me).bind fun _ => .ite (.ite ?_ keepsTable_killSession) (.pure _)
  exact .bind (.modify fun _ h => ⟨h.table, h.lastPid⟩) fun _ => keepsTable_killSession

theorem keepsTable_sendSig : KeepsTable k₀ (sendSig me sig i priv) := by
  refine (keepsTable_getTask me).bind fun _ => Keeps.get.bind fun _ => ?_
  split
  · exact .pure _
  · exact .ite (.pure _) (.ite ((keepsTable_addSignal _ _).bind fun _ => .pure _) (.pure _))

theorem keepsTable_killLoop {test : Task → Bool} (l : List Slot) (r : ℤ) :
    KeepsTable k₀ (killLoop me sig test priv l r) := by
  induction l generalizing r with
  | nil => exact .pure _
  | cons i l ih =>
    exact Keeps.get.bind fun _ => .ite (keepsTable_sendSig.bind fun _ => ih _) (ih _)

theorem keepsTable_killAll {pid : Word} (l : List Slot) (r : ℤ) :
    KeepsTable k₀ (killAll me pid sig l r) := by
  induction l generalizing r with
  | nil => exact .pure _
  | cons i l ih =>
    exact keepsTable_sendSig.bind fun _ => .ite (ih _) (keepsTable_killLoop _ _)

/-- A signal does not change the table. -/
theorem keepsTable_sysKill {pid : Word} : KeepsTable k₀ (sysKill me pid sig) :=
  (keepsTable_getTask me).bind fun _ => .ite (keepsTable_killLoop _ _)
    (.ite (keepsTable_killLoop _ _) (.ite (keepsTable_killAll _ _) (.pure _)))

end

/-! ### `exit` -/

/-- The children of `pid` get process 1 as their father. -/
def Table.adopt (τ : Table) (pid : Word) : Table := fun i =>
  (τ i).map fun t => if t.father = pid then { t with father := 1 } else t

/-- `do_exit` up to the point where it first may sleep. -/
def exitStart (me : Slot) : ProcM PUnit := do
  liftMm (Mm.freePageTables (← getTask me).pgdir)
  updateTask me fun t => { t with pgdir := 0 }
  orphan me

/-- `do_exit` between the first and the last part. -/
def exitFiles (rd : RamDisk) (me : Slot) : ProcM PUnit := do
  closeAll rd me
  liftFs (iput rd (← getTask me).pwd)
  updateTask me fun t => { t with pwd := none }
  liftFs (iput rd (← getTask me).root)
  updateTask me fun t => { t with root := none }
  liftFs (iput rd (← getTask me).executable)
  updateTask me fun t => { t with executable := none }
  leaveSession me

/-- The last part of `do_exit`. -/
def exitEnd (me : Slot) (code : Word) : ProcM PUnit := do
  updateTask me fun t => { t with state := .zombie, exitCode := code }
  tellFather me (← getTask me).father

theorem doExit_eq (rd : RamDisk) (me : Slot) (code : Word) :
    doExit rd me code = (do exitStart me; exitFiles rd me; exitEnd me code) := by
  simp only [doExit, exitStart, exitFiles, exitEnd, bind_assoc]

section

variable {k k₀ : Kernel} {me : Slot} {cur : Task} {E : Minix.Halt → Kernel → Prop} {code : Word}
  {f : Ident} {j : Slot} {rd : RamDisk}

theorem keepsTable_exitFiles : KeepsTable k₀ (exitFiles rd me) := by
  have hput (o : Task → Option Ino) (f : Task → Task) (hf : ∀ t, (f t).ident = t.ident)
      {c : ProcM PUnit} (hc : KeepsTable k₀ c) : KeepsTable k₀ (do
        liftFs (iput rd (o (← getTask me)))
        updateTask me f
        c) :=
    (keepsTable_getTask me).bind fun _ => (keepsTable_liftFs _).bind fun _ =>
      (keepsTable_updateTask hf).bind fun _ => hc
  refine keepsTable_closeAll.bind fun _ => ?_
  refine hput Task.pwd _ (by exact fun _ => rfl) ?_
  refine hput Task.root _ (by exact fun _ => rfl) ?_
  exact hput Task.executable _ (by exact fun _ => rfl) keepsTable_leaveSession

/-- The loop over the children has come to slot `n`. -/
def Table.adoptBelow (τ : Table) (pid : Word) (n : ℕ) : Table := fun i =>
  if i.1 < n then τ.adopt pid i else τ i

theorem Table.adoptBelow_zero (τ : Table) (pid : Word) : τ.adoptBelow pid 0 = τ :=
  funext fun i => if_neg (Nat.not_lt_zero i)

theorem Table.adoptBelow_all (τ : Table) (pid : Word) : τ.adoptBelow pid nrTasks = τ.adopt pid :=
  funext fun i => if_pos i.isLt

theorem Table.adoptBelow_succ (τ : Table) (pid : Word) (i : Slot) :
    τ.adoptBelow pid (i + 1) = update (τ.adoptBelow pid i) i (τ.adopt pid i) := by
  funext j
  rcases eq_or_ne j i with rfl | hne
  · rw [update_self, adoptBelow, if_pos (Nat.lt_succ_self _)]
  · have hval : j.1 ≠ i.1 := Fin.val_ne_of_ne hne
    rw [update_of_ne hne, adoptBelow, adoptBelow]
    exact if_congr (by omega) rfl rfl

theorem wp_orphan (hcur : k.task me = some cur) :
    wp (orphan me) (fun _ k' => k'.table = k.table.adopt cur.pid ∧ k'.lastPid = k.lastPid)
      (fun _ _ => True) k := by
  rw [orphan, wp_bind, wp_getTask hcur, ← Table.adoptBelow_all]
  refine wp_forN (fun n (k' : Kernel) => k'.table = k.table.adoptBelow cur.pid n ∧ k'.lastPid = k.lastPid)
    (fun i k' h => ?_) ⟨(Table.adoptBelow_zero _ _).symm, rfl⟩
  obtain ⟨htable, hlast⟩ := h
  have hi : k.table i = k'.table i := by
    rw [htable, Table.adoptBelow, if_neg (lt_irrefl _)]
  rw [wp_bind, wp_get, Table.adoptBelow_succ, ← htable, Table.adopt, hi]
  cases hp : k'.task i with
  | none =>
    have hnone : k'.table i = none := by rw [table, hp, map_none]
    rw [hnone, map_none, ← hnone, update_eq_self]
    exact wp_pure.mpr ⟨rfl, hlast⟩
  | some p =>
    have hsome := table_of_task hp
    rw [hsome, map_some]
    refine wp_ite.mpr ⟨fun hfather => ?_, fun hfather => wp_pure.mpr ⟨?_, hlast⟩⟩
    · rw [if_pos (show p.ident.father = cur.pid from hfather), wp_bind, wp_updateTask, hp, map_some]
      have hadopt : (k'.setTask i (some { p with father := 1 })).table =
          update k'.table i (some { p.ident with father := 1 }) :=
        table_setTask ..
      refine wp_ite.mpr ⟨fun _ => ?_, fun _ => wp_pure.mpr ⟨hadopt, hlast⟩⟩
      exact (keepsTable_addSignal 1 sigChld _ (.refl _)).imp fun _ _ h =>
        ⟨h.table.trans hadopt, h.lastPid.trans hlast⟩
    · rw [if_neg (show ¬ p.ident.father = cur.pid from hfather), ← hsome, update_eq_self]

theorem wp_exitStart (hcur : k.task me = some cur) :
    wp (exitStart me) (fun _ k' => k'.table = k.table.adopt cur.pid ∧ k'.lastPid = k.lastPid)
      (fun _ _ => True) k := by
  have hstop : ∀ (e : Minix.Halt) (k : Kernel), True → True := fun _ _ h => h
  refine (keepsTable_getTask me).wp_then hstop (.refl k) fun _ k₁ h => ?_
  refine (keepsTable_liftMm _).wp_then hstop h fun _ k₁ h => ?_
  refine Keeps.wp_then (keepsTable_updateTask (by exact fun _ => rfl)) hstop h fun _ k₁ h => ?_
  obtain ⟨t, ht, hid⟩ := task_of_table (h.table ▸ table_of_task hcur)
  refine (wp_orphan ht).imp fun _ k' h' => ⟨?_, h'.2.trans h.lastPid⟩
  rw [h'.1, h.table, show t.pid = cur.pid from congrArg Ident.pid hid]

/-- `release` empties the slot. -/
theorem wp_release_table {i : Slot} :
    wp (release i) (fun _ k' => k'.table = update k.table i none ∧ k'.lastPid = k.lastPid)
      (fun _ _ => True) k := by
  rw [release, wp_bind]
  refine wp_getTask_of trivial fun p _ => ?_
  refine wp_ite.mpr ⟨fun _ => wp_throw.mpr trivial, fun _ => ?_⟩
  rw [wp_bind, wp_modify]
  refine (keepsTable_liftMm _ _ (.refl _)).imp fun _ _ h => ⟨?_, h.lastPid⟩
  rw [h.table, table_setTask, map_none]

/-- A father in the table gets a signal. -/
theorem wp_tellFather_table {pid : Word} (hzero : pid ≠ 0) (hj : k.table j = some f)
    (hf : f.pid = pid) : wp (tellFather me pid) (fun _ k' => k.Same k') (fun _ _ => True) k := by
  rw [tellFather, wp_bind, wp_get]
  split
  · exact keepsTable_addSignal _ _ k (.refl k)
  · next hnone =>
      obtain ⟨t, ht, hid⟩ := task_of_table hj
      have hpid : t.pid = pid := (congrArg Ident.pid hid).trans hf
      exact absurd hnone (by simpa [List.find?_eq_none] using ⟨hzero, j, by simp [ht, hpid]⟩)

/-- The zombie stays if its father is in the table. -/
theorem wp_exitEnd (hcur : k.task me = some cur) (hzero : cur.father ≠ 0) (hj : k.table j = some f)
    (hf : f.pid = cur.father) : wp (exitEnd me code) (fun _ k' => k'.table = update k.table me
      (some { cur.ident with exitCode := code, zombie := true }) ∧ k'.lastPid = k.lastPid)
      (fun _ _ => True) k := by
  rw [exitEnd, wp_bind, wp_updateTask, hcur, map_some, wp_bind]
  refine (wp_getTask (update_self ..)).mpr ?_
  have htable : (k.setTask me (some { cur with state := .zombie, exitCode := code })).table =
      update k.table me (some { cur.ident with exitCode := code, zombie := true }) :=
    table_setTask ..
  -- the father may be the zombie itself as far as this is concerned
  obtain ⟨f', hj', hf'⟩ : ∃ f', (k.setTask me
      (some { cur with state := .zombie, exitCode := code })).table j = some f' ∧
        f'.pid = cur.father := by
    rw [htable]
    rcases eq_or_ne j me with rfl | hne
    · refine ⟨_, update_self .., ?_⟩
      rw [table_of_task hcur] at hj
      exact (congrArg Ident.pid (some.inj hj)).trans hf
    · exact ⟨f, (update_of_ne hne ..).trans hj, hf⟩
  exact (wp_tellFather_table hzero hj' hf').imp fun _ k' h => ⟨h.table.trans htable, h.lastPid⟩

/-- The three parts of `do_exit`, the middle one of which may sleep. -/
theorem exists_of_doExit {k' : Kernel} (h : doExit rd me code k = .ok ⟨⟩ k') :
    ∃ k₁ k₂, exitStart me k = .ok ⟨⟩ k₁ ∧ k₁.Same k₂ ∧ exitEnd me code k₂ = .ok ⟨⟩ k' := by
  rw [doExit_eq] at h
  obtain ⟨⟨⟩, k₁, h₁, h⟩ := exists_of_bind h
  obtain ⟨⟨⟩, k₂, h₂, h⟩ := exists_of_bind h
  exact ⟨k₁, k₂, h₁, (keepsTable_exitFiles k₁ (.refl k₁)).of_ok h₂, h⟩

/-! ### `fork` -/

theorem Kernel.FreshPid.ne {pid : Word} (h : k.FreshPid pid) {i : Slot} {z : Ident}
    (hz : k.table i = some z) : z.pid ≠ pid := by
  obtain ⟨t, ht, rfl⟩ := task_of_table hz
  have hunused := h.unused
  simp only [pidUsed, List.any_eq_false, Option.any_eq_true] at hunused
  intro hpid
  exact hunused i (List.mem_finRange i) ⟨t, ht, decide_eq_true hpid⟩

/-- The table after a fork or a new thread by `cur`: a process with a fresh
number in an empty slot, or nothing new. -/
def Forked (k : Kernel) (cur : Task) (k' : Kernel) : Prop :=
  ∃ pid, k.FreshPid pid ∧ k'.lastPid = pid ∧ (k'.table = k.table ∨ ∃ nr, k.table nr = none ∧
      k'.table = update k.table nr (some ⟨pid, cur.pid, cur.exitCode, false⟩))

theorem Kernel.table_shared {nr : Slot} {t : Task} (k : Kernel) (cur : Task) :
    ((k.setTask nr (some t)).shared nr cur).table =
      update k.table nr (some { t.ident with zombie := false }) := by
  funext j
  rcases eq_or_ne j nr with rfl | hne
  · simp [table, shared, setTask, Task.ident]
  · simp [table, shared, setTask, hne]

theorem wp_sysFork_table {r : Word} (hcur : k.task me = some cur) :
    wp (sysFork r me) (fun _ k' => Forked k cur k') (fun e _ => ∃ m, e = .panic m) k := by
  refine wp_sysFork_any hcur (fun pid mm hpid => ⟨pid, hpid, rfl, .inl rfl⟩)
    (fun nr pid mm page pgdir hnr hpid => ⟨pid, hpid, rfl, .inr ⟨nr, ?_, ?_⟩⟩) fun m _ _ => ⟨m, rfl⟩
  · rw [table, hnr, map_none]
  · exact table_shared ..

theorem wp_kernelThread_table {fn : Word} (hcur : k.task me = some cur) :
    wp (kernelThread fn me) (fun _ k' => Forked k cur k') (fun _ _ => False) k := by
  refine wp_kernelThread hcur (fun pid mm hpid => ⟨pid, hpid, rfl, .inl rfl⟩)
    fun nr pid mm page hnr hpid => ⟨pid, hpid, rfl, .inr ⟨nr, ?_, ?_⟩⟩
  · rw [table, hnr, map_none]
  · exact table_shared ..

/-! ### `waitpid` -/

variable {pid statAddr options : Word}

/-- `waitpid` by `cur` has emptied slot `i`, that of a zombie which is its child:
it returns the process number, and the exit code is what it stores last. -/
structure Reaps (k : Kernel) (me : Slot) (cur : Task) (statAddr : Word) (i : Slot) (z : Ident)
    (ret : ℤ) (k' : Kernel) : Prop where
  ne : i ≠ me
  ne_zero : i ≠ 0
  child : k.table i = some z
  zombie : z.zombie = true
  father : z.father = cur.pid
  ret : ret = z.pid.toInt
  stored : ∃ k₁, liftMm (Mm.putFsLong z.exitCode cur.pgdir statAddr) k₁ = .ok ⟨⟩ k'
  table : k'.table = update k.table i none
  lastPid : k'.lastPid = k.lastPid

/-- `waitpid` returns without a zombie. -/
def NoZombie (k : Kernel) (ret : ℤ) : Prop :=
  ret = 0 ∨ ret = -echild ∨ ∃ i z, i ≠ 0 ∧ k.table i = some z ∧ z.zombie = false ∧ ret = z.pid.toInt

/-- The outcome of `waitpid`. -/
def Waited (k : Kernel) (me : Slot) (cur : Task) (statAddr : Word) (ret : ℤ) (k' : Kernel) : Prop :=
  k.Same k' ∧ NoZombie k ret ∨ ∃ i z, Reaps k me cur statAddr i z ret k'

theorem wp_waitStep {i : Slot} (hcur : k.task me = some cur) (hi : i ≠ 0) :
    wp (waitStep me pid statAddr options i) (fun o k' => o.elim
      (fun ret => Waited k me cur statAddr ret k') fun _ => k' = k) (fun _ _ => True) k := by
  rw [waitStep, wp_bind, wp_getTask hcur, wp_bind, wp_get]
  cases hp : k.task i with
  | none => exact wp_pure.mpr rfl
  | some p =>
    refine wp_ite.mpr ⟨fun _ => wp_pure.mpr rfl, fun hwaits => ?_⟩
    rw [not_or, Bool.not_eq_true', Bool.not_eq_false] at hwaits
    obtain ⟨hne, hwaits⟩ := hwaits
    have htable := table_of_task hp
    cases hst : p.state with
    | stopped =>
      refine wp_ite.mpr ⟨fun _ => wp_pure.mpr rfl, fun _ => ?_⟩
      refine (keepsTable_liftMm _ k (.refl k)).next fun _ _ h => wp_pure.mpr (.inl ⟨h, ?_⟩)
      exact .inr (.inr ⟨i, p.ident, hi, htable, by simp [Task.ident, hst], rfl⟩)
    | zombie =>
      refine Keeps.wp_then (keepsTable_updateTask (by exact fun _ => rfl)) (fun _ _ h => h)
        (.refl k) fun _ k₁ h₁ => wp_release_table.next fun _ k₂ h₂ => ?_
      refine wp_bind.mpr (wp_of_results (fun _ k' hput => wp_pure.mpr ?_) fun _ _ _ => trivial)
      have hsame := (keepsTable_liftMm _ k₂ (.refl k₂)).of_ok hput
      refine .inr ⟨i, p.ident, hne, hi, htable, ?_, ?_, rfl, ⟨k₂, hput⟩, ?_, ?_⟩
      · simp [Task.ident, hst]
      · exact (of_decide_eq_true hwaits).1
      · rw [hsame.table, h₂.1, h₁.table]
      · rw [hsame.lastPid, h₂.2, h₁.lastPid]
    | _ => exact wp_pure.mpr rfl

theorem wp_waitLoop {l : List Slot} {flag : Bool} (hcur : k.task me = some cur)
    (hl : ∀ i ∈ l, i ≠ 0) :
    wp (waitLoop me pid statAddr options l flag) (fun ret k' => Waited k me cur statAddr ret k')
      (fun _ _ => True) k := by
  induction l generalizing flag with
  | nil =>
    refine wp_ite.mpr ⟨fun _ => wp_ite.mpr ⟨fun _ => wp_pure.mpr ?_, fun _ => wp_throw.mpr trivial⟩,
      fun _ => wp_pure.mpr ?_⟩
    · exact .inl ⟨.refl k, .inl rfl⟩
    · exact .inl ⟨.refl k, .inr (.inl rfl)⟩
  | cons i l ih =>
    refine (wp_waitStep hcur (hl i (.head _))).next fun o k' h => ?_
    cases o with
    | inl ret => exact wp_pure.mpr h
    | inr more =>
      obtain rfl : k' = k := h
      exact ih fun j hj => hl j (.tail _ hj)

theorem wp_sysWaitpid (hcur : k.task me = some cur) :
    wp (sysWaitpid me pid statAddr options) (fun ret k' => Waited k me cur statAddr ret k')
      (fun _ _ => True) k := by
  rw [sysWaitpid, wp_bind, wp_getTask hcur, wp_bind, wp_liftMm]
  refine wp_of_forall (fun _ mm => ?_) fun _ _ => trivial
  have hloop : wp (waitLoop me pid statAddr options fromLast false)
      (fun ret k' => Waited (k.setMm mm) me cur statAddr ret k') (fun _ _ => True) (k.setMm mm) :=
    wp_waitLoop hcur fun i hi => mem_fromLast.mp hi
  refine hloop.imp fun ret k' h => ?_
  rcases h with ⟨hsame, hno⟩ | ⟨i, z, hreaps⟩
  · exact .inl ⟨⟨hsame.table, hsame.lastPid⟩, hno⟩
  · exact .inr ⟨i, z, { hreaps with }⟩

end

end LinuxRv.Proc
