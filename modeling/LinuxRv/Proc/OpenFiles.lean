import LinuxRv.Proc.Exec
import LinuxRv.Proc.Fork

/-!
How often a file is open.

`f_count` of a place in the file table is the number of descriptors that point
to it, over all tasks. The invariant moves one descriptor at a time, except in
`fork`, where a task gets the descriptors of another one. It holds wherever a
call can be cut off by a fault on user memory, and so also after the `do_exit`
that follows.
-/

namespace LinuxRv.Proc

open ByteMemory Prog RefCount Fs Minix Function BitVec List Option Proc.Kernel
open Mm (nrTasks)

/-! ### The invariant -/

/-- The file a descriptor of a task points to. -/
def Kernel.filp (k : Kernel) (d : Slot × Fin nrOpen) : Option (Fin nrFile) :=
  (k.task d.1).bind fun t => t.filp d.2

def Task.closesOnExec (t : Task) (fd : Fin nrOpen) : Prop := (t.closeOnExec >>> fd.1) &&& 1 ≠ 0

structure FileInv (k : Kernel) : Prop where
  count : ∀ f, (k.file f).count.toNat = occurrences k.filp f
  closeOnExec : ∀ i t fd, k.task i = some t → t.closesOnExec fd → t.filp fd ≠ none
  zombie : ∀ i t fd, k.task i = some t → t.state = .zombie → t.filp fd = none

/-- A property of the descriptors of a task, of its `close_on_exec` and of the
file table. -/
abbrev FilePred := (Fin nrOpen → Option (Fin nrFile)) → Word → (Fin nrFile → File) → Prop

/-- In a call of task `me`, of whose descriptors `P` holds. -/
structure Calls (P : FilePred) (me : Slot) (k : Kernel) : Prop where
  files : FileInv k
  alive : ∃ t, k.task me = some t ∧ t.state ≠ .zombie ∧ P t.filp t.closeOnExec k.file

/-- A call that ends the task leaves the invariant. -/
def Ends (me : Slot) (e : Minix.Halt) (k : Kernel) : Prop :=
  ∀ code, e = .exit code → Calls (fun _ _ _ => True) me k

section

variable {t : Task} {fd fd' : Fin nrOpen}

theorem closesOnExec_iff : t.closesOnExec fd ↔ t.closeOnExec.getLsbD fd = true := by
  have hbit := and_one_eq_setWidth_ofBool_getLsbD (x := t.closeOnExec >>> fd.1)
  rw [getLsbD_ushiftRight, Nat.add_zero] at hbit
  change t.closeOnExec >>> fd.1 &&& 1#32 ≠ 0 ↔ _
  rw [hbit]
  cases t.closeOnExec.getLsbD fd <;> decide

theorem getLsbD_fdBit (fd fd' : Fin nrOpen) : (fdBit fd).getLsbD fd' = decide (fd = fd') := by
  revert fd fd'
  decide

theorem getLsbD_clear (w : Word) : (w &&& ~~~fdBit fd).getLsbD fd' =
    (w.getLsbD fd' && !decide (fd = fd')) := by
  rw [getLsbD_and, getLsbD_not, getLsbD_fdBit]
  have hlt : fd'.1 < 32 := Nat.lt_trans fd'.isLt (by decide)
  simp [hlt]

/-! ### Steps -/

variable {k k' : Kernel} {me i : Slot} {t' : Task}

theorem FileInv.congr (h : FileInv k) (htask : k'.task = k.task)
    (hfile : ∀ f, (k'.file f).count = (k.file f).count) : FileInv k' where
  count f := by
    rw [hfile, h.count]
    unfold filp
    rw [htask]
  closeOnExec i t fd ht := h.closeOnExec i t fd (htask ▸ ht)
  zombie i t fd ht := h.zombie i t fd (htask ▸ ht)

/-- There are fewer descriptors than an `f_count` can count. -/
theorem occurrences_filp_lt (k : Kernel) (f : Fin nrFile) : occurrences k.filp f < 2 ^ 16 - 1 := by
  have hle := occurrences_le_card (g := k.filp) (a := f) id fun _ _ _ _ h => h
  rw [Fintype.card_prod, Fintype.card_fin, Fintype.card_fin] at hle
  exact Nat.lt_of_le_of_lt hle (by decide)

theorem FileInv.toNat_count_add_one (h : FileInv k) (f : Fin nrFile) :
    ((k.file f).count + 1).toNat = (k.file f).count.toNat + 1 := by
  have hlt := occurrences_filp_lt k f
  rw [← h.count] at hlt
  rw [toNat_add, show (1 : BitVec 16).toNat = 1 from rfl]
  omega

theorem toNat_sub_one {c : BitVec 16} (hc : c ≠ 0) : (c - 1).toNat + 1 = c.toNat := by
  have hpos : c.toNat ≠ 0 := fun h => hc (eq_of_toNat_eq h)
  have hlt := c.isLt
  rw [toNat_sub, show (1 : BitVec 16).toNat = 1 from rfl]
  omega

theorem Kernel.count_setFile (f f' : Fin nrFile) (x : File) :
    ((k.setFile f x).file f').count = if f' = f then x.count else (k.file f').count := by
  by_cases h : f' = f
  · rw [if_pos h, h]
    exact congrArg File.count (update_self ..)
  · rw [if_neg h]
    exact congrArg File.count (update_of_ne h ..)

/-- One task changes what is not a descriptor. -/
theorem FileInv.setTask (h : FileInv k) (ht : k.task i = some t) (hfilp : t'.filp = t.filp)
    (hcoe : ∀ fd, t'.closesOnExec fd → t.filp fd ≠ none)
    (hzombie : t'.state = .zombie → ∀ fd, t.filp fd = none) : FileInv (k.setTask i (some t')) where
  count f := by
    refine (h.count f).trans (congrArg (occurrences · f) (funext fun d => ?_))
    by_cases hd : d.1 = i
    · simp [Kernel.filp, Kernel.setTask, hd, ht, hfilp]
    · simp [Kernel.filp, Kernel.setTask, hd]
  closeOnExec i' u fd hu := by
    by_cases hi : i' = i
    · subst hi
      obtain rfl : t' = u := by simpa [Kernel.setTask] using hu
      rw [hfilp]
      exact hcoe fd
    · exact h.closeOnExec i' u fd (by simpa [Kernel.setTask, hi] using hu)
  zombie i' u fd hu hz := by
    by_cases hi : i' = i
    · subst hi
      obtain rfl : t' = u := by simpa [Kernel.setTask] using hu
      rw [hfilp]
      exact hzombie hz fd
    · exact h.zombie i' u fd (by simpa [Kernel.setTask, hi] using hu) hz

/-- One descriptor changes, with the counts. -/
theorem FileInv.setFilp (h : FileInv k) (ht : k.task i = some t) (o : Option (Fin nrFile))
    (hcoe : o = none → ¬ t.closesOnExec fd) (hzombie : t.state ≠ .zombie)
    (htask : k'.task = update k.task i (some { t with filp := update t.filp fd o }))
    (hfile : ∀ f, (k'.file f).count.toNat + (if t.filp fd = some f then 1 else 0) =
      (k.file f).count.toNat + (if o = some f then 1 else 0)) : FileInv k' where
  count f := by
    have hself : k'.filp (i, fd) = o := by simp [filp, htask]
    have hself' : k.filp (i, fd) = t.filp fd := by simp [filp, ht]
    have hocc := occurrences_update (g := k.filp) (f := k'.filp) (i, fd) (fun d hd => by
      by_cases hi : d.1 = i
      · have hfd : d.2 ≠ fd := fun hfd => hd (Prod.ext hi hfd)
        simp [filp, htask, hi, ht, hfd]
      · simp [filp, htask, hi]) f
    have hf := hfile f
    rw [hself, hself', ← h.count] at hocc
    omega
  closeOnExec i' u fd' hu hbit := by
    rw [htask] at hu
    by_cases hi : i' = i
    · subst hi
      rw [update_self, some.injEq] at hu
      subst hu
      have hbit' : t.closesOnExec fd' := hbit
      by_cases hfd : fd' = fd
      · subst hfd
        simpa using fun hnone => hcoe hnone hbit'
      · simpa [hfd] using h.closeOnExec i' t fd' ht hbit'
    · rw [update_of_ne hi] at hu
      exact h.closeOnExec i' u fd' hu hbit
  zombie i' u fd' hu hz := by
    rw [htask] at hu
    by_cases hi : i' = i
    · subst hi
      rw [update_self, some.injEq] at hu
      subst hu
      exact absurd hz hzombie
    · rw [update_of_ne hi] at hu
      exact h.zombie i' u fd' hu hz

end

/-! ### Calls -/

section

variable {i nr : Slot} {α : Type} {rd : RamDisk} {me : Slot} {k : Kernel} {P P' : FilePred}
  {E : Minix.Halt → Kernel → Prop} {Q : PUnit → Kernel → Prop} {child : Task} {fd₀ fd₁ : Fin nrOpen}
  {f₀ f₁ : Fin nrFile}

theorem Calls.setFs (h : Calls P me k) (fs : Fs) : Calls P me (k.setFs fs) :=
  ⟨h.files.congr rfl fun _ => rfl, h.alive⟩

theorem Calls.mono (h : Calls P me k) (hP : ∀ filp coe file, P filp coe file → P' filp coe file) :
    Calls P' me k :=
  ⟨h.files, h.alive.imp fun _ ht => ⟨ht.1, ht.2.1, hP _ _ _ ht.2.2⟩⟩

/-- Nothing is said about the descriptors. -/
abbrev Calls.Any (me : Slot) : Kernel → Prop := Calls (fun _ _ _ => True) me

theorem Calls.any (h : Calls P me k) : Calls.Any me k := h.mono fun _ _ _ _ => trivial

/-- The file system cannot reach the descriptors. -/
theorem keeps_liftFs (c : FsM α) : Keeps (Calls P me) (Ends me) (liftFs c) := by
  intro k h
  rw [wp_liftFs]
  exact wp_of_forall (fun _ fs => h.setFs fs) fun _ fs _ _ => (h.setFs fs).mono fun _ _ _ _ => trivial

theorem keeps_liftMm (c : Mm.M α) : Keeps (Calls P me) (Ends me) (liftMm c) :=
  keeps_liftFs _

theorem keeps_getTask : Keeps (Calls P me) (Ends me) (getTask me) := by
  intro k h
  obtain ⟨t, ht, -⟩ := h.alive
  exact (wp_getTask ht).mpr h

/-- A task changes what is not a descriptor. -/
theorem keeps_updateTask {f : Task → Task} (hfilp : ∀ t, (f t).filp = t.filp)
    (hcoe : ∀ t fd, (f t).closesOnExec fd → t.closesOnExec fd ∨ t.filp fd ≠ none)
    (hstate : ∀ t, (f t).state = t.state)
    (hP : ∀ t file, P t.filp t.closeOnExec file → P t.filp (f t).closeOnExec file) :
    Keeps (Calls P me) (Ends me) (updateTask i f) := by
  intro k h
  rw [wp_updateTask]
  cases hi : k.task i with
  | none =>
    have hsame : k.setTask i none = k := by
      rw [setTask, ← hi, update_eq_self]
    rw [map_none, hsame]
    exact h
  | some t =>
    refine ⟨h.files.setTask hi (hfilp t) (fun fd hbit => ?_) fun hz => ?_, ?_⟩
    · exact (hcoe t fd hbit).elim (h.files.closeOnExec i t fd hi) id
    · exact fun fd => h.files.zombie i t fd hi ((hstate t).symm.trans hz)
    · obtain ⟨u, hu, halive⟩ := h.alive
      by_cases hme : me = i
      · subst hme
        rw [hi, some.injEq] at hu
        subst hu
        refine ⟨f t, update_self .., (hstate t).symm ▸ halive.1, ?_⟩
        rw [hfilp]
        exact hP t _ halive.2
      · exact ⟨u, (update_of_ne hme _ _).trans hu, halive⟩

/-- A task changes nothing the invariant looks at. -/
theorem keeps_untouched {f : Task → Task}
    (hf : ∀ t, (f t).filp = t.filp ∧ (f t).closeOnExec = t.closeOnExec ∧
      (f t).state = t.state) : Keeps (Calls P me) (Ends me) (updateTask i f) := by
  refine keeps_updateTask (fun t => (hf t).1) (fun t fd hbit => .inl ?_) (fun t => (hf t).2.2)
    fun t file h => (hf t).2.1.symm ▸ h
  rwa [Task.closesOnExec, (hf t).2.1] at hbit

/-- A file changes what is not its count. -/
theorem keeps_updateFile {i : Fin nrFile} {f : File → File} (hf : ∀ x, (f x).count = x.count) :
    Keeps (Calls.Any me) (Ends me) (updateFile i f) := by
  intro k h
  rw [wp_updateFile]
  refine ⟨h.files.congr rfl fun i' => ?_, h.alive⟩
  by_cases hi : i' = i
  · subst hi
    exact (congrArg File.count (update_self ..)).trans (hf _)
  · exact congrArg File.count (update_of_ne hi ..)

/-- The descriptor's bit is cleared first. -/
theorem wp_clearCloseOnExec {t : Task} {fd : Fin nrOpen} (h : FileInv k) (ht : k.task me = some t)
    (hQ : ∀ k' t', FileInv k' → k'.task me = some t' → t'.filp = t.filp → t'.state = t.state →
      ¬ t'.closesOnExec fd → k'.file = k.file → Q ⟨⟩ k') : wp (clearCloseOnExec me fd) Q E k := by
  have hbits (fd' : Fin nrOpen) : (t.closeOnExec &&& ~~~fdBit fd).getLsbD fd' = true →
      t.closeOnExec.getLsbD fd' = true ∧ fd ≠ fd' := by
    rw [getLsbD_clear]
    simp
  rw [clearCloseOnExec, wp_updateTask, ht, map_some]
  refine hQ _ _ (h.setTask ht rfl (fun fd' hbit => ?_) fun hz fd' => ?_) (update_self ..)
    rfl rfl (fun hbit => ?_) rfl
  · exact h.closeOnExec me t fd' ht (closesOnExec_iff.mpr (hbits fd' (closesOnExec_iff.mp hbit)).1)
  · exact h.zombie me t fd' ht hz
  · exact (hbits fd (closesOnExec_iff.mp hbit)).2 rfl

/-- `sys_close` closes one descriptor. -/
theorem wp_closeFd {t : Task} {fd : Fin nrOpen} (h : FileInv k) (ht : k.task me = some t)
    (halive : t.state ≠ .zombie) :
    wp (closeFd rd me fd) (fun _ => Calls (fun filp _ _ => filp = update t.filp fd none) me)
      (Ends me) k := by
  rw [closeFd, wp_bind]
  refine wp_clearCloseOnExec h ht fun k₁ t₁ h₁ ht₁ hfilp hstate hbit _ => ?_
  rw [← hstate] at halive
  rw [wp_bind, wp_getTask ht₁, ← hfilp]
  cases hf : t₁.filp fd with
  | none =>
    refine wp_pure.mpr ⟨h₁, t₁, ht₁, halive, ?_⟩
    rw [← hf, update_eq_self]
  | some f =>
    simp only [wp_bind, setFilp, wp_updateTask, wp_get]
    by_cases hzero : (k₁.file f).count = 0
    · exact (if_pos hzero).symm ▸ wp_throw.mpr fun _ h => by cases h
    refine (if_neg hzero).symm ▸ ?_
    have hclosed : Calls (fun filp _ _ => filp = update t₁.filp fd none) me
        ((k₁.setTask me ((k₁.task me).map fun t => { t with
          filp := update t.filp fd none })).setFile f
            { k₁.file f with count := (k₁.file f).count - 1 }) := by
      rw [ht₁, map_some]
      refine ⟨h₁.setFilp ht₁ none (fun _ => hbit) halive rfl fun f' => ?_,
        _, update_self .., halive, rfl⟩
      simp only [count_setFile, hf, some.injEq, reduceCtorEq, if_false]
      by_cases hf' : f' = f
      · rw [hf', if_pos rfl, if_pos rfl]
        exact toNat_sub_one hzero
      · rw [if_neg hf', if_neg fun h => hf' h.symm]
        rfl
    simp only [wp_bind, setCount, wp_updateFile]
    refine wp_ite.mpr ⟨fun _ => wp_pure.mpr hclosed, fun _ => ?_⟩
    exact (keeps_liftFs _).bind (fun _ => .pure _) _ hclosed

theorem keeps_closeFd (fd : Fin nrOpen) : Keeps (Calls.Any me) (Ends me) (closeFd rd me fd) := by
  intro k h
  obtain ⟨t, ht, halive, -⟩ := h.alive
  exact (wp_closeFd h.files ht halive).imp fun _ _ h => h.any

theorem keeps_sysClose (fd : Word) : Keeps (Calls.Any me) (Ends me) (sysClose rd me fd) := by
  unfold sysClose
  split
  · exact keeps_closeFd _
  · exact .pure _

/-! ### `exit` -/

/-- Descriptors below `l` are closed. -/
def ClosedBelow (l : ℕ) : FilePred := fun filp _ _ => ∀ fd, fd.1 < l → filp fd = none

theorem wp_closeAll (h : Calls.Any me k) :
    wp (closeAll rd me) (fun _ => Calls (ClosedBelow nrOpen) me) (Ends me) k := by
  refine wp_forN (fun l => Calls (ClosedBelow l) me) (fun fd k h => ?_)
    (h.mono fun _ _ _ _ _ hfd => absurd hfd (Nat.not_lt_zero _))
  obtain ⟨t, ht, halive, hclosed⟩ := h.alive
  have hstep (filp : Fin nrOpen → Option (Fin nrFile)) (coe : Word) (file : Fin nrFile → File)
      (hfilp : filp = update t.filp fd none) : ClosedBelow (fd + 1) filp coe file := by
    intro fd' hlt
    by_cases hfd : fd' = fd
    · rw [hfilp, hfd, update_self]
    · rw [hfilp, update_of_ne hfd]
      refine hclosed fd' ?_
      have hne := Fin.val_ne_of_ne hfd
      omega
  rw [wp_bind, wp_getTask ht]
  by_cases hf : t.filp fd = none
  · rw [if_neg (not_not_intro hf), wp_pure]
    refine ⟨h.files, t, ht, halive, hstep _ _ _ ?_⟩
    rw [← hf, update_eq_self]
  · rw [if_pos hf]
    exact wp_map.mpr ((wp_closeFd h.files ht halive).imp fun _ _ h => h.mono hstep)

theorem keeps_addSignal (i : Slot) (bit : Word) : Keeps (Calls P me) (Ends me) (addSignal i bit) :=
  keeps_untouched fun _ => ⟨rfl, rfl, rfl⟩

theorem keeps_orphan : Keeps (Calls P me) (Ends me) (orphan me) := by
  refine keeps_getTask.bind fun cur => .forN fun i => Keeps.get.bind fun k => ?_
  split
  · exact .pure _
  · refine .ite (.bind ?_ fun _ => ?_) (.pure _)
    · exact keeps_untouched fun _ => ⟨rfl, rfl, rfl⟩
    · exact .ite (keeps_addSignal _ _) (.pure _)

theorem keeps_killSession : Keeps (Calls P me) (Ends me) (killSession me) := by
  refine keeps_getTask.bind fun cur => .forM fun i => Keeps.get.bind fun k => ?_
  split
  · exact .pure _
  · exact .ite (keeps_addSignal _ _) (.pure _)

theorem keeps_leaveSession : Keeps (Calls P me) (Ends me) (leaveSession me) := by
  refine keeps_getTask.bind fun cur => .ite (.ite ?_ keeps_killSession) (.pure _)
  refine .bind (.modify fun k h => ?_) fun _ => keeps_killSession
  exact ⟨h.files.congr rfl fun _ => rfl, h.alive⟩

/-- A task without descriptors goes. -/
theorem FileInv.release {t : Task} (h : FileInv k) (ht : k.task i = some t)
    (hclosed : ∀ fd, t.filp fd = none) : FileInv (k.setTask i none) where
  count f := by
    refine (h.count f).trans (congrArg (occurrences · f) (funext fun d => ?_))
    by_cases hd : d.1 = i
    · simp [Kernel.filp, Kernel.setTask, hd, ht, hclosed]
    · simp [Kernel.filp, Kernel.setTask, hd]
  closeOnExec i' u fd hu := by
    have hi : i' ≠ i := by
      rintro rfl
      simp [Kernel.setTask] at hu
    exact h.closeOnExec i' u fd ((update_of_ne hi _ _).symm.trans hu)
  zombie i' u fd hu := by
    have hi : i' ≠ i := by
      rintro rfl
      simp [Kernel.setTask] at hu
    exact h.zombie i' u fd ((update_of_ne hi _ _).symm.trans hu)

theorem wp_release {t : Task} (h : FileInv k) (ht : k.task i = some t)
    (hclosed : ∀ fd, t.filp fd = none)
    (hQ : ∀ k', FileInv k' → k'.task = update k.task i none → Q ⟨⟩ k')
    (hE : ∀ e k', FileInv k' → k'.task = update k.task i none → E e k')
    (hzero : E (.panic "trying to release non-existent task") k) : wp (release i) Q E k := by
  rw [release, wp_bind, wp_getTask ht, wp_ite]
  refine ⟨fun _ => wp_throw.mpr hzero, fun _ => ?_⟩
  rw [wp_bind, wp_modify, liftMm, wp_liftFs]
  have hgone (fs : Fs) : FileInv ((k.setTask i none).setFs fs) :=
    (h.release ht hclosed).congr rfl fun _ => rfl
  exact wp_of_forall (fun _ fs => hQ _ (hgone fs) rfl) fun e fs => hE _ _ (hgone fs) rfl

theorem wp_tellFather {t : Task} {pid : Word} (h : FileInv k) (ht : k.task me = some t)
    (hclosed : ∀ fd, t.filp fd = none) :
    wp (tellFather me pid) (fun _ => FileInv) (fun _ _ => True) k := by
  rw [tellFather, wp_bind, wp_get]
  split
  · next i hi =>
    rw [addSignal, wp_updateTask]
    cases hti : k.task i with
    | none =>
      have hsame : k.setTask i none = k := by
        rw [setTask, ← hti, update_eq_self]
      rw [map_none, hsame]
      exact h
    | some u =>
      exact h.setTask hti rfl (fun fd => h.closeOnExec i u fd hti)
        fun hz fd => h.zombie i u fd hti hz
  · exact wp_release h ht hclosed (fun _ h _ => h) (fun _ _ _ _ => trivial) trivial

/-- `do_exit` closes what the task had open. -/
theorem wp_doExit {code : Word} (h : Calls.Any me k) :
    wp (doExit rd me code) (fun _ => FileInv) (fun _ _ => True) k := by
  have hstop (e : Minix.Halt) (k : Kernel) : Ends me e k → True := fun _ => trivial
  unfold doExit
  refine keeps_getTask.wp_then hstop h fun cur k h => ?_
  refine (keeps_liftMm _).wp_then hstop h fun _ k h => ?_
  refine (keeps_untouched (by simp)).wp_then hstop h fun _ k h => ?_
  refine keeps_orphan.wp_then hstop h fun _ k h => ?_
  refine wp_bind.mpr ((wp_closeAll h).mono (fun _ k h => ?_) hstop)
  -- the inodes of the task and its session do not concern the descriptors
  refine keeps_getTask.wp_then hstop h fun cur k h => ?_
  refine (keeps_liftFs _).wp_then hstop h fun _ k h => ?_
  refine (keeps_untouched (by simp)).wp_then hstop h fun _ k h => ?_
  refine keeps_getTask.wp_then hstop h fun cur k h => ?_
  refine (keeps_liftFs _).wp_then hstop h fun _ k h => ?_
  refine (keeps_untouched (by simp)).wp_then hstop h fun _ k h => ?_
  refine keeps_getTask.wp_then hstop h fun cur k h => ?_
  refine (keeps_liftFs _).wp_then hstop h fun _ k h => ?_
  refine (keeps_untouched (by simp)).wp_then hstop h fun _ k h => ?_
  refine keeps_leaveSession.wp_then hstop h fun _ k h => ?_
  obtain ⟨t, ht, -, hclosed⟩ := h.alive
  have hnone (fd : Fin nrOpen) : t.filp fd = none := hclosed fd fd.isLt
  rw [wp_bind, wp_updateTask, ht, map_some, wp_bind]
  refine (wp_getTask (update_self ..)).mpr (wp_tellFather ?_ (update_self ..) hnone)
  exact h.files.setTask ht rfl (fun fd => h.files.closeOnExec me t fd ht) fun _ => hnone

/-! ### `open` -/

theorem filp_of_freeFd {t : Task} {arg : ℕ} {fd : Fin nrOpen} (h : freeFd t arg = some fd) :
    t.filp fd = none := by
  have hfree := find?_some h
  simp only [decide_eq_true_eq] at hfree
  exact hfree.2

theorem count_of_freeFile {file : Fin nrFile → File} {f : Fin nrFile}
    (h : freeFile file = some f) : (file f).count = 0 := by
  have hfree := find?_some h
  simpa using hfree

section

variable {t : Task} {fd : Fin nrOpen} {f : Fin nrFile}

/-- A free descriptor gets a file. -/
theorem FileInv.attach {k' : Kernel} (h : FileInv k) (ht : k.task me = some t)
    (halive : t.state ≠ .zombie) (hfd : t.filp fd = none)
    (htask : k'.task = update k.task me (some { t with filp := update t.filp fd (some f) }))
    (hcount : ∀ f', (k'.file f').count =
      if f' = f then (k.file f).count + 1 else (k.file f').count) : FileInv k' := by
  refine h.setFilp ht (some f) (fun hnone => nomatch hnone) halive htask fun f' => ?_
  simp only [hcount, hfd, reduceCtorEq, if_false, some.injEq]
  by_cases hf : f' = f
  · rw [hf, if_pos rfl, if_pos rfl, h.toNat_count_add_one]
  · rw [if_neg hf, if_neg fun h => hf h.symm]

/-- The only descriptor of a file is given up. -/
theorem FileInv.detach {k' : Kernel} (h : FileInv k) (ht : k.task me = some t)
    (halive : t.state ≠ .zombie) (hbit : t.closeOnExec.getLsbD fd = false)
    (hfd : t.filp fd = some f) (hone : (k.file f).count = 1)
    (htask : k'.task = update k.task me (some { t with filp := update t.filp fd none }))
    (hcount : ∀ f', (k'.file f').count = if f' = f then 0 else (k.file f').count) : FileInv k' := by
  have hbit' : ¬ t.closesOnExec fd := by
    rw [closesOnExec_iff, hbit]
    exact Bool.false_ne_true
  refine h.setFilp ht none (fun _ => hbit') halive htask fun f' => ?_
  simp only [hcount, hfd, reduceCtorEq, if_false, some.injEq]
  by_cases hf : f' = f
  · rw [hf, if_pos rfl, if_pos rfl, hone]
    rfl
  · rw [if_neg hf, if_neg fun h => hf h.symm]

/-- Descriptor `fd` is being opened as file `f`. -/
def Opening (fd : Fin nrOpen) (f : Fin nrFile) : FilePred := fun filp coe file =>
  filp fd = some f ∧ coe.getLsbD fd = false ∧ (file f).count = 1

theorem wp_setFilp {o : Option (Fin nrFile)} {Q : PUnit → Kernel → Prop}
    {E : Minix.Halt → Kernel → Prop} (ht : k.task me = some t) : wp (setFilp me fd o) Q E k ↔
      Q ⟨⟩ (k.setTask me (some { t with filp := update t.filp fd o })) := by
  rw [setFilp, wp_updateTask, ht, map_some]

/-- What `sys_open` does when it fails. -/
theorem wp_undoOpen {ret : ℤ} (h : Calls (Opening fd f) me k) :
    wp (do setFilp me fd none; setCount f 0; return ret) (fun _ => Calls.Any me) (Ends me) k := by
  obtain ⟨t, ht, halive, hfd, hbit, hone⟩ := h.alive
  rw [wp_bind, wp_setFilp ht, wp_bind, setCount, wp_updateFile, wp_pure]
  exact ⟨h.files.detach ht halive hbit hfd hone rfl fun f' => count_setFile ..,
    _, update_self .., halive, trivial⟩

end

theorem keeps_openChr (n : MInode) : Keeps (Calls P me) (Ends me) (openChr me n) := by
  refine keeps_getTask.bind fun cur => .ite (.pure _) (.ite (.ite (.bind ?_ fun _ => ?_) ?_) ?_)
  · exact keeps_untouched fun _ => ⟨rfl, rfl, rfl⟩
  · refine .bind (.modify fun k h => ?_) fun _ => .pure _
    exact ⟨h.files.congr rfl fun _ => rfl, h.alive⟩
  · exact .pure _
  · exact .pure _

theorem keeps_openBlk (rootDev : Dev) (n : MInode) :
    Keeps (Calls P me) (Ends me) (openBlk rootDev n) :=
  .ite (keeps_liftFs _) (.pure _)

theorem keeps_sysOpen (rootDev : Dev) (filename flag mode : Word) :
    Keeps (Calls.Any me) (Ends me) (sysOpen rd rootDev me filename flag mode) := by
  intro k h
  obtain ⟨t, ht, halive, -⟩ := h.alive
  rw [sysOpen, wp_bind, wp_getTask ht]
  split
  · exact wp_pure.mpr h
  next fd hfd =>
  rw [wp_bind]
  refine wp_clearCloseOnExec h.files ht fun k₁ t₁ h₁ ht₁ hfilp hstate hbit _ => ?_
  rw [← hstate] at halive
  rw [wp_bind, wp_get]
  split
  · exact wp_pure.mpr ⟨h₁, t₁, ht₁, halive, trivial⟩
  next f hf =>
  have hfd₁ : t₁.filp fd = none := hfilp ▸ filp_of_freeFd hfd
  have hcount := count_of_freeFile hf
  rw [wp_bind, wp_setFilp ht₁, wp_bind, wp_updateFile]
  have hopen : Calls (Opening fd f) me ((k₁.setTask me (some { t₁ with
      filp := update t₁.filp fd (some f) })).setFile f
        { k₁.file f with count := (k₁.file f).count + 1 }) := by
    refine ⟨h₁.attach ht₁ halive hfd₁ rfl fun f' => count_setFile .., _,
      update_self .., halive, update_self .., ?_, ?_⟩
    · exact Bool.eq_false_iff.mpr fun h => hbit (closesOnExec_iff.mpr h)
    · rw [count_setFile, if_pos rfl, hcount]
      rfl
  have hsame (e : Minix.Halt) (k : Kernel) (h : Ends me e k) : Ends me e k := h
  refine (keeps_liftFs _).wp_then hsame hopen fun r k h => ?_
  cases r with
  | error e => exact wp_undoOpen h
  | ok ip =>
    refine Keeps.get.wp_then hsame h fun k' k h => ?_
    refine (keeps_openChr _).wp_then hsame h fun allowed k h => ?_
    refine wp_ite.mpr ⟨fun _ => ?_, fun _ => ?_⟩
    · exact (keeps_liftFs _).wp_then hsame h fun _ k h => wp_undoOpen h
    · refine (keeps_openBlk _ _).wp_then hsame h fun _ k h => ?_
      obtain ⟨t, ht, halive, hopen⟩ := h.alive
      rw [wp_bind, wp_get, wp_bind, wp_updateFile, wp_pure]
      refine ⟨h.files.congr rfl fun f' => ?_, t, ht, halive, trivial⟩
      rw [count_setFile]
      by_cases hf' : f' = f
      · rw [if_pos hf', hf', hopen.2.2]
      · rw [if_neg hf']

/-! ### `dup` and `fcntl` -/

theorem keeps_dupfd (fd arg : Word) : Keeps (Calls.Any me) (Ends me) (dupfd me fd arg) := by
  intro k h
  obtain ⟨t, ht, halive, -⟩ := h.alive
  rw [dupfd, wp_bind, wp_getTask ht]
  split
  · exact wp_pure.mpr h
  next f hf =>
  refine wp_ite.mpr ⟨fun _ => wp_pure.mpr h, fun _ => ?_⟩
  split
  · exact wp_pure.mpr h
  next new hnew =>
  rw [wp_bind]
  refine wp_clearCloseOnExec h.files ht fun k₁ t₁ h₁ ht₁ hfilp hstate hbit _ => ?_
  rw [← hstate] at halive
  rw [wp_bind, wp_setFilp ht₁, wp_bind, wp_updateFile, wp_pure]
  exact ⟨h₁.attach ht₁ halive (hfilp ▸ filp_of_freeFd hnew) rfl fun f' => count_setFile ..,
    _, update_self .., halive, trivial⟩

theorem keeps_sysDup2 (oldfd newfd : Word) :
    Keeps (Calls.Any me) (Ends me) (sysDup2 rd me oldfd newfd) :=
  (keeps_sysClose newfd).bind fun _ => keeps_dupfd oldfd newfd

theorem keeps_sysFcntl (fd cmd arg : Word) :
    Keeps (Calls.Any me) (Ends me) (sysFcntl me fd cmd arg) := by
  intro k h
  obtain ⟨t, ht, halive, -⟩ := h.alive
  rw [sysFcntl, wp_bind, wp_getTask ht]
  split
  · next hfd =>
    dsimp only
    split
    · exact wp_pure.mpr h
    next f hf =>
    refine wp_ite.mpr ⟨fun _ => keeps_dupfd fd arg k h, fun _ => ?_⟩
    refine wp_ite.mpr ⟨fun _ => wp_pure.mpr h, fun _ => ?_⟩
    refine wp_ite.mpr ⟨fun _ => wp_ite.mpr ⟨fun _ => ?_, fun _ => ?_⟩, fun _ => ?_⟩
    · rw [wp_bind, wp_updateTask, ht, map_some, wp_pure]
      refine ⟨h.files.setTask ht rfl (fun fd' hbit => ?_) fun hz => absurd hz halive,
        _, update_self .., halive, trivial⟩
      rw [closesOnExec_iff, getLsbD_or, getLsbD_fdBit, Bool.or_eq_true] at hbit
      rcases hbit with hbit | hbit
      · exact h.files.closeOnExec me t fd' ht (closesOnExec_iff.mpr hbit)
      · rw [← of_decide_eq_true hbit, hf]
        exact some_ne_none f
    · rw [wp_bind]
      refine wp_clearCloseOnExec h.files ht fun k₁ t₁ h₁ ht₁ _ hstate _ _ => wp_pure.mpr ?_
      exact ⟨h₁, t₁, ht₁, hstate ▸ halive, trivial⟩
    refine wp_ite.mpr ⟨fun _ => ?_, fun _ => ?_⟩
    · exact Keeps.get.bind (fun _ => Keeps.pure _) k h
    refine wp_ite.mpr ⟨fun _ => ?_, fun _ => wp_pure.mpr h⟩
    exact Keeps.bind (keeps_updateFile (by exact fun _ => rfl)) (fun _ => Keeps.pure _) k h
  · exact wp_pure.mpr h

/-! ### `pipe` -/

theorem firstTwo_spec {p : α → Bool} {l : List α} (hl : l.Nodup) {a b : α}
    (h : firstTwo p l = [a, b]) : p a = true ∧ p b = true ∧ a ≠ b := by
  have hsub : (firstTwo p l).Sublist (l.filter p) := take_sublist 2 _
  have hmem {x : α} (hx : x ∈ firstTwo p l) : p x = true :=
    (mem_filter.mp (hsub.subset hx)).2
  have hnodup : (firstTwo p l).Nodup := (hl.filter p).sublist hsub
  rw [h] at hmem hnodup
  refine ⟨hmem (by simp), hmem (by simp), ?_⟩
  simpa using hnodup

/-- Two descriptors are being opened as the ends of a pipe. -/
def OpeningBoth (fd₀ fd₁ : Fin nrOpen) (f₀ f₁ : Fin nrFile) : FilePred := fun filp coe file =>
  Opening fd₀ f₀ filp coe file ∧ Opening fd₁ f₁ filp coe file

/-- Both ends are attached. -/
theorem FileInv.attachBoth {k' : Kernel} {t : Task} (h : FileInv k) (ht : k.task me = some t)
    (halive : t.state ≠ .zombie) (hfd₀ : t.filp fd₀ = none) (hfd₁ : t.filp fd₁ = none)
    (hfd : fd₀ ≠ fd₁) (hzero₀ : (k.file f₀).count = 0) (hzero₁ : (k.file f₁).count = 0)
    (htask : k'.task = update k.task me (some { t with
      filp := update (update t.filp fd₀ (some f₀)) fd₁ (some f₁) }))
    (hcount : ∀ f', (k'.file f').count =
      if f' = f₁ then 1 else if f' = f₀ then 1 else (k.file f').count) (hf : f₀ ≠ f₁) :
    Calls (OpeningBoth fd₀ fd₁ f₀ f₁) me k' := by
  have hbit {fd : Fin nrOpen} (hnone : t.filp fd = none) : t.closeOnExec.getLsbD fd = false :=
    Bool.eq_false_iff.mpr fun hb => h.closeOnExec me t fd ht (closesOnExec_iff.mpr hb) hnone
  have h₁ : FileInv ((k.setTask me (some { t with
      filp := update t.filp fd₀ (some f₀) })).setFile f₀ { k.file f₀ with count := 1 }) :=
    h.attach ht halive hfd₀ rfl fun f' => by
      rw [count_setFile, hzero₀]
      rfl
  have hfree : update t.filp fd₀ (some f₀) fd₁ = none :=
    (update_of_ne hfd.symm ..).trans hfd₁
  refine ⟨h₁.attach (t := { t with filp := update t.filp fd₀ (some f₀) }) (f := f₁)
    (update_self ..) halive hfree ?_ fun f' => ?_, { t with
      filp := update (update t.filp fd₀ (some f₀)) fd₁ (some f₁) },
    ?_, halive, ⟨?_, hbit hfd₀, ?_⟩, update_self .., hbit hfd₁, ?_⟩
  · rw [htask]
    exact (update_idem ..).symm
  · rw [hcount, count_setFile, count_setFile, if_neg hf.symm]
    refine if_congr Iff.rfl ?_ rfl
    exact (congrArg (· + 1) hzero₁).symm
  · rw [htask]
    exact update_self ..
  · exact (update_of_ne hfd ..).trans (update_self ..)
  · rw [hcount, if_neg hf, if_pos rfl]
  · rw [hcount, if_pos rfl]

theorem wp_undoPipe {ret : ℤ} (h : Calls (OpeningBoth fd₀ fd₁ f₀ f₁) me k) (hfd : fd₀ ≠ fd₁)
    (hf : f₀ ≠ f₁) :
    wp (do setFilp me fd₀ none; setFilp me fd₁ none; setCount f₀ 0; setCount f₁ 0; return ret)
      (fun _ => Calls.Any me) (Ends me) k := by
  obtain ⟨t, ht, halive, ⟨hfilp₀, hbit₀, hone₀⟩, hfilp₁, hbit₁, hone₁⟩ := h.alive
  rw [wp_bind, wp_setFilp ht, wp_bind, wp_setFilp (update_self ..), wp_bind, setCount,
    wp_updateFile, wp_bind, setCount, wp_updateFile, wp_pure]
  have h₁ : FileInv ((k.setTask me (some { t with
      filp := update t.filp fd₀ none })).setFile f₀ { k.file f₀ with count := 0 }) :=
    h.files.detach ht halive hbit₀ hfilp₀ hone₀ rfl fun f' => count_setFile ..
  have hopen : update t.filp fd₀ none fd₁ = some f₁ :=
    (update_of_ne hfd.symm ..).trans hfilp₁
  refine ⟨h₁.detach (t := { t with filp := update t.filp fd₀ none }) (f := f₁) (update_self ..)
    halive hbit₁ hopen ?_ rfl fun f' => ?_, _, update_self .., halive, trivial⟩
  · rw [count_setFile, if_neg hf.symm]
    exact hone₁
  · rw [count_setFile, count_setFile, count_setFile]
    rfl

theorem keeps_sysPipe (fildes : Word) : Keeps (Calls.Any me) (Ends me) (sysPipe rd me fildes) := by
  intro k h
  obtain ⟨t, ht, halive, -⟩ := h.alive
  rw [sysPipe, wp_bind, wp_get]
  split
  · next f₀ f₁ hf =>
    obtain ⟨hzero₀, hzero₁, hne⟩ := firstTwo_spec (nodup_finRange _) hf
    rw [decide_eq_true_eq] at hzero₀ hzero₁
    rw [wp_bind, wp_updateFile, wp_bind, wp_updateFile, wp_bind]
    generalize hk₁ : setFile _ f₁ _ = k₁
    have htask : k₁.task = k.task := by rw [← hk₁]; rfl
    have hcount (f' : Fin nrFile) : (k₁.file f').count =
        if f' = f₁ then 1 else if f' = f₀ then 1 else (k.file f').count := by
      rw [← hk₁, count_setFile, count_setFile, count_setFile, if_neg hne.symm, hzero₀, hzero₁]
      rfl
    rw [wp_getTask (htask ▸ ht)]
    split
    · next fd₀ fd₁ hfd =>
      obtain ⟨hfree₀, hfree₁, hne'⟩ := firstTwo_spec (nodup_finRange _) hfd
      rw [decide_eq_true_eq] at hfree₀ hfree₁
      rw [wp_bind, wp_setFilp (htask ▸ ht), wp_bind, wp_setFilp (update_self ..)]
      have hsame (e : Minix.Halt) (k : Kernel) (h : Ends me e k) : Ends me e k := h
      refine (keeps_liftFs _).wp_then hsame (h.files.attachBoth ht halive hfree₀ hfree₁ hne' hzero₀
        hzero₁ ?_ hcount hne) fun r k h => ?_
      · exact (update_idem ..).trans (congrArg (update · me _) htask)
      · cases r with
        | none => exact wp_undoPipe h hne' hne
        | some ip =>
          refine Keeps.bind (keeps_updateFile (by exact fun _ => rfl)) (fun _ => ?_) k h.any
          refine Keeps.bind (keeps_updateFile (by exact fun _ => rfl)) fun _ => ?_
          exact (keeps_liftMm _).bind fun _ => (keeps_liftMm _).bind fun _ => Keeps.pure _
    · rw [wp_bind, setCount, wp_updateFile, wp_bind, setCount, wp_updateFile, wp_pure]
      refine ⟨h.files.congr htask fun f' => ?_, t, htask ▸ ht, halive, trivial⟩
      rw [count_setFile, count_setFile, hcount]
      by_cases hf₁ : f' = f₁
      · rw [if_pos hf₁, hf₁, hzero₁]
      by_cases hf₀ : f' = f₀
      · rw [if_neg hf₁, if_pos hf₀, hf₀, hzero₀]
      · rw [if_neg hf₁, if_neg hf₀, if_neg hf₁, if_neg hf₀]
  · exact wp_pure.mpr h

/-! ### `fork` -/

/-- What the places of a new task add. -/
theorem occurrences_newTask {κ β : Type} [Fintype κ] [DecidableEq β] (g : Task → κ → Option β)
    {task task' : Slot → Option Task} (hother : ∀ i, i ≠ nr → task' i = task i)
    (hnr : task nr = none) (hnew : task' nr = some child) (b : β) :
    occurrences (fun d : Slot × κ => (task' d.1).bind fun t => g t d.2) b =
      occurrences (fun d : Slot × κ => (task d.1).bind fun t => g t d.2) b +
        occurrences (g child) b := by
  have hrow := occurrences_row (g := fun d : Slot × κ => (task d.1).bind fun t => g t d.2)
    (f := fun d : Slot × κ => (task' d.1).bind fun t => g t d.2) nr (fun i hi j => by
      rw [hother i hi]) b
  have hnone : occurrences (fun j => (task nr).bind fun t => g t j) b = 0 :=
    occurrences_eq_zero_iff.mpr fun j => by rw [hnr]; exact nofun
  simp only [hnone, hnew, bind_some, Nat.add_zero] at hrow
  exact hrow

theorem Kernel.task_shared_self (nr : Slot) (cur child : Task) :
    ((k.setTask nr (some child)).shared nr cur).task nr = some { child with state := .running } := by
  change update (update k.task nr (some child)) nr ((update k.task nr (some child) nr).map _) nr = _
  rw [update_self, update_self, map_some]

theorem Kernel.task_shared_of_ne (cur child : Task) (hi : i ≠ nr) :
    ((k.setTask nr (some child)).shared nr cur).task i = k.task i :=
  (update_of_ne hi ..).trans (update_of_ne hi ..)

/-- A child with the descriptors of its parent. -/
theorem FileInv.share {cur : Task} (h : FileInv k) (hcur : k.task me = some cur)
    (halive : cur.state ≠ .zombie) (hnr : k.task nr = none) (hfilp : child.filp = cur.filp)
    (hcoe : child.closeOnExec = cur.closeOnExec) :
    Calls.Any me ((k.setTask nr (some child)).shared nr cur) := by
  have hne : me ≠ nr := by
    rintro rfl
    rw [hcur] at hnr
    cases hnr
  generalize hk' : (k.setTask nr (some child)).shared nr cur = k'
  have hself : k'.task nr = some { child with state := .running } :=
    hk' ▸ task_shared_self nr cur child
  have hother {i : Slot} (hi : i ≠ nr) : k'.task i = k.task i :=
    hk' ▸ task_shared_of_ne cur child hi
  have hcount (f : Fin nrFile) : (k'.file f).count =
      (k.file f).count + .ofNat 16 (occurrences cur.filp f) := by
    rw [← hk']
    rfl
  refine ⟨⟨fun f => ?_, fun i u fd hu hbit => ?_, fun i u fd hu hz => ?_⟩,
    cur, (hother hne).trans hcur, halive, trivial⟩
  · have hnew : occurrences k'.filp f = occurrences k.filp f + occurrences child.filp f :=
      occurrences_newTask Task.filp (fun i => hother) hnr hself f
    rw [hfilp, ← h.count] at hnew
    rw [hcount, toNat_add, toNat_ofNat]
    have hlt := occurrences_filp_lt k' f
    omega
  · by_cases hi : i = nr
    · subst hi
      rw [hself, some.injEq] at hu
      subst hu
      rw [Task.closesOnExec, hcoe] at hbit
      rw [hfilp]
      exact h.closeOnExec me cur fd hcur hbit
    · exact h.closeOnExec i u fd ((hother hi).symm.trans hu) hbit
  · by_cases hi : i = nr
    · subst hi
      rw [hself, some.injEq] at hu
      subst hu
      cases hz
    · exact h.zombie i u fd ((hother hi).symm.trans hu) hz

theorem keeps_sysFork (r : Word) : Keeps (Calls.Any me) (Ends me) (sysFork r me) := by
  intro k h
  obtain ⟨cur, hcur, halive, -⟩ := h.alive
  have hback (pid : Word) (mm : Mm.State) : Calls.Any me ({ k with lastPid := pid }.setMm mm) :=
    ⟨h.files.congr rfl fun _ => rfl, h.alive⟩
  refine wp_sysFork_any hcur (fun pid mm _ => hback pid mm) (fun nr pid mm page pgdir hnr _ => ?_)
    fun _ _ _ _ h => nomatch h
  exact (hback pid mm).files.share hcur halive hnr rfl rfl

/-! ### `execve` and `waitpid` -/

theorem keeps_closeOnExecFds : Keeps (Calls.Any me) (Ends me) (closeOnExecFds rd me) := by
  refine .bind (.forN fun fd => keeps_getTask.bind fun t => ?_) fun _ => ?_
  · exact .ite (keeps_closeFd fd).discard (.pure _)
  · refine keeps_updateTask (fun _ => rfl) (fun t fd hbit => ?_) (fun _ => rfl) fun _ _ h => h
    rw [closesOnExec_iff] at hbit
    simp at hbit

/-- What reading the headers and setting the bounds of the program keeps. -/
theorem keeps_scanHeaders_of {I : Kernel → Prop} {ip : Ino} {phoff : Word} {n i : ℕ}
    (hread : ∀ l, i ≤ l → l < i + n →
      Keeps I E (liftFs (readFile rd ip 32 (phoff + 32 * .ofNat 32 l) 32)))
    (hupdate : ∀ ph, Keeps I E (updateTask me fun t => t.include ph)) :
    Keeps I E (scanHeaders rd me ip phoff n i) := by
  induction n generalizing i with
  | zero => exact .pure _
  | succ n ih =>
    have hnext := ih (i := i + 1) fun l hl hlt => hread l (by omega) (by omega)
    exact (hread i le_rfl (by omega)).bind fun r =>
      .ite (.ite ((hupdate _).bind fun _ => hnext) hnext) (.pure _)

theorem keeps_doExecve (r filename argv envp : Word) :
    Keeps (Calls.Any me) (Ends me) (doExecve rd r me filename argv envp) := by
  refine keeps_getTask.bind fun cur => (keeps_liftFs _).bind fun image => ?_
  cases image with
  | error e => exact .pure _
  | ok image =>
    refine (keeps_liftFs _).bind fun _ => .bind ?_ fun _ => ?_
    · exact keeps_untouched fun _ => ⟨rfl, rfl, rfl⟩
    refine keeps_closeOnExecFds.bind fun _ => (keeps_liftMm _).bind fun _ => .bind ?_ fun _ => ?_
    · exact keeps_untouched fun _ => ⟨rfl, rfl, rfl⟩
    refine (keeps_liftFs _).bind fun p => .bind ?_ fun _ => .bind ?_ fun _ => ?_
    · exact keeps_untouched fun _ => ⟨rfl, rfl, rfl⟩
    · exact keeps_scanHeaders_of (fun _ _ _ => keeps_liftFs _) fun _ =>
        keeps_untouched fun _ => ⟨rfl, rfl, rfl⟩
    refine (keeps_liftFs _).bind fun _ => .bind ?_ fun _ => .pure _
    exact keeps_untouched fun _ => ⟨rfl, rfl, rfl⟩

theorem keeps_waitStep (pid statAddr options : Word) (i : Slot) :
    Keeps (Calls.Any me) (Ends me) (waitStep me pid statAddr options i) := by
  intro k h
  obtain ⟨cur, hcur, halive, -⟩ := h.alive
  rw [waitStep, wp_bind, wp_getTask hcur, wp_bind, wp_get]
  split
  · exact wp_pure.mpr h
  next p hp =>
  refine wp_ite.mpr ⟨fun _ => wp_pure.mpr h, fun hwait => ?_⟩
  split
  · refine wp_ite.mpr ⟨fun _ => wp_pure.mpr h, fun _ => ?_⟩
    exact (keeps_liftMm _).bind (fun _ => .pure _) k h
  · next hstate =>
    have hi : i ≠ me := fun hi => hwait (.inl hi)
    rw [wp_bind, wp_updateTask, hcur, map_some, wp_bind]
    have halive' {t : Task} {k' : Kernel} (h' : FileInv k')
        (htask : k'.task = update (k.setTask me (some t)).task i none)
        (ht : t.state = cur.state) : Calls.Any me k' := by
      refine ⟨h', t, ?_, ht ▸ halive, trivial⟩
      rw [htask, update_of_ne hi.symm]
      exact update_self ..
    refine wp_release (h.files.setTask hcur rfl (fun fd => h.files.closeOnExec me cur fd hcur)
      fun hz => absurd hz halive) ((update_of_ne hi ..).trans hp)
      (fun fd => h.files.zombie i p fd hp hstate) (fun k' h' htask => ?_)
      (fun e k' h' htask _ _ => halive' h' htask rfl) (fun _ h => nomatch h)
    exact (keeps_liftMm _).bind (fun _ => .pure _) k' (halive' h' htask rfl)
  · exact wp_pure.mpr h

theorem keeps_waitLoop (pid statAddr options : Word) (l : List Slot) (flag : Bool) :
    Keeps (Calls.Any me) (Ends me) (waitLoop me pid statAddr options l flag) := by
  induction l generalizing flag with
  | nil =>
    refine .ite (.ite (.pure _) ?_) (.pure _)
    exact .throw fun _ _ _ h => nomatch h
  | cons i l ih =>
    refine (keeps_waitStep pid statAddr options i).bind fun r => ?_
    cases r with
    | inl ret => exact .pure _
    | inr more => exact ih _

theorem keeps_sysWaitpid (pid statAddr options : Word) :
    Keeps (Calls.Any me) (Ends me) (sysWaitpid me pid statAddr options) :=
  keeps_getTask.bind fun _ => (keeps_liftMm _).bind fun _ => keeps_waitLoop _ _ _ _ _

end

/-! ### Runs -/

/-- The calls that open, copy and close descriptors; `waitpid` ends tasks. -/
inductive FileCall
  | open (filename flag mode : Word)
  | creat (pathname mode : Word)
  | close (fd : Word)
  | dup (fildes : Word)
  | dup2 (oldfd newfd : Word)
  | fcntl (fd cmd arg : Word)
  | pipe (fildes : Word)
  | fork
  | execve (filename argv envp : Word)
  | waitpid (pid statAddr options : Word)

section

variable (rd : RamDisk) (rootDev : Dev) (retFromTrap : Word)

/-- The call; the number it returns goes to user mode. -/
def FileCall.run (me : Slot) : FileCall → ProcM PUnit
  | .open filename flag mode => discard (sysOpen rd rootDev me filename flag mode)
  | .creat pathname mode => discard (sysCreat rd rootDev me pathname mode)
  | .close fd => discard (sysClose rd me fd)
  | .dup fildes => discard (sysDup me fildes)
  | .dup2 oldfd newfd => discard (sysDup2 rd me oldfd newfd)
  | .fcntl fd cmd arg => discard (sysFcntl me fd cmd arg)
  | .pipe fildes => discard (sysPipe rd me fildes)
  | .fork => discard (sysFork retFromTrap me)
  | .execve filename argv envp => discard (doExecve rd retFromTrap me filename argv envp)
  | .waitpid pid statAddr options => discard (sysWaitpid me pid statAddr options)

/-- `k'` is the state after a call of task `me`; a call that faults on user
memory goes on with `do_exit`. -/
inductive FileStep (k : Kernel) : Kernel → Prop
  | returns {me : Slot} {t : Task} {c : FileCall} {k' : Kernel} (ht : k.task me = some t)
      (halive : t.state ≠ .zombie) (h : c.run rd rootDev retFromTrap me k = .ok ⟨⟩ k') :
      FileStep k k'
  | killed {me : Slot} {t : Task} {c : FileCall} {code : ℕ} {k₁ k' : Kernel}
      (ht : k.task me = some t) (halive : t.state ≠ .zombie)
      (h : c.run rd rootDev retFromTrap me k = .error (.exit code) k₁)
      (hexit : doExit rd me (.ofNat 32 code) k₁ = .ok ⟨⟩ k') : FileStep k k'
  | exits {me : Slot} {t : Task} {errorCode : Word} {k' : Kernel} (ht : k.task me = some t)
      (halive : t.state ≠ .zombie) (h : sysExit rd me errorCode k = .ok ⟨⟩ k') : FileStep k k'

variable {rd rootDev retFromTrap}

theorem keeps_run {me : Slot} (c : FileCall) :
    Keeps (Calls.Any me) (Ends me) (c.run rd rootDev retFromTrap me) := by
  cases c with
  | «open» filename flag mode => exact (keeps_sysOpen rootDev filename flag mode).discard
  | creat pathname mode => exact (keeps_sysOpen rootDev pathname _ mode).discard
  | close fd => exact (keeps_sysClose fd).discard
  | dup fildes => exact (keeps_dupfd fildes 0).discard
  | dup2 oldfd newfd => exact (keeps_sysDup2 oldfd newfd).discard
  | fcntl fd cmd arg => exact (keeps_sysFcntl fd cmd arg).discard
  | pipe fildes => exact (keeps_sysPipe fildes).discard
  | fork => exact (keeps_sysFork retFromTrap).discard
  | execve filename argv envp => exact (keeps_doExecve retFromTrap filename argv envp).discard
  | waitpid pid statAddr options => exact (keeps_sysWaitpid pid statAddr options).discard

theorem FileStep.inv {k k' : Kernel} (hstep : FileStep rd rootDev retFromTrap k k')
    (h : FileInv k) : FileInv k' := by
  cases hstep with
  | @returns me t c _ ht halive hrun =>
    exact ((keeps_run c k ⟨h, t, ht, halive, trivial⟩).of_ok hrun).files
  | @killed me t c code k₁ _ ht halive hrun hexit =>
    have hends := (keeps_run c k ⟨h, t, ht, halive, trivial⟩).of_error hrun
    exact (wp_doExit (hends code rfl)).of_ok hexit
  | @exits me t errorCode _ ht halive hrun =>
    exact (wp_doExit ⟨h, t, ht, halive, trivial⟩).of_ok hrun

/-- No file is open, as after `mount_root`. -/
structure Kernel.NoFiles (k : Kernel) : Prop where
  count : ∀ f, (k.file f).count = 0
  filp : ∀ i t fd, k.task i = some t → t.filp fd = none
  closeOnExec : ∀ i t, k.task i = some t → t.closeOnExec = 0

theorem Kernel.NoFiles.inv {k : Kernel} (h : k.NoFiles) : FileInv k where
  count f := by
    have hnone : occurrences k.filp f = 0 := by
      refine occurrences_eq_zero_iff.mpr fun d hd => ?_
      obtain ⟨t, ht, hf⟩ := bind_eq_some_iff.mp hd
      rw [h.filp d.1 t d.2 ht] at hf
      cases hf
    rw [h.count, hnone]
    rfl
  closeOnExec i t fd ht hbit := by
    rw [closesOnExec_iff, h.closeOnExec i t ht] at hbit
    simp at hbit
  zombie i t fd ht _ := h.filp i t fd ht

end

end LinuxRv.Proc
