import LinuxRv.Minix.InodeKeys
import LinuxRv.Proc.OpenFiles
import LinuxRv.Proc.ReadWrite

/-!
`dup2` (`sys_dup2` and `dupfd` of `fs/fcntl.c`): the new descriptor is closed
before anything has been said about the old one.
-/

namespace LinuxRv.Proc

open ByteMemory Prog Fs Minix Function Option Proc.Kernel

def Kernel.fileOf (k : Kernel) (me : Slot) (fd : Word) : Option (Fin nrFile) :=
  (k.task me).bind fun t => t.fileOf fd

/-- What a call of `dup2` is to do. -/
structure Duplicates (me : Slot) (oldfd newfd : Word) (k : Kernel) (ret : ℤ) (k' : Kernel) :
    Prop where
  failed : ret < 0 → (∀ fd, k'.fileOf me fd = k.fileOf me fd) ∧
    (∀ f, (k'.file f).count = (k.file f).count) ∧
    ∀ ip, (k'.fs.inode ip).count = (k.fs.inode ip).count
  copied : 0 ≤ ret → ret = newfd.toNat ∧ k.fileOf me oldfd ≠ none ∧
    ∀ fd, k'.fileOf me fd = k.fileOf me (if fd = newfd then oldfd else fd)
  itself : oldfd = newfd → k.fileOf me newfd ≠ none → ret = newfd.toNat

section

variable {rd : RamDisk} {me : Slot} {t t' : Task} {k : Kernel} {fd : Word}
  {E : Minix.Halt → Kernel → Prop} {arg : Word} {Q : ℤ → Kernel → Prop} {f : Fin nrFile}

theorem Kernel.fileOf_eq (ht : k.task me = some t) (fd : Word) : k.fileOf me fd = t.fileOf fd := by
  rw [fileOf, ht, bind_some]

theorem Task.fileOf_of_lt (h : fd.toNat < nrOpen) : t.fileOf fd = t.filp ⟨fd.toNat, h⟩ := dif_pos h

theorem Task.fileOf_of_le (h : nrOpen ≤ fd.toNat) : t.fileOf fd = none := dif_neg (Nat.not_lt.mpr h)

theorem Task.fileOf_update (h : fd.toNat < nrOpen) {o : Option (Fin nrFile)}
    (ht : t'.filp = update t.filp ⟨fd.toNat, h⟩ o) (fd' : Word) :
    t'.fileOf fd' = if fd' = fd then o else t.fileOf fd' := by
  by_cases hfd : fd' = fd
  · subst hfd
    rw [if_pos rfl, fileOf_of_lt h, ht, update_self]
  · rw [if_neg hfd, fileOf, fileOf]
    split
    · rw [ht]
      exact update_of_ne (fun heq => hfd (BitVec.eq_of_toNat_eq (Fin.mk.inj heq))) ..
    · rfl

theorem wp_closeFd_files {fd : Fin nrOpen} (ht : k.task me = some t) :
    wp (closeFd rd me fd) (fun _ k' => (∃ t', k'.task me = some t' ∧
      t'.filp = update t.filp fd none) ∧
      (t.filp fd = none → k'.file = k.file ∧ k'.fs = k.fs)) (fun _ _ => True) k := by
  rw [closeFd, wp_bind, clearCloseOnExec, wp_updateTask, ht, map_some, wp_bind,
    wp_getTask task_setTask_self]
  cases hf : t.filp fd with
  | none =>
    refine wp_pure.mpr ⟨⟨_, task_setTask_self, ?_⟩, fun _ => ⟨rfl, rfl⟩⟩
    exact ((congrArg _ hf.symm).trans (update_eq_self ..)).symm
  | some f =>
    have hclosed (k' : Kernel) (hk' : k'.task me = some
        { t with closeOnExec := t.closeOnExec &&& ~~~fdBit fd,
                 filp := update t.filp fd none }) :
        (∃ t', k'.task me = some t' ∧ t'.filp = update t.filp fd none) ∧
          (some f = none → k'.file = k.file ∧ k'.fs = k.fs) := ⟨⟨_, hk', rfl⟩, by simp⟩
    rw [wp_bind, setFilp, wp_updateTask, task_setTask_self, setTask_setTask,
      map_some, wp_bind, wp_get]
    refine wp_ite.mpr ⟨fun _ => wp_throw.mpr trivial, fun _ => ?_⟩
    rw [wp_bind, setCount, wp_updateFile]
    refine wp_ite.mpr ⟨fun _ => wp_pure.mpr (hclosed _ task_setTask_self), fun _ => ?_⟩
    rw [wp_bind, wp_liftFs]
    exact wp_of_forall (fun _ _ => wp_pure.mpr (hclosed _ task_setTask_self)) fun _ _ => trivial

theorem wp_sysClose_files (ht : k.task me = some t) :
    wp (sysClose rd me fd) (fun _ k' => (∃ t', k'.task me = some t' ∧
      ∀ fd', t'.fileOf fd' = if fd' = fd then none else t.fileOf fd') ∧
      (t.fileOf fd = none → k'.file = k.file ∧ k'.fs = k.fs)) (fun _ _ => True) k := by
  unfold sysClose
  split
  · next h =>
      refine (wp_closeFd_files ht).imp fun _ k' ⟨⟨t', ht', hfilp⟩, hsame⟩ => ?_
      exact ⟨⟨t', ht', Task.fileOf_update h hfilp⟩, fun hnone => hsame (Task.fileOf_of_lt h ▸ hnone)⟩
  · next h =>
      refine wp_pure.mpr ⟨⟨t, ht, fun fd' => ?_⟩, fun _ => ⟨rfl, rfl⟩⟩
      split
      · next hfd => exact hfd ▸ Task.fileOf_of_le (Nat.not_lt.mp h)
      · rfl

theorem freeFd_eq (h : fd.toNat < nrOpen) (hfree : t.fileOf fd = none) :
    freeFd t fd.toNat = some ⟨fd.toNat, h⟩ := by
  rw [Task.fileOf_of_lt h] at hfree
  refine List.find?_eq_some_iff_getElem.mpr ⟨by simp [hfree], fd.toNat, by simpa using h, by simp,
    fun j hj => ?_⟩
  simp only [List.getElem_finRange, Bool.not_eq_true', decide_eq_false_iff_not]
  exact fun hle => absurd hle.1 (Nat.not_le.mpr hj)

theorem wp_dupfd_none (ht : k.task me = some t) (hfd : t.fileOf fd = none) :
    wp (dupfd me fd arg) Q E k ↔ Q (-ebadf) k := by
  rw [Task.fileOf] at hfd
  rw [dupfd, wp_bind, wp_getTask ht, hfd, wp_pure]

theorem wp_dupfd_beyond (ht : k.task me = some t) (hfd : t.fileOf fd = some f)
    (harg : nrOpen ≤ arg.toNat) : wp (dupfd me fd arg) Q E k ↔ Q (-einval) k := by
  rw [Task.fileOf] at hfd
  rw [dupfd, wp_bind, wp_getTask ht, hfd]
  change wp (ite _ _ _) Q E k ↔ _
  rw [if_pos harg, wp_pure]

theorem wp_dupfd_files (ht : k.task me = some t) (hfd : t.fileOf fd = some f)
    (harg : arg.toNat < nrOpen) (hfree : t.fileOf arg = none) :
    wp (dupfd me fd arg) (fun ret k' => ret = arg.toNat ∧ ∃ t', k'.task me = some t' ∧
      ∀ fd', t'.fileOf fd' = if fd' = arg then some f else t.fileOf fd') E k := by
  rw [Task.fileOf] at hfd
  rw [dupfd, wp_bind, wp_getTask ht, hfd]
  change wp (ite _ _ _) _ E k
  rw [if_neg (Nat.not_le.mpr harg), freeFd_eq harg hfree]
  change wp (clearCloseOnExec me _ >>= fun _ => _) _ E k
  rw [wp_bind, clearCloseOnExec, wp_updateTask, ht, map_some, wp_bind, setFilp,
    wp_updateTask, task_setTask_self, setTask_setTask, wp_bind, wp_updateFile, wp_pure]
  exact ⟨rfl, _, task_setTask_self, Task.fileOf_update harg rfl⟩

end

section

variable {rd : RamDisk} {me : Slot} {oldfd newfd : Word} {t : Task} {k k' : Kernel} {ret : ℤ}

/-- The new descriptor is open, and there is no other one to copy to it. -/
def ClosesForNothing (me : Slot) (oldfd newfd : Word) (k : Kernel) : Prop :=
  k.fileOf me newfd ≠ none ∧ (k.fileOf me oldfd = none ∨ oldfd = newfd)

/-- The two calls of `sys_dup2`, put together. -/
theorem wp_sysDup2 (ht : k.task me = some t) : wp (sysDup2 rd me oldfd newfd) (fun ret k' =>
      if t.fileOf oldfd = none ∨ nrOpen ≤ newfd.toNat ∨ oldfd = newfd then
        ret < 0 ∧ (∀ fd, k'.fileOf me fd = if fd = newfd then none else t.fileOf fd) ∧
          (t.fileOf newfd = none → k'.file = k.file ∧ k'.fs = k.fs)
      else ret = newfd.toNat ∧
        ∀ fd, k'.fileOf me fd = t.fileOf (if fd = newfd then oldfd else fd)) (fun _ _ => True) k := by
  rw [sysDup2]
  refine (wp_sysClose_files ht).next fun _ k₁ ⟨⟨t₁, ht₁, hfiles⟩, hsame⟩ => ?_
  have hclosed : ∀ fd, k₁.fileOf me fd = if fd = newfd then none else t.fileOf fd := fun fd =>
    (fileOf_eq ht₁ fd).trans (hfiles fd)
  have hnew : t₁.fileOf newfd = none := (hfiles newfd).trans (if_pos rfl)
  by_cases hsource : t.fileOf oldfd = none ∨ oldfd = newfd
  · have hold : t₁.fileOf oldfd = none := by
      rw [hfiles]
      split
      · rfl
      · next h => exact hsource.resolve_right h
    rw [wp_dupfd_none ht₁ hold, if_pos (hsource.imp_right .inr)]
    exact ⟨by decide, hclosed, hsame⟩
  obtain ⟨hopen, hne⟩ := not_or.mp hsource
  obtain ⟨f, hf⟩ := ne_none_iff_exists'.mp hopen
  have hold : t₁.fileOf oldfd = some f := (hfiles oldfd).trans ((if_neg hne).trans hf)
  by_cases hrange : nrOpen ≤ newfd.toNat
  · rw [wp_dupfd_beyond ht₁ hold hrange, if_pos (.inr (.inl hrange))]
    exact ⟨by decide, hclosed, hsame⟩
  · refine (wp_dupfd_files ht₁ hold (Nat.not_le.mp hrange) hnew).imp
      fun ret k₂ ⟨hret, t₂, ht₂, hfiles₂⟩ => ?_
    rw [if_neg (not_or.mpr ⟨hopen, not_or.mpr ⟨hrange, hne⟩⟩)]
    refine ⟨hret, fun fd => ?_⟩
    rw [fileOf_eq ht₂, hfiles₂]
    split
    · exact hf.symm
    · next hfd => exact (hfiles fd).trans (if_neg hfd)

theorem dup2_atomic_iff (ht : k.task me = some t)
    (hrun : sysDup2 rd me oldfd newfd k = .ok ret k') :
    Duplicates me oldfd newfd k ret k' ↔ ¬ ClosesForNothing me oldfd newfd k := by
  have hend := (wp_sysDup2 ht).of_ok hrun
  rw [ClosesForNothing]
  have hbefore := fileOf_eq ht
  simp only [← hbefore] at hend
  split at hend
  · next hfail =>
      obtain ⟨hneg, hfiles, hsame⟩ := hend
      constructor
      · intro h ⟨hopen, _⟩
        exact hopen (((h.failed hneg).1 newfd).symm.trans ((hfiles newfd).trans (if_pos rfl)))
      · intro hnot
        have hnew : k.fileOf me newfd = none := by
          by_contra hopen
          refine hnot ⟨hopen, hfail.imp_right (Or.resolve_left · fun hle => hopen ?_)⟩
          rw [hbefore, Task.fileOf_of_le hle]
        obtain ⟨hfile, hfs⟩ := hsame hnew
        refine ⟨fun _ => ⟨fun fd => ?_, fun f => by rw [hfile], fun ip => by rw [hfs]⟩,
          fun hpos => absurd hneg (not_lt.mpr hpos), fun _ hopen => absurd hnew hopen⟩
        rw [hfiles]
        split
        · next hfd => rw [hfd, hnew]
        · rfl
  · next hgood =>
      obtain ⟨hopen, hrange, hne⟩ := not_or.mp hgood |>.imp_right not_or.mp
      obtain ⟨hret, hfiles⟩ := hend
      refine iff_of_true ⟨fun hneg => ?_, fun _ => ⟨hret, hopen, hfiles⟩, fun heq => absurd heq hne⟩
        fun h => h.2.elim hopen hne
      omega

end

/-- A task with two descriptors of one file. -/
def twoDescriptors : Kernel :=
  let k := single ⟨fun _ => 0, fun _ => 0, false⟩ 0
  (k.setFile 0 { k.file 0 with count := 2 }).setTask 0
    ((k.task 0).map fun t => { t with filp := fun fd => if fd < 2 then some 0 else none })

/-- Descriptor 0 is copied to 1. -/
theorem dup2_atomic_copied : ∃ ret k', sysDup2 smallDisk 0 0 1 twoDescriptors = .ok ret k' ∧
    Duplicates 0 0 1 twoDescriptors ret k' := by
  obtain ⟨ret, hrun⟩ := ok_after_of_returns
    (show returns (sysDup2 smallDisk 0 0 1) twoDescriptors = true by decide +kernel)
  refine ⟨ret, _, hrun, (dup2_atomic_iff rfl hrun).mpr fun h => ?_⟩
  exact absurd h.2 (by decide +kernel)

/-- Descriptor 5 is not open: the call fails, and 1 has been closed. -/
theorem dup2_closes : ∃ ret k', sysDup2 smallDisk 0 5 1 twoDescriptors = .ok ret k' ∧ ret < 0 ∧
    twoDescriptors.fileOf 0 1 = some 0 ∧ k'.fileOf 0 1 = none ∧ (k'.file 0).count = 1 := by
  exact exists_of_wp (show wp (sysDup2 smallDisk 0 5 1) (fun ret k' => ret < 0 ∧
    twoDescriptors.fileOf 0 1 = some 0 ∧ k'.fileOf 0 1 = none ∧ (k'.file 0).count = 1)
    (fun _ _ => False) twoDescriptors by decide +kernel)

end LinuxRv.Proc
