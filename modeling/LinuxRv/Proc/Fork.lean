import LinuxRv.Mm.Stops
import LinuxRv.Proc.Tasks
import Mathlib.Algebra.BigOperators.Fin

/-!
What `sys_fork` does to the kernel's tables.

When it succeeds the child has a page for its structure, a directory and
copies of the parent's page tables. When memory runs out before the first table
is copied everything is given back; once a table has been copied the failure
path frees only the directory and the task's page, so that the tables and the
raised counts of the parent's pages are lost.
-/

namespace LinuxRv.Proc

open ByteMemory Prog RefCount Fs Minix Mm Function BitVec Option Proc.Kernel Finset

variable {p : Word} {m : ℕ} {used : Word → Bool}

/-! ### Lifted procedures -/

def Kernel.setMm (k : Kernel) (mm : Mm.State) : Kernel := k.setFs { k.fs with mm := mm }

section

variable {α : Type} {k : Kernel} {E : Minix.Halt → Kernel → Prop} {Q : α → Kernel → Prop}

theorem wp_liftFs {c : FsM α} : wp (liftFs c) Q E k ↔
    wp c (fun a fs => Q a (k.setFs fs)) (fun e fs => E e (k.setFs fs)) k.fs := by
  unfold wp liftFs
  cases c k.fs <;> rfl

theorem wp_liftMm {c : Mm.M α} : wp (liftMm c) Q E k ↔
    wp c (fun a mm => Q a (k.setMm mm)) (fun e mm => E (.ofMm e) (k.setMm mm)) k.fs.mm := by
  rw [liftMm, wp_liftFs]
  unfold wp Minix.liftMm
  cases c k.fs.mm <;> rfl

theorem wp_getTask {nr : Slot} {t : Task} (h : k.task nr = some t) {Q : Task → Kernel → Prop} :
    wp (getTask nr) Q E k ↔ Q t k := by
  simp only [getTask, wp_bind, wp_get, h, wp_pure]

theorem wp_getTask_of {nr : Slot} {Q : Task → Kernel → Prop} (hnull : E Minix.nullPointer k)
    (hQ : ∀ t, k.task nr = some t → Q t k) : wp (getTask nr) Q E k := by
  rw [getTask, wp_bind, wp_get]
  cases ht : k.task nr with
  | none => exact wp_throw.mpr hnull
  | some t => exact wp_pure.mpr (hQ t ht)

@[simp] theorem wp_updateTask {nr : Slot} {f : Task → Task} {Q : PUnit → Kernel → Prop} :
    wp (updateTask nr f) Q E k ↔ Q ⟨⟩ (k.setTask nr ((k.task nr).map f)) := wp_modify

@[simp] theorem wp_updateFile {i : Fin nrFile} {f : File → File} {Q : PUnit → Kernel → Prop} :
    wp (updateFile i f) Q E k ↔ Q ⟨⟩ (k.setFile i (f (k.file i))) := wp_modify

end

/-! ### Process numbers -/

theorem toInt_neg_iff (p : Word) : p.toInt < 0 ↔ 2 ^ 31 ≤ p.toNat := by
  have := p.isLt
  rw [toInt_eq_toNat_cond]
  split <;> omega

theorem toNat_nextPid (hp : p.toNat < 2 ^ 31) :
    (nextPid p).toNat = if p.toNat + 1 < 2 ^ 31 then p.toNat + 1 else 1 := by
  have hsucc : (p + 1).toNat = p.toNat + 1 := by
    rw [toNat_add]
    exact Nat.mod_eq_of_lt (by simp; omega)
  have hneg : (p + 1).toInt < 0 ↔ ¬ p.toNat + 1 < 2 ^ 31 := by
    rw [toInt_neg_iff, hsucc, not_lt]
  by_cases h : p.toNat + 1 < 2 ^ 31
  · rw [if_pos h, nextPid, if_neg (mt hneg.mp (not_not.mpr h)), hsucc]
  · rw [if_neg h, nextPid, if_pos (hneg.mpr h)]
    rfl

theorem nextPid_lt (p : Word) : (nextPid p).toNat < 2 ^ 31 := by
  by_cases h : (p + 1).toInt < 0
  · rw [nextPid, if_pos h]
    decide
  · rw [nextPid, if_neg h]
    exact not_le.mp (mt (toInt_neg_iff _).mpr h)

theorem toNat_iterate_nextPid (hp : p.toNat < 2 ^ 31) (hm : m < 2 ^ 30) : (nextPid^[m] p).toNat =
      if p.toNat + m < 2 ^ 31 then p.toNat + m else p.toNat + m - 2 ^ 31 + 1 := by
  induction m with
  | zero => rw [Nat.add_zero, if_pos hp, iterate_zero, id]
  | succ m ih =>
    have hprev := ih (by omega)
    have hlt : (nextPid^[m] p).toNat < 2 ^ 31 := by
      rw [hprev]
      split <;> omega
    rw [iterate_succ_apply', toNat_nextPid hlt, hprev]
    by_cases h : p.toNat + m < 2 ^ 31
    · by_cases h' : p.toNat + (m + 1) < 2 ^ 31
      · rw [if_pos h, if_pos h', if_pos (by omega), Nat.add_assoc]
      · rw [if_pos h, if_neg h', if_neg (by omega)]
        omega
    · rw [if_neg h, if_neg (by omega : ¬ p.toNat + (m + 1) < 2 ^ 31), if_pos (by omega)]
      omega

/-- As many numbers in a row as there are tasks and one more are distinct. -/
theorem iterate_nextPid_injective (p : Word) :
    Injective fun j : Fin (nrTasks + 1) => nextPid^[j.1 + 1] p := by
  intro i j h
  have hval (i : Fin (nrTasks + 1)) := toNat_iterate_nextPid (nextPid_lt p) (m := i.1)
    (lt_trans i.isLt (by decide))
  have hi := hval i
  have hj := hval j
  have hlt := nextPid_lt p
  have hi' : i.1 < 65 := i.isLt
  have hj' : j.1 < 65 := j.isLt
  simp only [iterate_succ_apply] at h
  rw [h] at hi
  apply Fin.ext
  split at hi <;> split at hj <;> omega

theorem used_of_freshPid_eq_none {n : ℕ} (h : freshPid used n p = none) :
    ∀ j < n, used (nextPid^[j + 1] p) = true := by
  induction n generalizing p with
  | zero => exact fun j hj => absurd hj (Nat.not_lt_zero j)
  | succ n ih =>
    rw [freshPid] at h
    by_cases hused : used (nextPid p) = true
    · rw [if_pos hused] at h
      intro j hj
      cases j with
      | zero => exact hused
      | succ j => exact ih h j (by omega)
    · rw [if_neg hused] at h
      cases h

/-- A process number that `find_empty_process` may find. -/
structure Kernel.FreshPid (k : Kernel) (pid : Word) : Prop where
  nonneg : 0 ≤ pid.toInt
  pos : 0 ≤ k.lastPid.toInt → 0 < pid.toInt
  unused : k.pidUsed pid = false

theorem nextPid_nonneg (p : Word) : 0 ≤ (nextPid p).toInt :=
  not_lt.mp (mt (toInt_neg_iff _).mp (not_le.mpr (nextPid_lt p)))

theorem nextPid_pos (h : 0 ≤ p.toInt) : 0 < (nextPid p).toInt := by
  have hlt : p.toNat < 2 ^ 31 := not_le.mp (mt (toInt_neg_iff p).mpr (not_lt.mpr h))
  have hnext := toNat_nextPid hlt
  rw [toInt_eq_toNat_of_lt (by have := nextPid_lt p; omega)]
  split at hnext <;> omega

theorem freshPid_spec {n : ℕ} {pid : Word} (h : freshPid used n p = some pid) :
    0 ≤ pid.toInt ∧ (0 ≤ p.toInt → 0 < pid.toInt) ∧ used pid = false := by
  induction n generalizing p with
  | zero => cases h
  | succ n ih =>
    rw [freshPid] at h
    by_cases hused : used (nextPid p) = true
    · rw [if_pos hused] at h
      obtain ⟨hnonneg, hpos, hfree⟩ := ih h
      exact ⟨hnonneg, fun _ => hpos (nextPid_nonneg p), hfree⟩
    · rw [if_neg hused, some.injEq] at h
      rw [← h]
      exact ⟨nextPid_nonneg p, nextPid_pos, Bool.eq_false_iff.mpr hused⟩

/-- The search for a process number ends: there are more numbers than tasks. -/
theorem freshPid_ne_none (k : Kernel) : freshPid k.pidUsed (nrTasks + 1) k.lastPid ≠ none := by
  intro h
  have hused := used_of_freshPid_eq_none h
  have hslot (j : Fin (nrTasks + 1)) : ∃ i : Slot, ∃ t, k.task i = some t ∧
      t.pid = nextPid^[j.1 + 1] k.lastPid := by
    have hj := hused j.1 j.isLt
    simp only [pidUsed, List.any_eq_true, any_eq_true, decide_eq_true_eq] at hj
    obtain ⟨i, -, t, ht, hpid⟩ := hj
    exact ⟨i, t, ht, hpid⟩
  choose slot t ht hpid using hslot
  have hinj : Injective slot := by
    intro i j hij
    refine iterate_nextPid_injective k.lastPid ?_
    have hsame : t i = t j := some.inj (by rw [← ht i, ← ht j, hij])
    change nextPid^[i.1 + 1] k.lastPid = nextPid^[j.1 + 1] k.lastPid
    rw [← hpid i, ← hpid j, hsame]
  have hcard := Fintype.card_le_of_injective slot hinj
  rw [Fintype.card_fin, Fintype.card_fin] at hcard
  exact absurd hcard (by decide)

theorem wp_findEmptyProcess {k : Kernel} {E : Minix.Halt → Kernel → Prop}
    {Q : Option Slot → Kernel → Prop}
    (h : ∀ pid, k.FreshPid pid → Q (Mm.findEmptyProcess k.taken) { k with lastPid := pid }) :
    wp findEmptyProcess Q E k := by
  simp only [findEmptyProcess, wp_bind, wp_get]
  cases hpid : freshPid k.pidUsed (nrTasks + 1) k.lastPid with
  | none => exact absurd hpid (freshPid_ne_none k)
  | some pid =>
    simp only [wp_bind, wp_set, wp_pure]
    obtain ⟨hnonneg, hpos, hunused⟩ := freshPid_spec hpid
    exact h pid ⟨hnonneg, hpos, hunused⟩

/-! ### The address spaces of the tasks -/

def Kernel.pgdir (k : Kernel) (i : Slot) : Option Word :=
  (k.task i).bind fun t => if t.pgdir = 0 then none else some t.pgdir

/-- The kernel's memory with the address spaces of the tasks; the frames in
`held` are used for something else, task structures and pipes. -/
def Kernel.world (k : Kernel) (held : Multiset Word) : World := ⟨k.fs.mm, k.pgdir, held⟩

/-- The page tables of task `i`. -/
def Kernel.tables (k : Kernel) (i : Slot) : ℕ :=
  ((k.world 0).tablesBelow i userPgdEntries).card

/-- Frame counts, task table, files, inodes and the contents of all address
spaces are the same. -/
structure Unchanged (k k' : Kernel) : Prop where
  memMap : k'.fs.mm.memMap = k.fs.mm.memMap
  task : k'.task = k.task
  file : k'.file = k.file
  inode : k'.fs.inode = k.fs.inode
  contents : (k'.world 0).contents = (k.world 0).contents

/-- The child as `copy_process` sets it up, before it can run. -/
def childTask (retFromTrap : Word) (k : Kernel) (cur : Task) (page pgdir : Word) : Task :=
  { cur with
    page := page
    state := .uninterruptible
    pid := k.lastPid
    father := cur.pid
    counter := cur.priority
    signal := 0
    alarm := 0
    leader := 0
    utime := 0
    stime := 0
    cutime := 0
    cstime := 0
    startTime := k.jiffies
    pgdir := pgdir
    tf := update (update cur.tf tfA0 0) tfFromUser 1
    ra := retFromTrap
    sp := page + 4096 - 400 }

/-! ### Shared files and inodes -/

/-- The inodes a task holds. -/
def Task.inodes (t : Task) : Fin 3 → Option Ino
  | 0 => t.pwd
  | 1 => t.root
  | 2 => t.executable

/-- `n` references more. -/
def File.refer (f : File) (n : ℕ) : File := { f with count := f.count + .ofNat 16 n }

def refer (n : ℕ) (i : MInode) : MInode := { i with count := i.count + .ofNat 16 n }

/-- After `shareFiles`: the files and inodes of the parent have a reference
more for each place of the child. -/
def Kernel.shared (k : Kernel) (nr : Slot) (cur : Task) : Kernel :=
  { k with
    file := fun f => (k.file f).refer (occurrences cur.filp f)
    fs := { k.fs with inode := fun ip => refer (occurrences cur.inodes ip) (k.fs.inode ip) }
    task := update k.task nr ((k.task nr).map fun t => { t with state := .running }) }

section

variable {k : Kernel} {nr : Slot} {cur : Task} {E : Minix.Halt → Kernel → Prop}
  {Q : PUnit → Kernel → Prop}

theorem File.refer_refer (f : File) (n m : ℕ) : (f.refer n).refer m = f.refer (n + m) := by
  simp [refer, ofNat_add, BitVec.add_assoc]

theorem refer_refer (i : MInode) (n m : ℕ) : refer m (refer n i) = refer (n + m) i := by
  simp [refer, ofNat_add, BitVec.add_assoc]

theorem wp_countUp {o : Option Ino} : wp (countUp o) Q E k ↔ Q ⟨⟩ (k.setFs { k.fs with
      inode := fun ip => refer (if o = some ip then 1 else 0) (k.fs.inode ip) }) := by
  cases o with
  | none => simp [countUp, refer, setFs]
  | some ip =>
    rw [countUp, wp_liftFs, updateInode, wp_modify, Fs.setInode]
    refine iff_of_eq (congrArg (Q ⟨⟩) (congrArg k.setFs ?_))
    refine congrArg (fun g => { k.fs with inode := g }) (funext fun ip' => ?_)
    by_cases hip : ip' = ip
    · rw [hip, update_self, if_pos rfl]
      rfl
    · rw [update_of_ne hip, if_neg fun h => hip (some.inj h).symm]
      simp [refer]

theorem occurrences_inodes (ip : Ino) : occurrences cur.inodes ip =
    (if cur.pwd = some ip then 1 else 0) + (if cur.root = some ip then 1 else 0) +
      (if cur.executable = some ip then 1 else 0) := by
  rw [occurrences, card_filter, Fin.sum_univ_three]
  rfl

/-- The files of the first `l` descriptors. -/
def Task.filpBelow (t : Task) (l : ℕ) (i : Fin nrOpen) : Option (Fin nrFile) :=
  if i.1 < l then t.filp i else none

theorem occurrences_filpBelow_succ (i : Fin nrOpen) (f : Fin nrFile) :
    occurrences (cur.filpBelow (i + 1)) f =
      occurrences (cur.filpBelow i) f + (if cur.filp i = some f then 1 else 0) := by
  have h := occurrences_update (g := cur.filpBelow i) (f := cur.filpBelow (i + 1)) i
    (fun i' hi' => by
      have hlt : i'.1 < i.1 + 1 ↔ i'.1 < i.1 := by
        have hne := Fin.val_ne_of_ne hi'
        omega
      simp only [Task.filpBelow, hlt]) f
  simp only [Task.filpBelow, lt_irrefl, if_false, reduceCtorEq, Nat.lt_succ_self, if_true,
    Nat.add_zero] at h
  exact h

theorem wp_shareFiles (h : Q ⟨⟩ (k.shared nr cur)) : wp (shareFiles nr cur) Q E k := by
  rw [shareFiles, wp_bind]
  refine (wp_forN (fun l k' => k' = { k with
    file := fun f => (k.file f).refer (occurrences (cur.filpBelow l) f) }) ?_ ?_).imp ?_
  · rintro i k' rfl
    have hstep (f : Fin nrFile) : (k.file f).refer (occurrences (cur.filpBelow (i + 1)) f) =
        ((k.file f).refer (occurrences (cur.filpBelow i) f)).refer
          (if cur.filp i = some f then 1 else 0) := by
      rw [occurrences_filpBelow_succ, File.refer_refer]
    simp only [hstep]
    cases hf : cur.filp i with
    | none => simp [File.refer_refer]
    | some f =>
      rw [wp_updateFile, setFile]
      refine congrArg (fun g => { k with file := g }) (funext fun f' => ?_)
      by_cases hf' : f' = f
      · rw [hf', update_self, if_pos rfl]
        rfl
      · rw [update_of_ne hf', if_neg fun h => hf' (some.inj h).symm, File.refer_refer, Nat.add_zero]
  · have hnone (f : Fin nrFile) : occurrences (cur.filpBelow 0) f = 0 := by
      refine Nat.eq_zero_of_not_pos (mt occurrences_pos_iff.mp ?_)
      simp [Task.filpBelow]
    simp [hnone, File.refer]
  · rintro - k' rfl
    simp only [wp_bind, wp_countUp, wp_updateTask]
    have hall : cur.filpBelow nrOpen = cur.filp := funext fun i => if_pos i.isLt
    rw [hall]
    refine Eq.mp (congrArg (Q ⟨⟩) ?_) h
    simp only [shared, setFs, setTask, refer_refer, occurrences_inodes]

end

section

variable {main : MainMemory} {k : Kernel} {held : Multiset Word} {me nr : Slot} {cur : Task}
  {r : Word} {E : Minix.Halt → Kernel → Prop} {Q : ℤ → Kernel → Prop} {memMap : ℕ → Byte}
  {s : Mm.State}

@[simp] theorem Kernel.setMm_setMm (mm mm' : Mm.State) : (k.setMm mm).setMm mm' = k.setMm mm' :=
  rfl

/-- Memory and task table are set independently. -/
theorem Kernel.setTask_setMm (o : Option Task) (mm : Mm.State) :
    (k.setTask nr o).setMm mm = (k.setMm mm).setTask nr o :=
  rfl

theorem Kernel.task_setTask_self {o : Option Task} : (k.setTask nr o).task nr = o :=
  update_self ..

@[simp] theorem Kernel.setTask_setTask (o o' : Option Task) :
    (k.setTask nr o).setTask nr o' = k.setTask nr o' := by
  simp [setTask]

theorem Kernel.setTask_of_none (hnr : k.task nr = none) (mm : Mm.State) :
    (k.setMm mm).setTask nr none = k.setMm mm := by
  have htask : update (k.setMm mm).task nr none = k.task := by
    rw [← hnr]
    exact update_eq_self _ _
  rw [setTask, htask]
  rfl

theorem Kernel.pgdir_of_task (hcur : k.task me = some cur) (hdir : cur.pgdir ≠ 0) :
    k.pgdir me = some cur.pgdir := by
  rw [pgdir, hcur, bind_some, if_neg hdir]

theorem Kernel.pgdir_of_none (hnr : k.task nr = none) : k.pgdir nr = none := by
  rw [pgdir, hnr, bind_none]

/-- Giving back a frame taken from the free ones. -/
theorem update_take_give {n : ℕ} (h : memMap n = 0) (c : Byte) :
    update (update memMap n c) n 0 = memMap := by
  rw [update_idem, ← h, update_eq_self]

/-- The first frame alone can be had. -/
theorem Unchanged.of_one_frame (hI : (k.world held).Inv main) {n : ℕ} (hn : n < pagingPages)
    (hzero : k.fs.mm.memMap n = 0) (hmem : s.mem = ((k.world held).alloc n).mm.mem)
    (hmap : s.memMap = k.fs.mm.memMap) : Unchanged k (k.setMm s) := by
  refine ⟨hmap, rfl, rfl, rfl, ?_⟩
  funext i p
  change Mm.contents k.pgdir s.mem i p = _
  rw [hmem]
  refine hI.contents_eq (hI.fresh hn hzero).keeps (congrArg _ ?_)
  exact congrFun (hI.entry_alloc hn hzero) (.leaf i p.1 p.2)

/-! ### The copy -/

/-- A frame with one reference has the count one. -/
theorem memMap_eq_one {v : View} (hv : v.Inv main) {n : ℕ} (hn : n < pagingPages)
    (hrefs : v.refs (frame n) = 1) : v.memMap n = 1 := by
  obtain ⟨m, hm, hframe⟩ := hv.main_of_refs (frame n) (by omega)
  have heq : n = m := frame_inj hn hm.lt hframe
  rw [heq] at hrefs ⊢
  refine eq_of_toNat_eq ?_
  rw [hv.exact m hm, hrefs]
  rfl

section

variable {w : World} {n n' : ℕ} (hI : w.Inv main) (hnone : w.pgdir nr = none) (hn : n < pagingPages)
  (hzero : w.mm.memMap n = 0) (hn' : n' < pagingPages) (hzero' : (w.alloc n).mm.memMap n' = 0)
  {s : Mm.State} {l : ℕ}

include hn hzero hn' hzero' in
theorem freeFrames_newSpace (nr : Slot) :
    freeFrames (w.newSpace nr n n').mm.memMap + 2 = freeFrames w.mm.memMap := by
  have h1 : freeFrames (w.alloc n).mm.memMap + 1 = freeFrames w.mm.memMap :=
    freeFrames_take hn hzero (by decide)
  have h2 : freeFrames (w.newSpace nr n n').mm.memMap + 1 = freeFrames (w.alloc n).mm.memMap :=
    freeFrames_take hn' hzero' (by decide)
  omega

include hn hn' in
/-- Until the child runs, the counts of its two frames are one. -/
theorem counts_newSpace (h : CopyInv main (w.newSpace nr n n') me nr l s) :
    s.memMap n = 1 ∧ s.memMap n' = 1 := by
  have hdir : ((w.newSpace nr n n').setMm s).view.entry (.dir nr) = some (frame n') :=
    update_self ..
  have hheld : frame n ∈ ((w.newSpace nr n n').setMm s).view.held := Multiset.mem_cons_self _ _
  exact ⟨memMap_eq_one h.inv hn (View.Inv.held_exclusive h.inv _ hheld),
    memMap_eq_one h.inv hn' (View.Inv.exclusive h.inv _ _ hdir trivial)⟩

include hI hnone hn hzero hn' hzero'

theorem tablesBelow_newSpace (l : ℕ) :
    (w.newSpace nr n n').tablesBelow me l = w.tablesBelow me l := by
  ext k
  rw [World.mem_tablesBelow, World.mem_tablesBelow, hI.entry_newSpace hnone hn hzero hn' hzero',
    update_of_ne (by simp)]

/-- The counts after `copy_page_tables` has failed and both frames are freed. -/
theorem freeFrames_giveUp {l : Fin userPgdEntries}
    (h : CopyInv main (w.newSpace nr n n') me nr l s) (hall : ∀ n < pagingPages, s.memMap n ≠ 0) :
    freeFrames w.mm.memMap = (w.tablesBelow me l).card + 2 ∧
      freeFrames (update (update s.memMap n' 0) n 0) = 2 := by
  have hsum := h.freeFrames_add (hI.newSpace hnone hn hzero hn' hzero')
    (hI.table_newSpace hnone hn hzero hn' hzero')
  rw [tablesBelow_newSpace hI hnone hn hzero hn' hzero', freeFrames_eq_zero_iff.mpr hall] at hsum
  have hspace := freeFrames_newSpace hn hzero hn' hzero' nr
  have hne : n ≠ n' := (World.free_of_alloc hzero').1.symm
  have h1 := freeFrames_give hn' (hall n' hn')
  have hused : update s.memMap n' 0 n ≠ 0 := by
    rw [update_of_ne hne]
    exact hall n hn
  have h2 := freeFrames_give hn hused
  rw [freeFrames_eq_zero_iff.mpr hall] at h1
  omega

/-- A copy that has failed does not show in the address spaces. -/
theorem contents_giveUp (h : CopyInv main (w.newSpace nr n n') me nr l s) :
    contents w.pgdir s.mem = w.contents := by
  rw [← hI.contents_newSpace hnone hn hzero hn' hzero']
  funext t p
  have hI₂ := hI.newSpace hnone hn hzero hn' hzero'
  refine hI₂.contents_eq h.keeps ?_
  by_cases ht : t = nr
  · have hempty : (w.newSpace nr n n').view.entry (.leaf nr p.1 p.2) = none :=
      entries_leaf_of_none (hI.table_newSpace hnone hn hzero hn' hzero' p.1) p.2
    rw [ht, hempty]
    simp only [entries, hnone, bind_none, map_none]
  · have hpgdir : (w.newSpace nr n n').pgdir t = w.pgdir t := update_of_ne ht _ _
    have hentry : entries w.pgdir s.mem (.leaf t p.1 p.2) =
        ((w.newSpace nr n n').setMm s).view.entry (.leaf t p.1 p.2) := by
      simp only [World.view, World.setMm, entries, hpgdir]
    have htarget := h.target_leaf t p.1 p.2
    rw [View.target, View.target, View.target] at htarget
    rw [hentry]
    refine htarget.trans ?_
    by_cases hdone : (t = me ∨ t = nr) ∧ p.1.1 < l
    · rw [if_pos hdone, hdone.1.resolve_right ht]
      rfl
    · rw [if_neg hdone]
      rfl

/-- A copy that has succeeded took a frame for each table. -/
theorem tables_le_of_copied (h : CopyInv main (w.newSpace nr n n') me nr userPgdEntries s) :
    (w.tablesBelow me userPgdEntries).card + 2 ≤ freeFrames w.mm.memMap := by
  have hsum := h.freeFrames_add (hI.newSpace hnone hn hzero hn' hzero')
    (hI.table_newSpace hnone hn hzero hn' hzero')
  rw [tablesBelow_newSpace hI hnone hn hzero hn' hzero'] at hsum
  have hspace := freeFrames_newSpace hn hzero hn' hzero' nr
  omega

omit hI hnone hn hzero hn' hzero' in
/-- The table at which the copy stops is not among those copied. -/
theorem card_tablesBelow_lt {l : Fin userPgdEntries} (h : w.view.entry (.table me l) ≠ none) :
    (w.tablesBelow me l).card < (w.tablesBelow me userPgdEntries).card := by
  refine card_lt_card ((ssubset_iff_of_subset fun k hk => ?_).mpr ⟨l, ?_, ?_⟩)
  · exact World.mem_tablesBelow.mpr ⟨k.isLt, (World.mem_tablesBelow.mp hk).2⟩
  · exact World.mem_tablesBelow.mpr ⟨l.isLt, h⟩
  · exact fun hl => lt_irrefl _ (World.mem_tablesBelow.mp hl).1

end

/-- Freeing two frames with one reference each. -/
theorem giveUp_counts {n n' : ℕ} (hnn : n ≠ n') (hone : s.memMap n = 1) (hone' : s.memMap n' = 1) :
    ((s.setCount n' (s.memMap n' - 1)).setCount n
      ((s.setCount n' (s.memMap n' - 1)).memMap n - 1)).memMap =
      update (update s.memMap n' 0) n 0 := by
  simp only [memMap_setCount, update_of_ne hnn, hone, hone']
  rfl

theorem update_two_frames {n n' : ℕ} (hzero : memMap n = 0) (hzero' : update memMap n 1 n' = 0) :
    update (update (update (update memMap n 1) n' 1) n' 0) n 0 = memMap := by
  rw [update_take_give hzero', update_take_give hzero]

/-- `copy_process` from the copying of the page tables on. -/
theorem wp_copyTables {n n' : ℕ} (hI : (k.world held).Inv main) (hcur : k.task me = some cur)
    (hdir : cur.pgdir ≠ 0) (hnr : k.task nr = none) (hn : n < pagingPages)
    (hzero : k.fs.mm.memMap n = 0) (hn' : n' < pagingPages)
    (hzero' : ((k.world held).alloc n).mm.memMap n' = 0) (child : Task)
    (hback : ∀ k', Unchanged k k' → freeFrames k.fs.mm.memMap < 3 →
      freeFrames k.fs.mm.memMap < k.tables me + 2 → Q (-eagain) k')
    (hleak : ∀ k', freeFrames k'.fs.mm.memMap = 2 → 3 ≤ freeFrames k.fs.mm.memMap →
      freeFrames k.fs.mm.memMap < k.tables me + 2 → Q (-eagain) k')
    (hok : ∀ s, CopyInv main ((k.world held).newSpace nr n n') me nr userPgdEntries s →
      wp (do shareFiles nr cur; return (← get).lastPid.toInt) Q E
        ((k.setMm s).setTask nr (some child))) : wp (do
      let r ← liftMm (copyPageTables cur.pgdir (frame n'))
      if r ≠ 0 then
        modify fun k => k.setTask nr none
        liftMm (freePage (frame n'))
        liftMm (freePage (frame n))
        return -eagain
      else
        shareFiles nr cur
        return (← get).lastPid.toInt) Q E
      ((k.setMm ((k.world held).newSpace nr n n').mm).setTask nr (some child)) := by
  have hne : me ≠ nr := by
    rintro rfl
    rw [hcur] at hnr
    cases hnr
  have hnone : (k.world held).pgdir nr = none := pgdir_of_none hnr
  have hnn : n ≠ n' := (World.free_of_alloc hzero').1.symm
  have hI₂ := hI.newSpace hnone hn hzero hn' hzero'
  have hd : ((k.world held).newSpace nr n n').pgdir me = some cur.pgdir :=
    (update_of_ne hne _ _).trans (pgdir_of_task hcur hdir)
  have hd' : ((k.world held).newSpace nr n n').pgdir nr = some (frame n') :=
    update_self ..
  rw [wp_bind, wp_liftMm]
  refine hI₂.wp_copyPageTables hd hd' (hI.table_newSpace hnone hn hzero hn' hzero') ?_ ?_
  · intro l s h htable hall
    have htable' : (k.world held).view.entry (.table me l) ≠ none := by
      rwa [hI.entry_newSpace hnone hn hzero hn' hzero', update_of_ne (by simp)] at htable
    have hlt : ((k.world held).tablesBelow me l).card < k.tables me := card_tablesBelow_lt htable'
    obtain ⟨hfree, hleft⟩ := freeFrames_giveUp hI hnone hn hzero hn' hzero' h hall
    replace hfree : freeFrames k.fs.mm.memMap = ((k.world held).tablesBelow me l).card + 2 := hfree
    obtain ⟨hone, hone'⟩ := counts_newSpace hn hn' h
    rw [if_pos (by decide), wp_bind, wp_modify, wp_bind, wp_liftMm]
    refine wp_freePage hn' (s := s.exhaust) (ne_of_eq_of_ne hone' (by decide)) ?_
    rw [wp_bind, wp_liftMm]
    refine wp_freePage hn (ne_of_eq_of_ne ((update_of_ne hnn _ _).trans hone) (by decide)) ?_
    simp only [wp_pure, setTask_setMm, setMm_setMm, setTask_setTask]
    rw [setTask_of_none hnr]
    by_cases hnothing : ((k.world held).tablesBelow me l).card = 0
    · have huntouched := h.untouched fun l' hl' => by
        by_contra hsome
        rw [hI.entry_newSpace hnone hn hzero hn' hzero', update_of_ne (by simp)] at hsome
        exact eq_empty_iff_forall_notMem.mp (card_eq_zero.mp hnothing) l'
          (World.mem_tablesBelow.mpr ⟨hl', hsome⟩)
      have hcontents := contents_giveUp hI hnone hn hzero hn' hzero' h
      refine hback _ ⟨?_, rfl, rfl, rfl, hcontents⟩ (by omega) (by omega)
      exact (giveUp_counts hnn hone hone').trans (huntouched ▸ update_two_frames hzero hzero')
    · refine hleak _ ?_ (by omega) (by omega)
      exact (congrArg freeFrames (giveUp_counts hnn hone hone')).trans hleft
  · intro s h
    rw [if_neg (not_not_intro rfl)]
    exact hok s h

theorem wp_copyProcess (hI : (k.world held).Inv main) (hcur : k.task me = some cur)
    (hdir : cur.pgdir ≠ 0) (hnr : k.task nr = none)
    (hback : ∀ k', Unchanged k k' → freeFrames k.fs.mm.memMap < 3 →
      freeFrames k.fs.mm.memMap < k.tables me + 2 → Q (-eagain) k')
    (hleak : ∀ k', freeFrames k'.fs.mm.memMap = 2 → 3 ≤ freeFrames k.fs.mm.memMap →
      freeFrames k.fs.mm.memMap < k.tables me + 2 → Q (-eagain) k')
    (hok : ∀ n n' s, n < pagingPages → n' < pagingPages → k.fs.mm.memMap n = 0 →
      ((k.world held).alloc n).mm.memMap n' = 0 →
      CopyInv main ((k.world held).newSpace nr n n') me nr userPgdEntries s →
      wp (do shareFiles nr cur; return (← get).lastPid.toInt) Q E
        ((k.setMm s).setTask nr (some (childTask r k cur (frame n) (frame n'))))) :
    wp (copyProcess r me nr) Q E k := by
  rw [copyProcess, wp_bind, wp_liftMm]
  refine wp_getFreePage (fun hall => ?_) fun n hn hzero => ?_
  · rw [if_pos rfl, wp_pure]
    have hfree := freeFrames_eq_zero_iff.mpr hall
    exact hback _ ⟨rfl, rfl, rfl, rfl, rfl⟩ (by omega) (by omega)
  have hfirst : freeFrames ((k.world held).alloc n).mm.memMap + 1 =
      freeFrames k.fs.mm.memMap := freeFrames_take hn hzero (by decide)
  rw [if_neg (frame_ne_zero hn), wp_bind]
  refine (wp_getTask (k := k.setMm ((k.world held).alloc n).mm) hcur).mpr ?_
  rw [wp_bind, wp_get, wp_bind, wp_set, if_neg hdir, wp_bind, wp_liftMm]
  refine wp_getFreePage (fun hall => ?_) fun n' hn' hzero' => ?_
  · rw [if_pos rfl, wp_bind, wp_modify, wp_bind, wp_liftMm]
    have hone : ((k.world held).alloc n).mm.memMap n = 1 := update_self ..
    refine wp_freePage hn (s := ((k.world held).alloc n).mm.exhaust)
      (ne_of_eq_of_ne hone (by decide)) ?_
    have hgone : freeFrames ((k.world held).alloc n).mm.memMap = 0 :=
      freeFrames_eq_zero_iff.mpr hall
    simp only [wp_pure, setTask_setMm, setMm_setMm, setTask_setTask]
    rw [setTask_of_none hnr]
    refine hback _ (.of_one_frame hI hn hzero rfl ?_) (by omega) (by omega)
    refine Eq.trans ?_ (update_take_give hzero 1)
    exact congrArg (update _ n) (congrArg (· - 1) hone)
  rw [if_neg (frame_ne_zero hn'), wp_bind, wp_liftMm, fillPage, wp_modify, wp_bind, wp_updateTask]
  refine Eq.mp (congrArg (wp _ Q E) ?_) (wp_copyTables hI hcur hdir hnr hn hzero hn' hzero'
    (childTask r k cur (frame n) (frame n')) hback hleak fun s h =>
      hok n n' s hn hn' hzero hzero' h)
  simp [setTask, setMm, setFs, childTask]
  rfl

/-- A procedure of the memory manager that returns or panics. -/
theorem wp_liftMm_stops {α : Type} {c : Mm.M α} {Q : α → Kernel → Prop}
    (hE : ∀ m ∈ Mm.panics, ∀ k', E (.panic m) k')
    (hc : Mm.Stops (fun e => ∃ m ∈ Mm.panics, e = .panic m) c) (hQ : ∀ a mm, Q a (k.setMm mm)) :
    wp (liftMm c) Q E k := by
  rw [wp_liftMm]
  refine (hc _ trivial).mono (fun a mm _ => hQ a mm) fun e mm he => ?_
  obtain ⟨m, hm, rfl⟩ := he
  exact hE m hm _

/-- What `copy_process` leaves, whatever happens in memory. -/
theorem wp_copyProcess_any (hcur : k.task me = some cur) (hnr : k.task nr = none)
    (hfail : ∀ mm, Q (-eagain) (k.setMm mm)) (hok : ∀ mm page pgdir, Q k.lastPid.toInt
      (((k.setMm mm).setTask nr (some (childTask r k cur page pgdir))).shared nr cur))
    (hE : ∀ m, m ∈ Mm.panics ∨ m = "fork from kernel task" → ∀ k', E (.panic m) k') :
    wp (copyProcess r me nr) Q E k := by
  have hE' (m : String) (hm : m ∈ Mm.panics) (k' : Kernel) : E (.panic m) k' := hE m (.inl hm) k'
  have hS (m : String) (hm : m ∈ Mm.panics) :
      ∃ m' ∈ Mm.panics, Mm.Halt.panic m = .panic m' := ⟨m, hm, rfl⟩
  rw [copyProcess, wp_bind]
  refine wp_liftMm_stops hE' stops_getFreePage fun p mm => ?_
  refine wp_ite.mpr ⟨fun _ => wp_pure.mpr (hfail mm), fun _ => ?_⟩
  rw [wp_bind]
  refine (wp_getTask (k := k.setMm mm) hcur).mpr ?_
  rw [wp_bind, wp_get, wp_bind, wp_set]
  refine wp_ite.mpr ⟨fun _ => wp_throw.mpr (hE _ (.inr rfl) _), fun _ => ?_⟩
  rw [wp_bind]
  refine wp_liftMm_stops hE' stops_getFreePage fun d mm => ?_
  simp only [setTask_setMm, setMm_setMm]
  refine wp_ite.mpr ⟨fun _ => ?_, fun _ => ?_⟩
  · rw [wp_bind, wp_modify, setTask_setTask, setTask_of_none hnr, wp_bind]
    exact wp_liftMm_stops hE' (stops_freePage hS) fun _ mm => wp_pure.mpr (hfail mm)
  · rw [wp_bind]
    refine wp_liftMm_stops hE' stops_modify fun _ mm => ?_
    rw [wp_bind, wp_updateTask, setTask_setMm, setMm_setMm, setTask_setTask, show ((k.setMm
      mm).setTask nr _).task nr = some _ from update_self .., map_some, wp_bind]
    refine wp_liftMm_stops hE' (stops_copyPageTables hS) fun ret mm => ?_
    simp only [setTask_setMm, setMm_setMm]
    refine wp_ite.mpr ⟨fun _ => ?_, fun _ => ?_⟩
    · rw [wp_bind, wp_modify, setTask_setTask, setTask_of_none hnr, wp_bind]
      refine wp_liftMm_stops hE' (stops_freePage hS) fun _ mm => wp_bind.mpr ?_
      exact wp_liftMm_stops hE' (stops_freePage hS) fun _ mm => wp_pure.mpr (hfail mm)
    · rw [wp_bind]
      refine wp_shareFiles ?_
      rw [wp_bind, wp_get, wp_pure]
      exact hok mm p d

theorem task_of_findEmptyProcess (h : Mm.findEmptyProcess k.taken = some nr) :
    k.task nr = none := by
  simpa [taken] using List.find?_some h

/-- What `sys_fork` leaves, whatever happens in memory. -/
theorem wp_sysFork_any (hcur : k.task me = some cur)
    (hfail : ∀ pid mm, k.FreshPid pid → Q (-eagain) ({ k with lastPid := pid }.setMm mm))
    (hok : ∀ nr pid mm page pgdir, k.task nr = none → k.FreshPid pid → Q pid.toInt
      ((({ k with lastPid := pid }.setMm mm).setTask nr
        (some (childTask r { k with lastPid := pid } cur page pgdir))).shared nr cur))
    (hE : ∀ m, m ∈ Mm.panics ∨ m = "fork from kernel task" → ∀ k', E (.panic m) k') :
    wp (sysFork r me) Q E k := by
  rw [sysFork, wp_bind]
  refine wp_findEmptyProcess fun pid hpid => ?_
  cases hfind : Mm.findEmptyProcess k.taken with
  | none => exact wp_pure.mpr (hfail pid k.fs.mm hpid)
  | some nr =>
    have hnr := task_of_findEmptyProcess hfind
    exact wp_copyProcess_any (k := { k with lastPid := pid }) hcur hnr (fun mm => hfail pid mm hpid)
      (fun mm page pgdir => hok nr pid mm page pgdir hnr hpid) hE

/-- The task `kernel_thread` makes. -/
def threadTask (fn pid : Word) (k : Kernel) (cur : Task) (page : Word) : Task :=
  { cur with
    page := page
    state := .uninterruptible
    pid := pid
    father := cur.pid
    counter := cur.priority
    signal := 0
    alarm := 0
    leader := 0
    utime := 0
    stime := 0
    cutime := 0
    cstime := 0
    startTime := k.jiffies
    pgdir := 0
    ra := fn
    sp := page + 4096 }

/-- What `kernel_thread` leaves. -/
theorem wp_kernelThread {fn : Word} (hcur : k.task me = some cur)
    (hfail : ∀ pid mm, k.FreshPid pid → Q (-eagain) ({ k with lastPid := pid }.setMm mm))
    (hok : ∀ nr pid mm page, k.task nr = none → k.FreshPid pid → Q pid.toInt
      ((({ k with lastPid := pid }.setMm mm).setTask nr
        (some (threadTask fn pid k cur page))).shared nr cur)) : wp (kernelThread fn me) Q E k := by
  rw [kernelThread, wp_bind]
  refine wp_findEmptyProcess fun pid hpid => ?_
  cases hfind : Mm.findEmptyProcess k.taken with
  | none => exact wp_pure.mpr (hfail pid k.fs.mm hpid)
  | some nr =>
    rw [wp_bind, wp_liftMm]
    refine (Mm.stops_getFreePage (S := fun _ => False) _ trivial).mono (fun p mm _ => ?_)
      fun _ _ h => h.elim
    refine wp_ite.mpr ⟨fun _ => wp_pure.mpr (hfail pid mm hpid), fun _ => ?_⟩
    rw [wp_bind]
    refine (wp_getTask (k := { k with lastPid := pid }.setMm mm) hcur).mpr ?_
    rw [wp_bind, wp_modify, wp_bind]
    refine wp_shareFiles ?_
    rw [wp_bind, wp_get, wp_pure]
    exact hok nr pid mm p (task_of_findEmptyProcess hfind) hpid

/-- Memory runs out after `copy_page_tables` has copied a table. -/
def Kernel.RunsOut (k : Kernel) (me : Slot) : Prop :=
  Mm.findEmptyProcess k.taken ≠ none ∧ 3 ≤ freeFrames k.fs.mm.memMap ∧
    freeFrames k.fs.mm.memMap < k.tables me + 2

instance : Decidable (k.RunsOut me) := by
  unfold Kernel.RunsOut
  infer_instance

/-- `sys_fork` returns; what it does when it fails depends on the frames left. -/
theorem wp_sysFork (hI : (k.world held).Inv main) (hcur : k.task me = some cur)
    (hdir : cur.pgdir ≠ 0) : wp (sysFork r me) (fun ret k' => if k.RunsOut me
      then ret < 0 ∧ k'.fs.mm.memMap ≠ k.fs.mm.memMap else ret < 0 → Unchanged k k')
      (fun _ _ => False) k := by
  have hneg : -eagain < 0 := by decide
  rw [sysFork, wp_bind]
  refine wp_findEmptyProcess fun pid hpid => ?_
  cases hfind : Mm.findEmptyProcess k.taken with
  | none =>
    rw [wp_pure, if_neg fun h => h.1 hfind]
    exact fun _ => ⟨rfl, rfl, rfl, rfl, rfl⟩
  | some nr =>
    have hnr := task_of_findEmptyProcess hfind
    have hsome : Mm.findEmptyProcess k.taken ≠ none := by simp [hfind]
    refine wp_copyProcess (k := { k with lastPid := pid }) hI hcur hdir hnr ?_ ?_ ?_
    · intro k' h hfew hless
      rw [if_neg fun hout => absurd hfew (not_lt.mpr hout.2.1)]
      exact fun _ => ⟨h.memMap, h.task, h.file, h.inode, h.contents⟩
    · intro k' htwo hmany hless
      rw [if_pos ⟨hsome, hmany, hless⟩]
      refine ⟨hneg, fun hsame => ?_⟩
      rw [hsame] at htwo
      exact absurd hmany (by rw [htwo]; decide)
    · intro n n' s hn hn' hzero hzero' h
      rw [wp_bind]
      refine wp_shareFiles ?_
      rw [wp_bind, wp_get, wp_pure]
      have hnone : (k.world held).pgdir nr = none := pgdir_of_none hnr
      have hle : k.tables me + 2 ≤ freeFrames k.fs.mm.memMap :=
        tables_le_of_copied (w := k.world held) hI hnone hn hzero hn' hzero' h
      rw [if_neg fun hout => absurd hout.2.2 (by omega)]
      exact fun hlt => absurd hpid.nonneg (not_le.mpr hlt)

/-- A failed `sys_fork` has changed nothing exactly if memory does not run out
after the first table: with no slot free nothing is taken, with fewer than three
frames no table is copied, and with one frame for each table and two more the
call succeeds. -/
theorem fork_failure_atomic_iff (hI : (k.world held).Inv main) (hcur : k.task me = some cur)
    (hdir : cur.pgdir ≠ 0) :
    wp (sysFork r me) (fun ret k' => ret < 0 → Unchanged k k') (fun _ _ => False) k ↔
      ¬ k.RunsOut me := by
  have hspec := wp_sysFork (r := r) hI hcur hdir
  constructor
  · intro hatomic hout
    simp only [hout, if_true] at hspec
    have hboth := wp_and hatomic hspec
    refine not_wp_false (hboth.imp fun ret k' h => ?_)
    exact h.2.2 (h.1 h.2.1).memMap
  · intro hout
    simpa only [hout, if_false] using hspec

end

/-! ### A parent with two tables -/

/-- A kernel with one task, and no file open. -/
def Kernel.single (mm : Mm.State) (pgdir : Word) : Kernel where
  fs :=
    { mm := mm
      data := fun _ _ _ => 0
      users := fun _ _ => 0
      inode := fun _ => MInode.cleared
      lastInode := 0
      super := fun _ => ⟨0, 0, 0, 0, 0, 0, fun _ => none, fun _ => none, 0, none, none⟩
      now := 0
      stale := fun _ _ _ => 0 }
  task i := if i = 0 then some
    { page := 0, ra := 0, sp := 0, pgdir := pgdir, state := .running, counter := 15
      priority := 15, signal := 0, sigaction := fun _ => ⟨0, 0, 0, 0⟩, blocked := 0, exitCode := 0
      startCode := 0, endCode := 0, endData := 0, brk := 0, startStack := 0
      pid := 1, father := 0, pgrp := 0, session := 0, leader := 0, uid := 0, euid := 0, gid := 0
      egid := 0, sgid := 0, alarm := 0, utime := 0, stime := 0, cutime := 0, cstime := 0
      startTime := 0, tty := -1, umask := 0, pwd := none, root := none, executable := none
      closeOnExec := 0, filp := fun _ => none, tf := fun _ => 0 } else none
  file _ := ⟨0, 0, 0, none, 0⟩
  lastPid := 1
  jiffies := 0
  tty _ := ⟨0, fun _ => 0, 0, 0⟩

theorem Kernel.pgdir_single {mm : Mm.State} {n : ℕ} (hn : n < pagingPages) :
    (single mm (frame n)).pgdir = fun i => if i = 0 then some (frame n) else none := by
  funext i
  by_cases hi : i = 0
  · rw [hi, if_pos rfl]
    exact if_neg (frame_ne_zero hn)
  · simp [pgdir, single, hi]

/-- Task 0 has a second table. -/
theorem exists_second {w : World} (hw : OneTable w) : ∃ w' : World,
    w'.Inv mainFrom4M ∧ w'.pgdir = w.pgdir ∧ w'.view.entry (.table 0 0) ≠ none ∧
      w'.view.entry (.table 0 1) ≠ none ∧ ∀ n, 1027 ≤ n → n < pagingPages → w'.mm.memMap n = 0 := by
  have htable : w.view.entry (.table 0 0) ≠ none := by simp [hw.table]
  by_cases hempty : w.view.entry (.table 0 1) = none
  · obtain ⟨w', h, hdir⟩ := hw.inv.exists_table hw.upper (n := 1026) (by decide)
      (hw.free _ le_rfl (by decide)) hw.dir hempty
    refine ⟨w', h.inv, hdir, ?_, ?_, fun n hn hlt => ?_⟩
    · rw [h.entry, update_of_ne (by decide)]
      exact htable
    · rw [h.entry, update_self]
      exact some_ne_none _
    · rw [h.memMap, update_of_ne (by omega)]
      exact hw.free n (by omega) hlt
  · exact ⟨w, hw.inv, rfl, htable, hempty, fun n hn hlt => hw.free n (by omega) hlt⟩

theorem exists_twoTables (hm : m ≤ 3) : ∃ w : World, w.Inv mainFrom4M ∧
    w = (single w.mm (frame 1024)).world w.held ∧
    2 ≤ (single w.mm (frame 1024)).tables 0 ∧ freeFrames w.mm.memMap = m := by
  obtain ⟨w, hw⟩ := exists_oneTable
  obtain ⟨w₁, hI₁, hdir₁, hzero, hone, hfree⟩ := exists_second hw
  have hmany : 3 ≤ freeFrames w₁.mm.memMap := by
    have hsub : ({1027, 1028, 1029} : Finset ℕ) ⊆
        (range pagingPages).filter fun n => w₁.mm.memMap n = 0 := by
      intro n hn
      have hcase : n = 1027 ∨ n = 1028 ∨ n = 1029 := by simpa using hn
      have hlt : n < pagingPages := by
        unfold pagingPages
        omega
      exact mem_filter.mpr ⟨mem_range.mpr hlt, hfree n (by omega) hlt⟩
    exact card_le_card hsub
  obtain ⟨w₂, hI₂, hdir₂, hentry, hm₂⟩ := hI₁.exists_few (m := m) (freeFrames w₁.mm.memMap - m)
    (by omega)
  have hpgdir : w₂.pgdir = (single w₂.mm (frame 1024)).pgdir := by
    rw [pgdir_single (by decide), hdir₂, hdir₁]
    funext i
    by_cases hi : i = 0
    · rw [hi, if_pos rfl, hw.dir]
    · rw [if_neg hi, hw.others i hi]
  have hworld : w₂ = (single w₂.mm (frame 1024)).world w₂.held := by
    rw [world, ← hpgdir]
    rfl
  refine ⟨w₂, hI₂, hworld, ?_, hm₂⟩
  have htables : (single w₂.mm (frame 1024)).tables 0 = (w₂.tablesBelow 0 userPgdEntries).card := by
    rw [hworld]
    rfl
  rw [htables]
  refine Nat.le_trans ?_ (card_le_card (s := {0, 1}) fun k hk => ?_)
  · exact (card_pair (by decide)).ge
  · refine World.mem_tablesBelow.mpr ⟨k.isLt, ?_⟩
    rw [hentry]
    rcases mem_insert.mp hk with rfl | hk
    · exact hzero
    · rw [mem_singleton.mp hk]
      exact hone

/-- With two tables to copy and three frames left, `sys_fork` fails and gives
two frames back. -/
theorem fork_failure_leaks : ∃ (k : Kernel) (held : Multiset Word) (cur : Task),
    (k.world held).Inv mainFrom4M ∧ k.task 0 = some cur ∧ cur.pgdir ≠ 0 ∧
    wp (sysFork 0 0) (fun ret k' => ret < 0 ∧ k'.fs.mm.memMap ≠ k.fs.mm.memMap)
      (fun _ _ => False) k := by
  obtain ⟨w, hI, hworld, htables, hfree⟩ := exists_twoTables (le_refl 3)
  set k := single w.mm (frame 1024)
  have hI' : (k.world w.held).Inv mainFrom4M := hworld ▸ hI
  have hdir : frame 1024 ≠ 0 := frame_ne_zero (by decide)
  have hslot : Mm.findEmptyProcess k.taken ≠ none := by
    have htaken : k.taken = fun i => decide (i = 0) := by
      funext i
      by_cases hi : i = 0 <;> simp [taken, k, single, hi]
    rw [htaken]
    decide
  have hthree : freeFrames k.fs.mm.memMap = 3 := hfree
  have hout : k.RunsOut 0 := ⟨hslot, hthree.ge, by omega⟩
  have hcur : k.task 0 = some _ := rfl
  have hspec := wp_sysFork (r := 0) hI' hcur hdir
  simp only [hout, if_true] at hspec
  exact ⟨k, w.held, _, hI', rfl, hdir, hspec⟩

/-- With two frames left nothing is lost. -/
theorem fork_failure_two_frames : ∃ (k : Kernel) (held : Multiset Word) (cur : Task),
    (k.world held).Inv mainFrom4M ∧ k.task 0 = some cur ∧ cur.pgdir ≠ 0 ∧ ¬ k.RunsOut 0 ∧
    wp (sysFork 0 0) (fun ret k' => ret < 0 → Unchanged k k') (fun _ _ => False) k := by
  obtain ⟨w, hI, hworld, htables, hfree⟩ := exists_twoTables (m := 2) (by decide)
  set k := single w.mm (frame 1024)
  have hI' : (k.world w.held).Inv mainFrom4M := hworld ▸ hI
  have hdir : frame 1024 ≠ 0 := frame_ne_zero (by decide)
  have htwo : freeFrames k.fs.mm.memMap = 2 := hfree
  have hout : ¬ k.RunsOut 0 := fun h => absurd h.2.1 (by omega)
  exact ⟨k, w.held, _, hI', rfl, hdir, hout, (fork_failure_atomic_iff hI' rfl hdir).mpr hout⟩

end LinuxRv.Proc
