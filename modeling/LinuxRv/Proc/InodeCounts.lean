import LinuxRv.Minix.MountRefs
import LinuxRv.Proc.OpenFiles
import LinuxRv.Proc.UserCalls

/-!
How often an inode is held.

`i_count` of an inode is the number of places that refer to it: open files,
the `pwd`, `root` and `executable` of the tasks, and the super blocks. In the
middle of a call a file can be skipped, because it is open already and has no
inode yet, and the call itself can hold one reference.
-/

namespace LinuxRv.Proc

open ByteMemory Prog RefCount Fs Minix Function Option Proc.Kernel Finset
open Mm (nrTasks)

/-! ### The invariant -/

/-- The inode of an open file. -/
def Kernel.fileRef (skip : Finset (Fin nrFile)) (k : Kernel) (f : Fin nrFile) : Option Ino :=
  if f ∈ skip ∨ (k.file f).count = 0 then none else (k.file f).inode

/-- `pwd`, `root` and `executable` of a task. -/
def Kernel.taskRef (k : Kernel) (d : Slot × Fin 3) : Option Ino :=
  (k.task d.1).bind fun t => t.inodes d.2

/-- References from files and tasks, and from the call. -/
def Kernel.refs (skip : Finset (Fin nrFile)) (held : Option Ino) (k : Kernel) (ip : Ino) : ℕ :=
  occurrences (k.fileRef skip) ip + occurrences k.taskRef ip + if held = some ip then 1 else 0

def pipes (s : Fs) (ip : Ino) : Bool := (s.inode ip).pipe

structure Linked (rootDev : Dev) (skip : Finset (Fin nrFile)) (held : Option Ino) (k : Kernel) :
    Prop where
  refs : Refs rootDev k.fs.mm (pipes k.fs) (k.refs skip held) k.fs
  task : ∀ d ip, k.taskRef d = some ip → pipes k.fs ip = false
  held : ∀ ip, held = some ip → pipes k.fs ip = false
  zombie : ∀ i t, k.task i = some t → t.state = .zombie → ∀ j, k.taskRef (i, j) = none

/-- Not the stop of `iput` at an inode nobody holds. -/
def NoFree (e : Minix.Halt) (_ : Kernel) : Prop := e ≠ .panic "iput: trying to free free inode"

section

variable {f : Fin nrFile} {fs : Fs} {i me : Slot} {j : Fin 3} {mm : Mm.State} {o : Option Ino}
  {skip' : Finset (Fin nrFile)} {t : Task} {x : File} {rd : RamDisk} {rootDev : Dev}
  {skip : Finset (Fin nrFile)} {held held' : Option Ino} {k k' : Kernel} {α : Type} {c : FsM α}
  {Q : α → Kernel → Prop} {fd : Fin nrOpen} {filename : Word} {f₀ f₁ : Fin nrFile} {ret : ℤ}
  {t' : Task}

theorem room_refs (skip : Finset (Fin nrFile)) (held : Option Ino) (k : Kernel) :
    Room 19 (k.refs skip held) := by
  intro ip
  have hfile := occurrences_le_card (g := k.fileRef skip) (a := ip) id fun _ _ _ _ h => h
  have htask := occurrences_le_card (g := k.taskRef) (a := ip) id fun _ _ _ _ h => h
  rw [Fintype.card_fin] at hfile
  rw [Fintype.card_prod, Fintype.card_fin, Fintype.card_fin] at htask
  unfold refs
  have htasks : nrTasks = 64 := rfl
  have hfiles : nrFile = 64 := rfl
  split <;> omega

theorem addRef_refs (ip : Ino) : addRef (k.refs skip none) ip = k.refs skip (some ip) := by
  funext ip'
  by_cases h : ip' = ip
  · rw [h, addRef_self]
    simp [refs]
  · rw [addRef_of_ne _ h]
    simp [refs, Ne.symm h]

/-- A place that was empty refers to `ip`. -/
theorem occurrences_attach {ι : Type} [Fintype ι] [DecidableEq ι] {g : ι → Option Ino} {r : ι}
    {ip : Ino} (hr : g r = none) :
    occurrences (update g r (some ip)) = addRef (occurrences g) ip := by
  funext ip'
  have hocc := occurrences_update (g := g) (f := update g r (some ip)) r
    (fun r' hr' => update_of_ne hr' ..) ip'
  rw [hr, update_self] at hocc
  simp only [reduceCtorEq, if_false, some.injEq, Nat.add_zero] at hocc
  rw [hocc]
  by_cases h : ip' = ip
  · rw [h, addRef_self, if_pos rfl]
  · rw [addRef_of_ne _ h, if_neg (Ne.symm h), Nat.add_zero]

/-- The file system has changed as the tables want it, and no inode has become
a pipe. -/
theorem linked_of_refs {pipe : Ino → Bool} (h' : Refs rootDev mm pipe (k.refs skip' held') fs)
    (hpipe : ∀ ip, pipe ip = true → pipes k.fs ip = true)
    (htask : ∀ d ip, k.taskRef d = some ip → pipes k.fs ip = false)
    (hheld : ∀ ip, held' = some ip → pipes k.fs ip = false)
    (hzombie : ∀ i t, k.task i = some t → t.state = .zombie → ∀ j, k.taskRef (i, j) = none) :
    Linked rootDev skip' held' (k.setFs fs) := by
  have hmm : fs.mm = mm := h'.holds.mm
  have hpipes : pipes fs = pipe := funext h'.holds.pipe
  have hplain {ip : Ino} (hip : pipes k.fs ip = false) : pipes fs ip = false := by
    refine Bool.eq_false_iff.mpr fun hp => ?_
    rw [hpipes] at hp
    rw [hpipe ip hp] at hip
    cases hip
  refine ⟨?_, fun d ip hd => hplain (htask d ip hd), fun ip hip => hplain (hheld ip hip), hzombie⟩
  rw [← hmm, ← hpipes] at h'
  exact h'

theorem Linked.setFs {pipe : Ino → Bool} (h : Linked rootDev skip held k)
    (h' : Refs rootDev mm pipe (k.refs skip' held') fs)
    (hpipe : ∀ ip, pipe ip = true → pipes k.fs ip = true)
    (hheld : ∀ ip, held' = some ip → pipes k.fs ip = false) :
    Linked rootDev skip' held' (k.setFs fs) :=
  linked_of_refs h' hpipe h.task hheld h.zombie

/-- What the file system returns is held by the call. -/
theorem Linked.wp_liftFs (give : α → Option Ino) (h : Linked rootDev skip held k)
    (hc : wp c (fun a s => Refs rootDev k.fs.mm (pipes k.fs) (k.refs skip (give a)) s ∧
      ∀ ip, give a = some ip → pipes k.fs ip = false) NotFree k.fs)
    (hQ : ∀ a fs, Linked rootDev skip (give a) (k.setFs fs) → Q a (k.setFs fs)) :
    wp (liftFs c) Q NoFree k := by
  rw [Proc.wp_liftFs]
  exact hc.mono (fun a fs h' => hQ a fs (h.setFs h'.1 (fun _ hp => hp) h'.2)) fun e fs he => he

/-- An operation that leaves references alone. -/
theorem Linked.wp_steady (h : Linked rootDev skip held k)
    (hc : wp c (fun _ => Refs rootDev k.fs.mm (pipes k.fs) (k.refs skip held)) NotFree k.fs) :
    wp (liftFs c) (fun _ => Linked rootDev skip held) NoFree k :=
  h.wp_liftFs (fun _ => held) (hc.imp fun _ _ h' => ⟨h', h.held⟩) fun _ _ h' => h'

theorem Linked.wp_liftMm {c : Mm.M α} (h : Linked rootDev skip held k) (hc : Mm.Stops Quiet c)
    (hQ : ∀ a mm, Linked rootDev skip held (k.setMm mm) → Q a (k.setMm mm)) :
    wp (liftMm c) Q NoFree k := by
  rw [Proc.wp_liftMm]
  refine (hc _ trivial).mono (fun a mm _ => hQ a mm ?_) fun e mm he => he
  exact h.setFs (h.refs.setMm mm) (fun _ hp => hp) h.held

theorem keeps_quiet {c : Mm.M α} (hc : Mm.Stops Quiet c) :
    Keeps (Linked rootDev skip held) NoFree (liftMm c) :=
  fun _ h => h.wp_liftMm hc fun _ _ h' => h'

/-- `iput` of a reference that is not counted any more. -/
theorem wp_iput_ref {base base' : Ino → ℕ} {Q : PUnit → Kernel → Prop}
    (h : Refs rootDev k.fs.mm (pipes k.fs) base k.fs)
    (hbase : ∀ ip, base' ip + (if o = some ip then 1 else 0) = base ip)
    (hQ : ∀ fs pipe, (∀ ip, pipe ip = true → pipes k.fs ip = true) →
      Refs rootDev fs.mm pipe base' fs → Q ⟨⟩ (k.setFs fs)) :
    wp (liftFs (iput rd o)) Q NoFree k := by
  rw [Proc.wp_liftFs]
  cases o with
  | none =>
    have hsame : base' = base := funext fun ip => by simpa using hbase ip
    exact wp_pure.mpr (hQ k.fs _ (fun _ hp => hp) (hsame ▸ h))
  | some ip =>
    have hadd : addRef base' ip = base := by
      funext ip'
      rw [← hbase ip']
      by_cases hip : ip' = ip
      · rw [hip, addRef_self, if_pos rfl]
      · rw [addRef_of_ne _ hip, if_neg fun h => hip (some.inj h).symm, Nat.add_zero]
    rw [← hadd] at h
    exact h.wp_iput_any.mono (fun _ fs h' => h'.elim fun pipe h' => hQ fs pipe h'.1 h'.2)
      fun e fs he => he

/-- The call gives back what it holds. -/
theorem Linked.wp_iput_held (h : Linked rootDev skip held k) :
    wp (liftFs (iput rd held)) (fun _ => Linked rootDev skip none) NoFree k :=
  wp_iput_ref h.refs (fun ip => by simp [Kernel.refs]) fun fs pipe hpipe h' =>
    h.setFs h' hpipe fun _ hip => nomatch hip

/-! ### Changing the tables -/

/-- The tables change and refer to the same inodes. -/
theorem Linked.congr (h : Linked rootDev skip held k) (hfs : k'.fs = k.fs)
    (hfile : k'.fileRef skip' = k.fileRef skip) (htask : k'.taskRef = k.taskRef)
    (hzombie : ∀ i t, k'.task i = some t → t.state = .zombie → ∀ j, k'.taskRef (i, j) = none) :
    Linked rootDev skip' held k' := by
  have hrefs : k'.refs skip' held = k.refs skip held := by
    funext ip
    rw [Kernel.refs, hfile, htask, Kernel.refs]
  exact ⟨hfs ▸ hrefs ▸ h.refs, htask ▸ hfs ▸ h.task, hfs ▸ h.held, hzombie⟩

theorem taskRef_setTask (ht : k.task i = some t) (hinodes : t'.inodes = t.inodes) :
    (k.setTask i (some t')).taskRef = k.taskRef := by
  funext d
  by_cases hd : d.1 = i
  · simp [taskRef, setTask, hd, ht, hinodes]
  · simp [taskRef, setTask, hd]

/-- A task changes what is not an inode. -/
theorem Linked.setTask (h : Linked rootDev skip held k) (ht : k.task i = some t)
    (hinodes : t'.inodes = t.inodes) (hzombie : t'.state = .zombie → ∀ j, t.inodes j = none) :
    Linked rootDev skip held (k.setTask i (some t')) := by
  have hsame := taskRef_setTask ht hinodes
  refine h.congr rfl rfl hsame fun i' u hu hz j => ?_
  rw [hsame]
  by_cases hi : i' = i
  · subst hi
    obtain rfl : t' = u := by simpa [Kernel.setTask] using hu
    rw [Kernel.taskRef, ht]
    exact hzombie hz j
  · exact h.zombie i' u (by simpa [Kernel.setTask, hi] using hu) hz j

/-- `Linked`, with something known about the inodes of the tasks. -/
def LinkedWith (P : (Slot × Fin 3 → Option Ino) → Prop) (rootDev : Dev)
    (skip : Finset (Fin nrFile)) (held : Option Ino) (k : Kernel) : Prop :=
  Linked rootDev skip held k ∧ P k.taskRef

variable {P : (Slot × Fin 3 → Option Ino) → Prop}

theorem wp_getTask_any {Q : Task → Kernel → Prop}
    (hQ : ∀ t, k.task i = some t → Q t k) : wp (getTask i) Q NoFree k :=
  wp_getTask_of (by simp [NoFree, nullPointer]) hQ

theorem keeps_task_get : Keeps (LinkedWith P rootDev skip held) NoFree (getTask i) :=
  fun _ h => wp_getTask_any fun _ _ => h

theorem keeps_task_update {f : Task → Task}
    (hf : ∀ t, (f t).inodes = t.inodes ∧ (f t).state = t.state) :
    Keeps (LinkedWith P rootDev skip held) NoFree (updateTask i f) := by
  rintro k ⟨h, hP⟩
  rw [wp_updateTask]
  cases ht : k.task i with
  | none =>
    have hsame : k.setTask i none = k := by
      rw [setTask, ← ht, update_eq_self]
    rw [map_none, hsame]
    exact ⟨h, hP⟩
  | some t =>
    refine ⟨h.setTask ht (hf t).1 fun hz j => ?_, ?_⟩
    · have hnone := h.zombie i t ht ((hf t).2.symm.trans hz) j
      rwa [taskRef, ht] at hnone
    · rw [map_some, taskRef_setTask ht (hf t).1]
      exact hP

theorem Keeps.linked {c : ProcM α} (hc : Keeps (LinkedWith (fun _ => True) rootDev skip held) NoFree c) :
    Keeps (Linked rootDev skip held) NoFree c :=
  fun k h => (hc k ⟨h, trivial⟩).imp fun _ _ h' => h'.1

theorem keeps_task {f : Task → Task} (hf : ∀ t, (f t).inodes = t.inodes ∧ (f t).state = t.state) :
    Keeps (Linked rootDev skip held) NoFree (updateTask i f) :=
  Keeps.linked (keeps_task_update hf)

theorem Linked.mapTask {f : Task → Task} (h : Linked rootDev skip held k)
    (hf : ∀ t, (f t).inodes = t.inodes ∧ (f t).state = t.state) :
    Linked rootDev skip held (k.setTask i ((k.task i).map f)) :=
  wp_updateTask.mp (keeps_task hf k h)

/-- A file changes what is not its inode and stays open or closed. -/
theorem keeps_file {i : Fin nrFile} {f : File → File}
    (hf : ∀ x, (f x).count = x.count ∧ (f x).inode = x.inode) :
    Keeps (Linked rootDev skip held) NoFree (updateFile i f) := by
  intro k h
  rw [wp_updateFile]
  refine h.congr rfl (funext fun i' => ?_) rfl h.zombie
  by_cases hi : i' = i
  · subst hi
    simp [fileRef, setFile, (hf _).1, (hf _).2]
  · simp [fileRef, setFile, hi]

theorem Task.inodes_of_ne_pwd (hj : j ≠ 0) : { t with pwd := o }.inodes j = t.inodes j :=
  match j with
  | 0 => absurd rfl hj
  | 1 | 2 => rfl

theorem Task.inodes_of_ne_root (hj : j ≠ 1) : { t with root := o }.inodes j = t.inodes j :=
  match j with
  | 1 => absurd rfl hj
  | 0 | 2 => rfl

theorem Task.inodes_of_ne_executable (hj : j ≠ 2) :
    { t with executable := o }.inodes j = t.inodes j :=
  match j with
  | 2 => absurd rfl hj
  | 0 | 1 => rfl

/-- An inode of a task is put, and its place gets another. -/
theorem Linked.wp_put {f : Task → Task} (j : Fin 3) (held' : Option Ino)
    (h : Linked rootDev skip held k) (ht : k.task me = some t)
    (hother : ∀ j', j' ≠ j → (f t).inodes j' = t.inodes j') (hstate : (f t).state = t.state)
    (hzombie : t.state = .zombie → (f t).inodes j = none)
    (hheld : ∀ ip, (if held' = some ip then 1 else 0) + (if (f t).inodes j = some ip then 1 else 0) =
      if held = some ip then 1 else 0) : wp (liftFs (iput rd (t.inodes j)))
      (fun _ k' => k'.task me = some t ∧ Linked rootDev skip held' (k'.setTask me (some (f t))) ∧
        (k'.setTask me (some (f t))).taskRef =
          update k.taskRef (me, j) ((f t).inodes j)) NoFree k := by
  have hplaces : (k.setTask me (some (f t))).taskRef =
      update k.taskRef (me, j) ((f t).inodes j) := by
    funext d
    by_cases hd : d.1 = me
    · by_cases hj : d.2 = j
      · obtain rfl : d = (me, j) := Prod.ext hd hj
        rw [update_self]
        simp [Kernel.taskRef, Kernel.setTask]
      · have hne : d ≠ (me, j) := fun h => hj (congrArg Prod.snd h)
        rw [update_of_ne hne]
        simp [Kernel.taskRef, Kernel.setTask, hd, ht, hother d.2 hj]
    · have hne : d ≠ (me, j) := fun h => hd (congrArg Prod.fst h)
      rw [update_of_ne hne]
      simp [Kernel.taskRef, Kernel.setTask, hd]
  have hold : k.taskRef (me, j) = t.inodes j := by simp [Kernel.taskRef, ht]
  have hcount (ip : Ino) : (k.setTask me (some (f t))).refs skip held' ip +
      (if t.inodes j = some ip then 1 else 0) = k.refs skip held ip := by
    have hocc := occurrences_update (g := k.taskRef) (f := (k.setTask me (some (f t))).taskRef)
      (me, j) (fun d hd => by rw [hplaces, update_of_ne hd]) ip
    rw [hold, hplaces, update_self, ← hplaces] at hocc
    have hfile : (k.setTask me (some (f t))).fileRef skip = k.fileRef skip := rfl
    have hip := hheld ip
    rw [Kernel.refs, Kernel.refs, hfile]
    omega
  -- what is given up or moved was no pipe
  have hfrom (ip : Ino) (hip : held' = some ip ∨ (f t).inodes j = some ip) :
      pipes k.fs ip = false := by
    refine h.held ip ?_
    by_contra hne
    have hsum := hheld ip
    rw [if_neg hne, Nat.add_eq_zero_iff] at hsum
    rcases hip with hip | hip <;> simp [hip] at hsum
  refine wp_iput_ref h.refs hcount fun fs pipe hpipe h' => ⟨ht, ?_, hplaces⟩
  refine linked_of_refs (k := k.setTask me (some (f t))) h' hpipe (fun d ip hd => ?_)
    (fun ip hip => hfrom ip (.inl hip)) fun i u hu hz j' => ?_
  · rw [hplaces] at hd
    by_cases hplace : d = (me, j)
    · rw [hplace, update_self] at hd
      exact hfrom ip (.inr hd)
    · rw [update_of_ne hplace] at hd
      exact h.task d ip hd
  · by_cases hi : i = me
    · subst hi
      obtain rfl : f t = u := by simpa [Kernel.setTask] using hu
      have hz' : t.state = .zombie := hstate.symm.trans hz
      rw [hplaces]
      by_cases hj : j' = j
      · rw [hj, update_self, hzombie hz']
      · rw [update_of_ne fun h => hj (congrArg Prod.snd h)]
        exact h.zombie i t ht hz' j'
    · have hne : (i, j') ≠ (me, j) := fun h => hi (congrArg Prod.fst h)
      rw [hplaces, update_of_ne hne]
      exact h.zombie i u (by simpa [Kernel.setTask, hi] using hu) hz j'

/-! ### Files -/

theorem fileRef_of_open (hf : f ∉ skip) (hcount : (k.file f).count ≠ 0) :
    k.fileRef skip f = (k.file f).inode :=
  if_neg (not_or.mpr ⟨hf, hcount⟩)

theorem fileRef_of_closed (hcount : (k.file f).count = 0) : k.fileRef skip f = none :=
  if_pos (.inr hcount)

theorem Kernel.file_setFile (f : Fin nrFile) (x : File) : (k.setFile f x).file f = x :=
  update_self ..

theorem fileRef_setFile (f : Fin nrFile) (x : File) (f' : Fin nrFile) (hf : f' ≠ f) :
    (k.setFile f x).fileRef skip f' = k.fileRef skip f' := by
  simp [fileRef, setFile, hf]

/-- A file that is skipped changes. -/
theorem Linked.setSkipped (h : Linked rootDev skip held k) (hf : f ∈ skip)
    (x : File) : Linked rootDev skip held (k.setFile f x) := by
  refine h.congr rfl (funext fun f' => ?_) rfl h.zombie
  by_cases hf' : f' = f
  · simp [fileRef, hf', hf]
  · exact fileRef_setFile f x f' hf'

/-- A file that is not open can be skipped or not. -/
theorem Linked.skips (h : Linked rootDev skip held k)
    (hskip : ∀ f, ¬ (f ∈ skip ↔ f ∈ skip') → (k.file f).count = 0) :
    Linked rootDev skip' held k := by
  refine h.congr rfl (funext fun f => ?_) rfl h.zombie
  by_cases hzero : (k.file f).count = 0
  · rw [fileRef_of_closed hzero, fileRef_of_closed hzero]
  · have hsame : f ∈ skip ↔ f ∈ skip' := by
      by_contra hne
      exact hzero (hskip f hne)
    simp [fileRef, hsame]

/-- A file that was skipped is one reference more. -/
theorem refs_attach {ip : Ino} (hf : f ∈ skip) (hcount : x.count ≠ 0) (hinode : x.inode = some ip) :
    (k.setFile f x).refs (skip.erase f) held = addRef (k.refs skip held) ip := by
  have hself := file_setFile (k := k) f x
  have hnew : (k.setFile f x).fileRef (skip.erase f) f = some ip := by
    rw [fileRef_of_open (by simp) (by rwa [hself]), hself, hinode]
  have hold : k.fileRef skip f = none := if_pos (.inl hf)
  have htask : (k.setFile f x).taskRef = k.taskRef := rfl
  funext ip'
  have hocc := occurrences_update (g := k.fileRef skip) (f := (k.setFile f x).fileRef (skip.erase f))
    f (fun f' hf' => by simp [fileRef, setFile, hf']) ip'
  rw [hnew, hold] at hocc
  simp only [reduceCtorEq, if_false, some.injEq] at hocc
  rw [refs, htask]
  by_cases hip : ip' = ip
  · rw [hip, addRef_self, refs]
    rw [hip, if_pos rfl] at hocc
    omega
  · rw [addRef_of_ne _ hip, refs]
    rw [if_neg (Ne.symm hip)] at hocc
    omega

/-- The reference of the call goes to an open file. -/
theorem Linked.attach {ip : Ino} (h : Linked rootDev {f} (some ip) k) (hcount : x.count ≠ 0)
    (hinode : x.inode = some ip) : Linked rootDev ∅ none (k.setFile f x) := by
  have hrefs : (k.setFile f x).refs (erase {f} f) none = addRef (k.refs {f} none) ip :=
    refs_attach (mem_singleton_self f) hcount hinode
  have h' := h.refs
  rw [← addRef_refs, ← hrefs, erase_singleton] at h'
  exact linked_of_refs (k := k.setFile f x) h' (fun _ hp => hp) h.task
    (fun _ hip => nomatch hip) h.zombie

/-- A file stays open. -/
theorem Linked.setOpen (h : Linked rootDev skip held k)
    (hopen : (k.file f).count ≠ 0) (hcount : x.count ≠ 0) (hinode : x.inode = (k.file f).inode) :
    Linked rootDev skip held (k.setFile f x) := by
  refine h.congr rfl (funext fun f' => ?_) rfl h.zombie
  by_cases hf' : f' = f
  · subst hf'
    have hself := file_setFile (k := k) f' x
    by_cases hskip : f' ∈ skip
    · simp [fileRef, hskip]
    · rw [fileRef_of_open hskip (by rwa [hself]), fileRef_of_open hskip hopen, hself, hinode]
  · exact fileRef_setFile f x f' hf'

/-- The last descriptor of a file is closed. -/
theorem Linked.wp_closeFile (h : Linked rootDev ∅ held k)
    (hopen : (k.file f).count ≠ 0) (hclosed : x.count = 0) :
    wp (liftFs (iput rd (k.file f).inode)) (fun _ => Linked rootDev ∅ held) NoFree
      (k.setFile f x) := by
  have hself := Kernel.file_setFile (k := k) f x
  have hrefs (ip : Ino) : (k.setFile f x).refs ∅ held ip +
      (if (k.file f).inode = some ip then 1 else 0) = k.refs ∅ held ip := by
    have hocc := occurrences_update (g := k.fileRef ∅) (f := (k.setFile f x).fileRef ∅) f
      (fileRef_setFile f x) ip
    rw [fileRef_of_open (by simp) hopen, fileRef_of_closed (by rwa [hself])] at hocc
    simp only [reduceCtorEq, if_false] at hocc
    have htask : (k.setFile f x).taskRef = k.taskRef := rfl
    rw [Kernel.refs, Kernel.refs, htask]
    omega
  refine wp_iput_ref (k := k.setFile f x) h.refs hrefs fun fs pipe hpipe h' => ?_
  exact linked_of_refs (k := k.setFile f x) h' hpipe h.task h.held h.zombie

/-! ### `close` -/

theorem keeps_close_fd (fd : Fin nrOpen) :
    Keeps (Linked rootDev ∅ held) NoFree (closeFd rd me fd) := by
  intro k h
  refine (keeps_task (by exact fun _ => ⟨rfl, rfl⟩)).next h fun _ k h => ?_
  refine wp_bind.mpr (wp_getTask_any fun t _ => ?_)
  split
  · exact wp_pure.mpr h
  · next f _ =>
    refine (keeps_task (by exact fun _ => ⟨rfl, rfl⟩)).next h fun _ k h => ?_
    rw [wp_bind, wp_get]
    refine wp_ite.mpr ⟨fun _ => wp_throw.mpr (by simp [NoFree]), fun hopen => ?_⟩
    rw [wp_bind, setCount, wp_updateFile]
    refine wp_ite.mpr ⟨fun hmore => wp_pure.mpr (h.setOpen hopen hmore rfl), fun hlast => ?_⟩
    exact (h.wp_closeFile hopen (not_not.mp hlast)).next fun _ _ h => wp_pure.mpr h

theorem keeps_close (fd : Word) : Keeps (Linked rootDev ∅ held) NoFree (sysClose rd me fd) := by
  unfold sysClose
  split
  · exact keeps_close_fd _
  · exact .pure _

/-! ### `open` and `chdir` -/

/-- Task `me` has the inodes of `cur`. -/
def HasInodes (me : Slot) (cur : Task) (r : Slot × Fin 3 → Option Ino) : Prop :=
  ∀ j, r (me, j) = cur.inodes j

theorem Kernel.hasInodes (ht : k.task me = some t) : HasInodes me t k.taskRef :=
  fun j => by rw [taskRef, ht, bind_some]

theorem LinkedWith.noPipe {cur : Task} (h : LinkedWith (HasInodes me cur) rootDev skip held k) :
    cur.current.NoPipe (pipes k.fs) := by
  rintro ip (hip | hip)
  · exact h.1.task (me, 1) ip ((h.2 1).trans hip)
  · exact h.1.task (me, 0) ip ((h.2 0).trans hip)

theorem Linked.noPipe {cur : Task} (h : Linked rootDev skip held k)
    (hcur : k.task me = some cur) : cur.current.NoPipe (pipes k.fs) :=
  have hwith : LinkedWith (HasInodes me cur) rootDev skip held k := ⟨h, hasInodes hcur⟩
  hwith.noPipe

/-- An inode that was found is held by the call. -/
theorem refs_of_found {pipe : Ino → Bool} (h : FoundRef rootDev mm pipe (k.refs skip none) o fs) :
    Refs rootDev mm pipe (k.refs skip o) fs ∧ ∀ ip, o = some ip → pipe ip = false := by
  cases o with
  | none => exact ⟨h, fun _ hip => nomatch hip⟩
  | some ip =>
    refine ⟨addRef_refs ip ▸ h.1, fun ip' hip => ?_⟩
    rw [← some.inj hip]
    exact h.2

theorem keeps_tty {tty : Word} {f : Tty → Tty} :
    Keeps (LinkedWith P rootDev skip held) NoFree (updateTty tty f) :=
  .modify fun _ h => ⟨h.1.congr rfl rfl rfl h.1.zombie, h.2⟩

theorem keeps_open_chr (n : MInode) : Keeps (Linked rootDev skip held) NoFree (openChr me n) := by
  refine Keeps.linked (keeps_task_get.bind fun cur => .ite (.pure _) (.ite (.ite
    (.bind ?_ fun _ => keeps_tty.bind fun _ => .pure _) (.pure _)) (.pure _)))
  exact keeps_task_update fun _ => ⟨rfl, rfl⟩

theorem keeps_open_blk (n : MInode) :
    Keeps (Linked rootDev skip held) NoFree (openBlk rootDev n) := by
  refine .ite (fun k h => h.wp_steady ?_) (.pure _)
  exact (keeps_checkDiskChange _ ⟨h.refs, rfl⟩).imp fun _ _ h' => h'.1

/-- `sys_open` fails. -/
theorem keeps_undo_open (h : Linked rootDev {f} none k) :
    wp (do setFilp me fd none; setCount f 0; return ret) (fun _ => Linked rootDev ∅ none)
      NoFree k := by
  refine (keeps_task (by exact fun _ => ⟨rfl, rfl⟩)).next h fun _ k h => ?_
  rw [wp_bind, setCount, wp_updateFile, wp_pure]
  refine (h.setSkipped (mem_singleton_self f) _).skips fun f' hf' => ?_
  obtain rfl : f' = f := by
    by_contra hne
    simp [hne] at hf'
  exact congrArg File.count (file_setFile ..)

theorem keeps_open (filename flag mode : Word) :
    Keeps (Linked rootDev ∅ none) NoFree (sysOpen rd rootDev me filename flag mode) := by
  intro k h
  refine wp_bind.mpr (wp_getTask_any fun cur hcur => ?_)
  dsimp only
  split
  · exact wp_pure.mpr h
  next fd _ =>
  have h' : LinkedWith (HasInodes me cur) rootDev ∅ none k := ⟨h, hasInodes hcur⟩
  refine (keeps_task_update (by exact fun _ => ⟨rfl, rfl⟩)).next h' fun _ k h => ?_
  rw [wp_bind, wp_get]
  split
  · exact wp_pure.mpr h.1
  next f hf =>
  have hzero := count_of_freeFile hf
  -- from here on the file counts as open and has no inode yet
  have h' : LinkedWith (HasInodes me cur) rootDev {f} none k := by
    refine ⟨h.1.skips fun f' hf' => ?_, h.2⟩
    obtain rfl : f' = f := by
      by_contra hne
      simp [hne] at hf'
    exact hzero
  refine (keeps_task_update (by exact fun _ => ⟨rfl, rfl⟩)).next h' fun _ k h => ?_
  rw [wp_bind, wp_updateFile, wp_bind]
  have hopen := h.1.setSkipped (mem_singleton_self f)
    { k.file f with count := (k.file f).count + 1 }
  refine hopen.wp_liftFs Except.toOption ?_ fun r fs h => ?_
  · exact (hopen.refs.wp_openNamei h.noPipe (Room.mono (room_refs _ _ _) (by decide))).imp
      fun _ _ h => refs_of_found h
  cases r with
  | error e => exact keeps_undo_open h
  | ok ip =>
    have h : Linked rootDev {f} (some ip) _ := h
    refine wp_bind.mpr (wp_get.mpr ((keeps_open_chr _ _ h).next fun allowed k h => ?_))
    refine wp_ite.mpr ⟨fun _ => ?_, fun _ => ?_⟩
    · exact h.wp_iput_held.next fun _ _ h => keeps_undo_open h
    · refine (keeps_open_blk _).next h fun _ k h => ?_
      rw [wp_bind, wp_get, wp_bind, wp_updateFile, wp_pure]
      exact h.attach (by simp) rfl

/-- The directory a call changes to is held by the call. -/
theorem Refs.wp_directory {pipe : Ino → Bool} {base : Ino → ℕ} {s : Fs} {cur : Current}
    (h : Refs rootDev mm pipe base s) (hcur : cur.NoPipe pipe) (hroom : Room 18 base) :
    wp (directory rd cur filename)
      (fun r => FoundRef rootDev mm pipe base r.toOption) NotFree s := by
  refine (h.wp_namei hcur hroom).next fun o s h => ?_
  cases o with
  | none => exact wp_pure.mpr h
  | some ip =>
    refine (h.1.wp_steady fun _ _ => keeps_readInodeTable s).next fun n s h' => ?_
    refine wp_ite.mpr ⟨fun _ => ?_, fun _ => wp_pure.mpr ⟨h', h.2⟩⟩
    exact (h'.wp_iput h.2).next fun _ s h => wp_pure.mpr h

/-- `sys_chdir` and `sys_chroot`: inode `j` of the task becomes the directory. -/
theorem Linked.wp_change {cur : Task} (j : Fin 3) {f : Ino → Task → Task}
    (h : Linked rootDev ∅ none k) (hcur : k.task me = some cur) (halive : cur.state ≠ .zombie)
    (hother : ∀ ip j', j' ≠ j → (f ip cur).inodes j' = cur.inodes j')
    (hself : ∀ ip, (f ip cur).inodes j = some ip) (hstate : ∀ ip, (f ip cur).state = cur.state) :
    wp (do
      match ← liftFs (directory rd cur.current filename) with
      | .error e => return e
      | .ok ip =>
        liftFs (iput rd (cur.inodes j))
        updateTask me (f ip)
        return (0 : ℤ)) (fun _ => Linked rootDev ∅ none) NoFree k := by
  have hcurrent := h.noPipe hcur
  rw [wp_bind]
  refine h.wp_liftFs Except.toOption ?_ fun r fs h => ?_
  · exact (Refs.wp_directory h.refs hcurrent (Room.mono (room_refs _ _ _) (by decide))).imp
      fun _ _ h => refs_of_found h
  cases r with
  | error e => exact wp_pure.mpr h
  | ok ip =>
    have h : Linked rootDev ∅ (some ip) (k.setFs fs) := h
    refine (h.wp_put j none hcur (hother ip) (hstate ip)
      (fun hz => absurd hz halive) fun ip' => ?_).next fun _ k' h' => ?_
    · rw [hself]
      simp
    · rw [wp_bind, wp_updateTask, h'.1, map_some, wp_pure]
      exact h'.2.1

theorem Linked.wp_chdir {cur : Task} (filename : Word) (h : Linked rootDev ∅ none k)
    (hcur : k.task me = some cur) (halive : cur.state ≠ .zombie) :
    wp (sysChdir rd me filename) (fun _ => Linked rootDev ∅ none) NoFree k := by
  rw [sysChdir, wp_bind, wp_getTask hcur]
  exact h.wp_change 0 (f := fun ip t => { t with pwd := some ip }) hcur halive
    (fun ip j' hj => Task.inodes_of_ne_pwd hj) (fun _ => rfl) fun _ => rfl

theorem Linked.wp_chroot {cur : Task} (filename : Word) (h : Linked rootDev ∅ none k)
    (hcur : k.task me = some cur) (halive : cur.state ≠ .zombie) :
    wp (sysChroot rd me filename) (fun _ => Linked rootDev ∅ none) NoFree k := by
  rw [sysChroot, wp_bind, wp_getTask hcur]
  exact h.wp_change 1 (f := fun ip t => { t with root := some ip }) hcur halive
    (fun ip j' hj => Task.inodes_of_ne_root hj) (fun _ => rfl) fun _ => rfl

/-! ### `dup` and `fcntl` -/

/-- A file with a descriptor is open, and stays so with one more. -/
theorem FileInv.open_of_filp (hfiles : FileInv k) (ht : k.task me = some t)
    (hf : t.filp fd = some f) : (k.file f).count ≠ 0 ∧ (k.file f).count + 1 ≠ 0 := by
  have hpos : 0 < occurrences k.filp f :=
    occurrences_pos (r := (me, fd)) (by rw [filp, ht, bind_some, hf])
  rw [← hfiles.count] at hpos
  refine ⟨fun h0 => ?_, fun h0 => ?_⟩
  · rw [h0] at hpos
    exact absurd hpos (by decide)
  · have hsum := hfiles.toNat_count_add_one f
    rw [h0] at hsum
    exact absurd hsum (Nat.succ_ne_zero _).symm

theorem Linked.wp_dupfd (fd arg : Word) (h : Linked rootDev ∅ none k)
    (hfiles : FileInv k) : wp (dupfd me fd arg) (fun _ => Linked rootDev ∅ none) NoFree k := by
  refine wp_bind.mpr (wp_getTask_any fun cur hcur => ?_)
  split
  · exact wp_pure.mpr h
  next f hf =>
  refine wp_ite.mpr ⟨fun _ => wp_pure.mpr h, fun _ => ?_⟩
  split
  · exact wp_pure.mpr h
  next new _ =>
  have hopen : (k.file f).count ≠ 0 ∧ (k.file f).count + 1 ≠ 0 := by
    split at hf
    · exact hfiles.open_of_filp hcur hf
    · cases hf
  rw [wp_bind, clearCloseOnExec, wp_updateTask, wp_bind, setFilp, wp_updateTask, wp_bind,
    wp_updateFile, wp_pure]
  refine setOpen ?_ hopen.1 hopen.2 rfl
  exact (h.mapTask (by exact fun _ => ⟨rfl, rfl⟩)).mapTask fun _ => ⟨rfl, rfl⟩

/-- Close-on-exec flags and file status flags do not matter. -/
theorem Linked.wp_fcntl (fd cmd arg : Word) (h : Linked rootDev ∅ none k) (hfiles : FileInv k) :
    wp (sysFcntl me fd cmd arg) (fun _ => Linked rootDev ∅ none) NoFree k := by
  refine wp_bind.mpr (wp_getTask_any fun cur hcur => ?_)
  split
  · dsimp only
    split
    · exact wp_pure.mpr h
    refine wp_ite.mpr ⟨fun _ => h.wp_dupfd fd arg hfiles, fun _ => ?_⟩
    refine wp_ite.mpr ⟨fun _ => wp_pure.mpr h, fun _ => ?_⟩
    refine wp_ite.mpr ⟨fun _ => wp_ite.mpr ⟨fun _ => ?_, fun _ => ?_⟩, fun _ => ?_⟩
    · exact (keeps_task (by exact fun _ => ⟨rfl, rfl⟩)).next h fun _ _ h => wp_pure.mpr h
    · exact (keeps_task (by exact fun _ => ⟨rfl, rfl⟩)).next h fun _ _ h => wp_pure.mpr h
    refine wp_ite.mpr ⟨fun _ => wp_bind.mpr (wp_get.mpr (wp_pure.mpr h)), fun _ => ?_⟩
    refine wp_ite.mpr ⟨fun _ => ?_, fun _ => wp_pure.mpr h⟩
    exact (keeps_file (by exact fun _ => ⟨rfl, rfl⟩)).next h fun _ _ h => wp_pure.mpr h
  · exact wp_pure.mpr h

/-! ### `pipe` -/

/-- Two files that are not open become the ends of a new pipe. -/
theorem Linked.attachPipe {ip : Ino} {x₀ x₁ : File} (h : Linked rootDev {f₀, f₁} none k)
    (hne : f₀ ≠ f₁) (hzero : k.refs {f₀, f₁} none ip = 0)
    (h' : Refs rootDev fs.mm (update (pipes k.fs) ip true)
      (addRef (addRef (k.refs {f₀, f₁} none) ip) ip) fs) (hx₀ : x₀.count ≠ 0 ∧ x₀.inode = some ip)
    (hx₁ : x₁.count ≠ 0 ∧ x₁.inode = some ip) :
    Linked rootDev ∅ none (((k.setFs fs).setFile f₀ x₀).setFile f₁ x₁) := by
  have hfirst : ((k.setFs fs).setFile f₀ x₀).refs (erase {f₀, f₁} f₀) none =
      addRef (k.refs {f₀, f₁} none) ip :=
    refs_attach (k := k.setFs fs) (by simp) hx₀.1 hx₀.2
  have hsecond : (((k.setFs fs).setFile f₀ x₀).setFile f₁ x₁).refs (erase {f₁} f₁) none =
      addRef (((k.setFs fs).setFile f₀ x₀).refs {f₁} none) ip :=
    refs_attach (by simp) hx₁.1 hx₁.2
  rw [erase_insert (by simpa using hne)] at hfirst
  rw [erase_singleton, hfirst] at hsecond
  have hpipes : pipes fs = update (pipes k.fs) ip true := funext h'.holds.pipe
  refine ⟨?_, fun d ip' hd => ?_, (fun _ hip => nomatch hip), h.zombie⟩
  · change Refs rootDev fs.mm (pipes fs) _ fs
    rw [hsecond, hpipes]
    exact h'
  · -- a task that refers to the inode would have been counted
    have hne' : ip' ≠ ip := by
      rintro rfl
      have hpos : 0 < occurrences k.taskRef ip' := occurrences_pos hd
      rw [Kernel.refs] at hzero
      omega
    change pipes fs ip' = false
    rw [hpipes, update_of_ne hne']
    exact h.task d ip' hd

/-- `sys_pipe` fails. -/
theorem Linked.wp_undoPipe (h : Linked rootDev {f₀, f₁} none k) :
    wp (do setCount f₀ 0; setCount f₁ 0; return ret) (fun _ => Linked rootDev ∅ none) NoFree k := by
  rw [wp_bind, setCount, wp_updateFile, wp_bind, setCount, wp_updateFile, wp_pure]
  refine ((h.setSkipped (by simp) _).setSkipped (by simp) _).skips fun f hf => ?_
  rw [count_setFile, count_setFile]
  by_cases hf₁ : f = f₁
  · rw [if_pos hf₁]
  by_cases hf₀ : f = f₀
  · rw [if_neg hf₁, if_pos hf₀]
  · simp [hf₀, hf₁] at hf

theorem keeps_pipe (fildes : Word) :
    Keeps (Linked rootDev ∅ none) NoFree (sysPipe rd me fildes) := by
  intro k h
  rw [sysPipe, wp_bind, wp_get]
  split
  · next f₀ f₁ hf =>
    obtain ⟨hzero₀, hzero₁, hne⟩ := firstTwo_spec (List.nodup_finRange _) hf
    rw [decide_eq_true_eq] at hzero₀ hzero₁
    have hskip : Linked rootDev {f₀, f₁} none k := h.skips fun f hf => by
      have hor : f = f₀ ∨ f = f₁ := by
        by_contra hno
        rw [not_or] at hno
        simp [hno] at hf
      rcases hor with rfl | rfl <;> assumption
    rw [wp_bind, wp_updateFile, wp_bind, wp_updateFile]
    generalize hk₁ : setFile _ f₁ _ = k₁
    have h₁ : Linked rootDev {f₀, f₁} none k₁ := by
      rw [← hk₁]
      exact (hskip.setSkipped (by simp) _).setSkipped (by simp) _
    have hone {f : Fin nrFile} (hf : f = f₀ ∨ f = f₁) : (k₁.file f).count = 1 := by
      rw [← hk₁, count_setFile, count_setFile, count_setFile, if_neg hne.symm, hzero₀, hzero₁]
      rcases hf with rfl | rfl
      · rw [if_neg hne, if_pos rfl]
        rfl
      · rw [if_pos rfl]
        rfl
    refine wp_bind.mpr (wp_getTask_any fun cur hcur => ?_)
    split
    · next fd₀ fd₁ _ =>
      rw [wp_bind, setFilp, wp_updateTask, wp_bind, setFilp, wp_updateTask, wp_bind, Proc.wp_liftFs]
      generalize hk₂ : setTask _ me _ = k₂
      have h₂ : Linked rootDev {f₀, f₁} none k₂ := by
        rw [← hk₂]
        exact (h₁.mapTask (by exact fun _ => ⟨rfl, rfl⟩)).mapTask fun _ => ⟨rfl, rfl⟩
      have hfile : k₂.file = k₁.file := by rw [← hk₂]; rfl
      refine h₂.refs.wp_getPipeInode.mono (fun o fs ho => ?_) fun e fs he => he
      cases o with
      | none =>
        have h₃ : Linked rootDev {f₀, f₁} none (k₂.setFs fs) :=
          h₂.setFs ho (fun _ hp => hp) (by simp)
        rw [wp_bind, setFilp, wp_updateTask, wp_bind, setFilp, wp_updateTask]
        refine Linked.wp_undoPipe ?_
        exact (h₃.mapTask (by exact fun _ => ⟨rfl, rfl⟩)).mapTask fun _ => ⟨rfl, rfl⟩
      | some ip =>
        have hput (v addr : Word) : Keeps (Linked rootDev ∅ none) NoFree
            (liftMm (Mm.putFsLong v cur.pgdir addr)) := keeps_quiet (Mm.stops_putFs (quiet_exit 11))
        rw [wp_bind, wp_updateFile, wp_bind, wp_updateFile]
        refine (hput _ _).bind (fun _ => (hput _ _).bind fun _ => .pure _) _
          (h₂.attachPipe hne ho.1 ho.2 ⟨?_, rfl⟩ ⟨?_, rfl⟩)
        · change (k₂.file f₀).count ≠ 0
          rw [hfile, hone (.inl rfl)]
          decide
        · change (((k₂.setFs fs).setFile f₀ _).file f₁).count ≠ 0
          rw [count_setFile, if_neg hne.symm]
          change (k₂.file f₁).count ≠ 0
          rw [hfile, hone (.inr rfl)]
          decide
    · exact h₁.wp_undoPipe
  · exact wp_pure.mpr h

/-! ### `fork` -/

/-- The counts of the inodes go up with the places of the child. -/
theorem Refs.refer {pipe : Ino → Bool} {base : Ino → ℕ} {s : Fs}
    (h : Refs rootDev mm pipe base s) (hroom : Room 19 base) (n : Ino → ℕ) (hn : ∀ ip, n ip ≤ 3) :
    Refs rootDev mm pipe (fun ip => base ip + n ip)
      { s with inode := fun ip => refer (n ip) (s.inode ip) } := by
  refine ⟨⟨h.holds.mm, fun ip => ?_, h.holds.pipe, h.holds.noDevice, fun ip hp => ?_, rfl,
    h.holds.mounted⟩, h.super⟩
  · have hcount : (s.inode ip).count.toNat = base ip + superRefs s.super ip := h.holds.count ip
    have hsuper := superRefs_le s.super ip
    have hlt := hroom ip
    have hle := hn ip
    change ((s.inode ip).count + .ofNat 16 (n ip)).toNat = base ip + n ip + superRefs s.super ip
    rw [BitVec.toNat_add, BitVec.toNat_ofNat, hcount]
    omega
  · have hlive : base ip + superRefs s.super ip ≠ 0 := h.holds.live ip hp
    change base ip + n ip + superRefs s.super ip ≠ 0
    omega

theorem Linked.share {nr : Slot} {cur child : Task} (h : Linked rootDev ∅ none k)
    (hfiles : FileInv k) (hcur : k.task me = some cur) (halive : cur.state ≠ .zombie)
    (hnr : k.task nr = none) (hfilp : child.filp = cur.filp)
    (hcoe : child.closeOnExec = cur.closeOnExec) (hinodes : child.inodes = cur.inodes) :
    Linked rootDev ∅ none ((k.setTask nr (some child)).shared nr cur) := by
  have hfiles' := (hfiles.share hcur halive hnr hfilp hcoe).files
  generalize hk' : (k.setTask nr (some child)).shared nr cur = k' at hfiles' ⊢
  have hself : k'.task nr = some { child with state := .running } :=
    hk' ▸ Kernel.task_shared_self nr cur child
  have hother (i : Slot) (hi : i ≠ nr) : k'.task i = k.task i :=
    hk' ▸ Kernel.task_shared_of_ne cur child hi
  -- a file with a descriptor of the child was open before
  have hcount (f : Fin nrFile) : (k'.file f).count = 0 ↔ (k.file f).count = 0 := by
    have hzero (c : BitVec 16) : c = 0 ↔ c.toNat = 0 :=
      ⟨fun h => h ▸ rfl, fun h => BitVec.eq_of_toNat_eq h⟩
    have hnew : occurrences k'.filp f = occurrences k.filp f + occurrences child.filp f :=
      occurrences_newTask Task.filp hother hnr hself f
    rw [hzero, hzero, hfiles'.count, hfiles.count, hnew, hfilp, Nat.add_eq_zero_iff]
    refine ⟨And.left, fun h0 => ⟨h0, occurrences_eq_zero_iff.mpr fun j hj => ?_⟩⟩
    exact occurrences_eq_zero_iff.mp h0 (me, j) (by rw [Kernel.filp, hcur, bind_some, hj])
  have hfile : k'.fileRef ∅ = k.fileRef ∅ := by
    funext f
    have hinode : (k'.file f).inode = (k.file f).inode := by rw [← hk']; rfl
    simp only [Kernel.fileRef, hcount, hinode]
  have hrefs : k'.refs ∅ none = fun ip => k.refs ∅ none ip + occurrences cur.inodes ip := by
    funext ip
    have hnew : occurrences k'.taskRef ip = occurrences k.taskRef ip + occurrences child.inodes ip :=
      occurrences_newTask Task.inodes hother hnr hself ip
    rw [Kernel.refs, Kernel.refs, hfile, hnew, hinodes]
    omega
  have hpipes : pipes k'.fs = pipes k.fs := by rw [← hk']; rfl
  refine ⟨?_, fun d ip hd => ?_, by simp, fun i t ht hz j => ?_⟩
  · have hle (ip : Ino) : occurrences cur.inodes ip ≤ 3 := by
      have := occurrences_le_card (g := cur.inodes) (a := ip) id fun _ _ _ _ h => h
      rwa [Fintype.card_fin] at this
    have hup := Refs.refer h.refs (room_refs _ _ _) (occurrences cur.inodes) hle
    rw [hrefs, hpipes, ← hk']
    exact hup
  · rw [hpipes]
    by_cases hi : d.1 = nr
    · rw [Kernel.taskRef, hi, hself, bind_some] at hd
      exact h.task (me, d.2) ip (((Kernel.hasInodes hcur) d.2).trans ((congrFun hinodes d.2).symm.trans hd))
    · exact h.task d ip (by rwa [Kernel.taskRef, hother d.1 hi] at hd)
  · by_cases hi : i = nr
    · rw [hi, hself] at ht
      rw [← some.inj ht] at hz
      cases hz
    · rw [Kernel.taskRef, hother i hi]
      exact h.zombie i t ((hother i hi).symm.trans ht) hz j

theorem quiet_fork {m : String} (hm : m ∈ Mm.panics ∨ m = "fork from kernel task") (k : Kernel) :
    NoFree (.panic m) k := by
  rcases hm with hm | rfl
  · exact quiet_panic m hm
  · simp [NoFree]

theorem Linked.setPid (h : Linked rootDev ∅ none k) (pid : Word) (mm : Mm.State) :
    Linked rootDev ∅ none ({ k with lastPid := pid }.setMm mm) :=
  (h.setFs (h.refs.setMm mm) (fun _ hp => hp) h.held).congr rfl rfl rfl h.zombie

theorem Linked.wp_fork {cur : Task} {r : Word} (h : Linked rootDev ∅ none k)
    (hfiles : FileInv k) (hcur : k.task me = some cur) (halive : cur.state ≠ .zombie) :
    wp (sysFork r me) (fun _ => Linked rootDev ∅ none) NoFree k := by
  refine wp_sysFork_any hcur (fun pid mm _ => h.setPid pid mm) (fun nr pid mm page pgdir hnr _ => ?_)
    fun m hm k' => quiet_fork hm k'
  exact (h.setPid pid mm).share (hfiles.congr rfl fun _ => rfl) hcur halive hnr rfl rfl rfl

theorem Linked.wp_kernelThread {cur : Task} {fn : Word} (h : Linked rootDev ∅ none k)
    (hfiles : FileInv k) (hcur : k.task me = some cur) (halive : cur.state ≠ .zombie) :
    wp (kernelThread fn me) (fun _ => Linked rootDev ∅ none) NoFree k := by
  refine Proc.wp_kernelThread hcur (fun pid mm _ => h.setPid pid mm) fun nr pid mm page hnr _ => ?_
  exact (h.setPid pid mm).share (hfiles.congr rfl fun _ => rfl) hcur halive hnr rfl rfl rfl

/-! ### `exit` and `waitpid` -/

theorem keeps_signal {bit : Word} :
    Keeps (LinkedWith P rootDev skip held) NoFree (addSignal i bit) :=
  keeps_task_update fun _ => ⟨rfl, rfl⟩

theorem keeps_orphans : Keeps (LinkedWith P rootDev skip held) NoFree (orphan me) := by
  refine keeps_task_get.bind fun cur => .forN fun i => Keeps.get.bind fun k => ?_
  split
  · exact .pure _
  · refine .ite (.bind ?_ fun _ => .ite keeps_signal (.pure _)) (.pure _)
    exact keeps_task_update fun _ => ⟨rfl, rfl⟩

theorem keeps_session : Keeps (LinkedWith P rootDev skip held) NoFree (leaveSession me) := by
  have hkill : Keeps (LinkedWith P rootDev skip held) NoFree (killSession me) := by
    refine keeps_task_get.bind fun cur => .forM fun i => Keeps.get.bind fun k => ?_
    split
    · exact .pure _
    · exact .ite keeps_signal (.pure _)
  exact keeps_task_get.bind fun cur => .ite (.ite (keeps_tty.bind fun _ => hkill) hkill) (.pure _)

/-- A task without inodes goes. -/
theorem Linked.wp_release (h : Linked rootDev skip held k) (hnone : ∀ j, k.taskRef (i, j) = none) :
    wp (release i) (fun _ => Linked rootDev skip held) NoFree k := by
  refine wp_bind.mpr (wp_getTask_any fun t ht => wp_ite.mpr ⟨fun _ => ?_, fun _ => ?_⟩)
  · exact wp_throw.mpr (by simp [NoFree])
  · rw [wp_bind, wp_modify]
    refine keeps_quiet (Mm.stops_freePage quiet_panic) _ ?_
    have htask : (k.setTask i none).taskRef = k.taskRef := by
      funext ⟨i', j⟩
      by_cases hi : i' = i
      · rw [hi, hnone]
        simp [Kernel.taskRef, Kernel.setTask]
      · simp [Kernel.taskRef, Kernel.setTask, hi]
    refine h.congr rfl rfl htask fun i' u hu hz j => ?_
    rw [htask]
    by_cases hi : i' = i
    · rw [hi]
      exact hnone j
    · exact h.zombie i' u ((update_of_ne hi ..).symm.trans hu) hz j

/-- These inodes of the task that ends are put. -/
def Gone (me : Slot) (J : Finset (Fin 3)) (r : Slot × Fin 3 → Option Ino) : Prop :=
  ∀ j ∈ J, r (me, j) = none

/-- And another one. -/
theorem LinkedWith.wp_drop {f : Task → Task} {J : Finset (Fin 3)}
    (j : Fin 3) (h : LinkedWith (Gone me J) rootDev skip held k) (ht : k.task me = some t)
    (hother : ∀ j', j' ≠ j → (f t).inodes j' = t.inodes j') (hself : (f t).inodes j = none)
    (hstate : (f t).state = t.state) : wp (liftFs (iput rd (t.inodes j)))
      (fun _ => wp (updateTask me f)
        (fun _ => LinkedWith (Gone me (insert j J)) rootDev skip held) NoFree) NoFree k := by
  refine (h.1.wp_put j held ht hother hstate (fun _ => hself) fun ip => ?_).imp fun _ k' h' => ?_
  · simp [hself]
  · rw [wp_updateTask, h'.1, map_some]
    refine ⟨h'.2.1, fun j' hj' => ?_⟩
    rw [h'.2.2]
    by_cases hj : j' = j
    · rw [hj, update_self, hself]
    · rw [update_of_ne fun h => hj (congrArg Prod.snd h)]
      exact h.2 j' (mem_of_mem_insert_of_ne hj' hj)

theorem Linked.wp_tellFather {pid : Word} (h : Linked rootDev skip held k)
    (hnone : ∀ j, k.taskRef (me, j) = none) :
    wp (tellFather me pid) (fun _ => Linked rootDev skip held) NoFree k := by
  rw [tellFather, wp_bind, wp_get]
  split
  · exact Keeps.linked keeps_signal k h
  · exact h.wp_release hnone

theorem keeps_close_all : Keeps (Linked rootDev ∅ held) NoFree (closeAll rd me) :=
  .forN fun fd => (Keeps.linked keeps_task_get).bind fun _ =>
    .ite (keeps_close_fd fd).discard (.pure _)

theorem keeps_exit {code : Word} : Keeps (Linked rootDev ∅ none) NoFree (doExit rd me code) := by
  intro k h
  unfold doExit
  refine wp_bind.mpr (wp_getTask_any fun cur _ => ?_)
  refine (keeps_quiet (Mm.stops_freePageTables quiet_panic)).next h fun _ k h => ?_
  refine (keeps_task (by exact fun _ => ⟨rfl, rfl⟩)).next h fun _ k h => ?_
  refine (Keeps.linked keeps_orphans k h).next fun _ k h => ?_
  refine keeps_close_all.next h fun _ k h => wp_bind.mpr (wp_getTask_any fun t ht => ?_)
  have h₀ : LinkedWith (Gone me ∅) rootDev ∅ none k := ⟨h, fun j hj => absurd hj (by simp)⟩
  refine (h₀.wp_drop 0 ht (fun j => Task.inodes_of_ne_pwd) rfl rfl).next fun _ k h =>
    h.next fun _ k h => wp_bind.mpr (wp_getTask_any fun t ht => ?_)
  refine (h.wp_drop 1 ht (fun j => Task.inodes_of_ne_root) rfl rfl).next fun _ k h =>
    h.next fun _ k h => wp_bind.mpr (wp_getTask_any fun t ht => ?_)
  refine (h.wp_drop 2 ht (fun j => Task.inodes_of_ne_executable) rfl rfl).next fun _ k h =>
    h.next fun _ k h => ?_
  refine keeps_session.next h fun _ k h => ?_
  have hnone (j : Fin 3) : k.taskRef (me, j) = none := h.2 j (by revert j; decide)
  refine wp_bind.mpr (wp_updateTask.mpr (wp_bind.mpr (wp_getTask_any fun t ht => ?_)))
  cases hk : k.task me with
  | none => simp [hk, setTask] at ht
  | some u =>
    have hinodes (j : Fin 3) : u.inodes j = none := by
      have := hnone j
      rwa [taskRef, hk] at this
    rw [map_some]
    have hz : Linked rootDev ∅ none
        (k.setTask me (some { u with state := .zombie, exitCode := code })) :=
      h.1.setTask hk rfl fun _ => hinodes
    refine hz.wp_tellFather fun j => ?_
    rw [taskRef_setTask hk (by rfl)]
    exact hnone j

theorem keeps_wait_step (pid statAddr options : Word) (i : Slot) :
    Keeps (Linked rootDev skip held) NoFree (waitStep me pid statAddr options i) := by
  have hput {pgdir v : Word} : Keeps (Linked rootDev skip held) NoFree
      (liftMm (Mm.putFsLong v pgdir statAddr)) := keeps_quiet (Mm.stops_putFs (quiet_exit 11))
  intro k h
  refine wp_bind.mpr (wp_getTask_any fun cur hcur => ?_)
  rw [wp_bind, wp_get]
  split
  · exact wp_pure.mpr h
  next p hp =>
  refine wp_ite.mpr ⟨fun _ => wp_pure.mpr h, fun hwait => ?_⟩
  split
  · refine wp_ite.mpr ⟨fun _ => wp_pure.mpr h, fun _ => ?_⟩
    exact hput.bind (fun _ => .pure _) k h
  · next hstate =>
    have hnone (j : Fin 3) := h.zombie i p hp hstate j
    have h' : LinkedWith (Gone i univ) rootDev skip held k := ⟨h, fun j _ => hnone j⟩
    refine (keeps_task_update (by exact fun _ => ⟨rfl, rfl⟩)).next h' fun _ k h => ?_
    refine (h.1.wp_release fun j => h.2 j (mem_univ j)).next fun _ k h => ?_
    exact hput.bind (fun _ => .pure _) k h
  · exact wp_pure.mpr h

theorem keeps_waitpid (pid statAddr options : Word) :
    Keeps (Linked rootDev skip held) NoFree (sysWaitpid me pid statAddr options) := by
  have hloop (l : List Slot) (flag : Bool) : Keeps (Linked rootDev skip held) NoFree
      (waitLoop me pid statAddr options l flag) := by
    induction l generalizing flag with
    | nil =>
      refine .ite (.ite (.pure _) ?_) (.pure _)
      exact .throw fun _ _ => by simp [NoFree]
    | cons i l ih =>
      refine (keeps_wait_step pid statAddr options i).bind fun r => ?_
      cases r with
      | inl ret => exact .pure _
      | inr more => exact ih _
  exact (Keeps.linked keeps_task_get).bind fun _ =>
    (keeps_quiet (Mm.stops_verifyArea quiet_panic (quiet_exit 11))).bind fun _ => hloop _ _

/-! ### `execve` -/

/-- The references and pipes at the end of an operation that also uses memory. -/
abbrev RefsNow (rootDev : Dev) (pipe : Ino → Bool) (base : Ino → ℕ) (s : Fs) : Prop :=
  Refs rootDev s.mm pipe base s

section

variable {argc : ℕ} {argv p pgdir : Word} {page : Fin maxArgPages → Word} {s : Fs}
  {pipe : Ino → Bool} {base : Ino → ℕ} {ip : Ino} {cur : Current} {a : ArgPages}
  {envc fuel len n : ℕ} {tmp : Word}

theorem keeps_now_liftMm {c : Mm.M α} (hc : Mm.Stops Quiet c) :
    Keeps (RefsNow rootDev pipe base) NotFree (Minix.liftMm c) :=
  fun _ h => wp_liftMm_quiet hc fun _ mm => h.setMm mm

/-- An operation that leaves references and memory alone. -/
theorem keeps_now {c : FsM α} (hc : ∀ F refs, Keeps (Holds F refs) NotFree c) :
    Keeps (RefsNow rootDev pipe base) NotFree c := by
  intro s h
  refine (h.wp_steady fun F refs => hc F refs s).imp fun _ s' h' => ?_
  have hmm : s'.mm = s.mm := h'.holds.mm
  rw [RefsNow, hmm]
  exact h'

theorem keeps_now_byte {addr : Word} : Keeps (RefsNow rootDev pipe base) NotFree (getFsByte cur addr) :=
  keeps_now fun _ _ => keeps_getFsByte

theorem keeps_countArgs : Keeps (RefsNow rootDev pipe base) NotFree (countArgs cur argv) := by
  have hfrom (fuel : ℕ) (tmp : Word) (i : ℕ) :
      Keeps (RefsNow rootDev pipe base) NotFree (countFrom cur fuel tmp i) := by
    induction fuel generalizing tmp i with
    | zero => exact .throw fun _ _ => by simp [NotFree]
    | succ fuel ih =>
      exact (keeps_now_liftMm (Mm.stops_getFs (quiet_exit 11))).bind fun v =>
        .ite (.pure _) (ih _ _)
  exact .ite (.pure _) (hfrom _ _ _)

theorem keeps_strLen : Keeps (RefsNow rootDev pipe base) NotFree (strLen cur fuel tmp len) := by
  induction fuel generalizing tmp len with
  | zero => exact .throw fun _ _ => by simp [NotFree]
  | succ fuel ih => exact keeps_now_byte.bind fun c => .ite (.pure _) ih

theorem keeps_argPage : Keeps (RefsNow rootDev pipe base) NotFree (argPage a) := by
  unfold argPage
  dsimp only
  split
  · exact .ite (.pure _) ((keeps_now_liftMm Mm.stops_getFreePage).bind fun _ => .pure _)
  · exact .throw fun _ _ => by simp [NotFree]

theorem keeps_copyString :
    Keeps (RefsNow rootDev pipe base) NotFree (copyString cur len tmp a) := by
  induction len generalizing tmp a with
  | zero => exact Keeps.pure _
  | succ len ih =>
    have hstore (a : ArgPages) : Keeps (RefsNow rootDev pipe base) NotFree (do
        if a.pag = 0 then
          return (false, a)
        else
          let c ← getFsByte cur (tmp - 1)
          storeByte (a.pag + BitVec.ofInt 32 a.offset) c
          copyString cur len (tmp - 1) a) :=
      Keeps.ite (Keeps.pure _) (keeps_now_byte.bind fun c =>
        (keeps_now_liftMm Mm.stops_modify).bind fun _ => ih)
    exact Keeps.ite (keeps_argPage.bind hstore) ((Keeps.pure _).bind hstore)

theorem keeps_copyStrings :
    Keeps (RefsNow rootDev pipe base) NotFree (copyStrings cur argc argv page p) := by
  have hfrom (argc : ℕ) (a : ArgPages) :
      Keeps (RefsNow rootDev pipe base) NotFree (copyStringsFrom cur argv argc a) := by
    induction argc generalizing a with
    | zero => exact .pure _
    | succ argc ih =>
      refine (keeps_now_liftMm (Mm.stops_getFs (quiet_exit 11))).bind fun tmp => .ite ?_ ?_
      · exact .throw fun _ _ => by simp [NotFree]
      · refine keeps_strLen.bind fun len => keeps_copyString.bind fun r => ?_
        obtain ⟨_ | _, a⟩ := r
        · exact .pure _
        · exact ih a
  exact .ite (.pure _) ((hfrom _ _).bind fun _ => .pure _)

theorem keeps_createTables :
    Keeps (RefsNow rootDev pipe base) NotFree (createTables cur p argc envc) := by
  have hput {v addr : Word} : Keeps (RefsNow rootDev pipe base) NotFree
      (Minix.liftMm (Mm.putFsLong v cur.pgdir addr)) :=
    keeps_now_liftMm (Mm.stops_putFs (quiet_exit 11))
  have hpointers (n : ℕ) (p table : Word) :
      Keeps (RefsNow rootDev pipe base) NotFree (putPointers cur n p table) := by
    induction n generalizing p table with
    | zero => exact hput.bind fun _ => .pure _
    | succ n ih => exact hput.bind fun _ => keeps_strLen.bind fun _ => ih _ _
  exact hput.bind fun _ => hput.bind fun _ => hput.bind fun _ => (hpointers _ _ _).bind fun _ =>
    (hpointers _ _ _).bind fun _ => .pure _

theorem keeps_readFile {off len : Word} :
    Keeps (RefsNow rootDev pipe base) NotFree (readFile rd ip fuel off len) := by
  refine keeps_now fun F refs => ?_
  induction fuel generalizing off len with
  | zero => exact .pure _
  | succ fuel ih =>
    refine .ite (.pure _) (keeps_bmapWith.bind fun z => keeps_readInodeTable.bind fun n =>
      keeps_bread.bind fun b => .ite ?_ (.pure _))
    exact Keeps.get.bind fun s => keeps_brelse.bind fun _ => ih.bind fun _ => .pure _

theorem keeps_loadPages {ph : Phdr} {vaddr : Word} :
    Keeps (RefsNow rootDev pipe base) NotFree (loadPages rd ip ph pgdir n vaddr) := by
  have hfree {page : Word} : Keeps (RefsNow rootDev pipe base) NotFree
      (Minix.liftMm (Mm.freePage page)) := keeps_now_liftMm (Mm.stops_freePage quiet_panic)
  induction n generalizing vaddr with
  | zero => exact Keeps.pure _
  | succ n ih =>
    have hput (page : Word) (ok : Bool) : Keeps (RefsNow rootDev pipe base) NotFree (do
        if !ok then
          Minix.liftMm (Mm.freePage page)
          return false
        else
          let r ← Minix.liftMm (Mm.putPagePgdir pgdir page vaddr)
          if r = 0 then
            Minix.liftMm (Mm.freePage page)
            return false
          else
            loadPages rd ip ph pgdir n (vaddr + 4096)) :=
      Keeps.ite (hfree.bind fun _ => Keeps.pure _) ((keeps_now_liftMm Mm.stops_putPagePgdir).bind
        fun r => Keeps.ite (hfree.bind fun _ => Keeps.pure _) ih)
    refine (keeps_now_liftMm Mm.stops_getFreePage).bind fun page => Keeps.ite (Keeps.pure _) ?_
    refine Keeps.ite ?_ ((Keeps.pure _).bind (hput page))
    exact keeps_readFile.bind fun r => (keeps_now_liftMm Mm.stops_modify).bind fun _ =>
      (Keeps.pure _).bind (hput page)

theorem keeps_loadHeaders {phoff : Word} {i : ℕ} :
    Keeps (RefsNow rootDev pipe base) NotFree (loadHeaders rd ip phoff pgdir n i) := by
  induction n generalizing i with
  | zero => exact .pure _
  | succ n ih =>
    exact keeps_readFile.bind fun r => .ite (.pure _) (.ite ih (.ite
      (.pure _) (keeps_loadPages.bind fun ok => .ite ih (.pure _))))

theorem keeps_putArgPages {l : List (Fin maxArgPages)} :
    Keeps (RefsNow rootDev pipe base) NotFree (putArgPages pgdir page l) := by
  induction l generalizing page with
  | nil => exact .pure _
  | cons i l ih =>
    exact .ite ih ((keeps_now_liftMm Mm.stops_putPagePgdir).bind fun r => .ite (.pure _) ih)

/-- What the first half of `execve` returns, with a reference to the file if it
can be run. -/
abbrev Prepared (rootDev : Dev) (pipe : Ino → Bool) (base : Ino → ℕ) (r : Except ℤ Image)
    (s : Fs) : Prop :=
  FoundRef rootDev s.mm pipe base (r.toOption.map Image.ip) s

/-- `execve` gives up: the file is put. -/
theorem wp_execError {e : ℤ} (h : RefsNow rootDev pipe (addRef base ip) s) (hip : pipe ip = false) :
    wp (do execError rd ip page; return .error e) (Prepared rootDev pipe base) NotFree s := by
  rw [execError, wp_bind]
  refine (h.wp_iput hip).next fun _ s' h' => ?_
  have hmm : s'.mm = s.mm := h'.holds.mm
  have hnow : RefsNow rootDev pipe base s' := by rwa [RefsNow, hmm]
  have hpages : Keeps (RefsNow rootDev pipe base) NotFree (forN maxArgPages fun i =>
      if page i = 0 then return () else Minix.liftMm (Mm.freePage (page i))) :=
    .forN fun i => .ite (.pure _) (keeps_now_liftMm (Mm.stops_freePage quiet_panic))
  exact (hpages s' hnow).imp fun _ s h => wp_pure.mpr h

theorem wp_buildSpace {eh : Ehdr} (h : RefsNow rootDev pipe (addRef base ip) s)
    (hip : pipe ip = false) :
    wp (buildSpace rd ip eh p page argc envc) (Prepared rootDev pipe base) NotFree s := by
  refine (keeps_now_liftMm Mm.stops_getFreePage).next h fun pgdir s h => ?_
  refine wp_ite.mpr ⟨fun _ => wp_execError h hip, fun _ => ?_⟩
  refine (keeps_now_liftMm Mm.stops_modify).next h fun _ s h => ?_
  refine keeps_putArgPages.next h fun r s h => ?_
  have hfree {page : Fin maxArgPages → Word} {e : ℤ} {s : Fs}
      (h : RefsNow rootDev pipe (addRef base ip) s) : wp (do
        Minix.liftMm (Mm.freePageTables pgdir)
        execError rd ip page
        return .error e) (Prepared rootDev pipe base) NotFree s :=
    (keeps_now_liftMm (Mm.stops_freePageTables quiet_panic)).next h fun _ s h => wp_execError h hip
  obtain ⟨_ | _, page⟩ := r
  · exact hfree h
  · refine keeps_loadHeaders.next h fun o s h => ?_
    cases o with
    | some e => exact hfree h
    | none => exact wp_pure.mpr ⟨h, hip⟩

theorem wp_prepare {filename envp : Word} (h : RefsNow rootDev pipe base s)
    (hcur : cur.NoPipe pipe) (hroom : Room 18 base) :
    wp (prepare rd cur filename argv envp) (Prepared rootDev pipe base) NotFree s := by
  refine (h.wp_namei hcur hroom).next fun o s' h' => ?_
  cases o with
  | none =>
    have hmm : s'.mm = s.mm := h'.holds.mm
    refine wp_pure.mpr ?_
    rw [Prepared, hmm]
    exact h'
  | some ip =>
    obtain ⟨h', hip⟩ := h'
    have hmm : s'.mm = s.mm := h'.holds.mm
    have h : RefsNow rootDev pipe (addRef base ip) s' := by rwa [RefsNow, hmm]
    refine keeps_countArgs.next h fun argc s h => ?_
    refine keeps_countArgs.next h fun envc s h => ?_
    refine (keeps_now (fun _ _ => keeps_readInodeTable)).next h fun n s h => ?_
    refine wp_ite.mpr ⟨fun _ => wp_execError h hip, fun _ => wp_ite.mpr
      ⟨fun _ => wp_execError h hip, fun _ => ?_⟩⟩
    refine keeps_readFile.next h fun r s h => ?_
    refine wp_ite.mpr ⟨fun _ => wp_execError h hip, fun _ => wp_ite.mpr
      ⟨fun _ => wp_execError h hip, fun _ => ?_⟩⟩
    refine keeps_copyStrings.next h fun r s h => ?_
    refine keeps_copyStrings.next h fun r s h => ?_
    exact wp_ite.mpr ⟨fun _ => wp_execError h hip, fun _ => wp_buildSpace h hip⟩

end

/-- An operation that uses memory and leaves references alone. -/
theorem keeps_fs_now (hc : ∀ pipe base, Keeps (RefsNow rootDev pipe base) NotFree c) :
    Keeps (Linked rootDev skip held) NoFree (liftFs c) := by
  intro k h
  rw [Proc.wp_liftFs]
  exact (hc _ _ _ h.refs).mono (fun _ _ h' => h.setFs h' (fun _ hp => hp) h.held) fun e fs he => he

theorem keeps_close_on_exec : Keeps (Linked rootDev ∅ held) NoFree (closeOnExecFds rd me) := by
  refine .bind (.forN fun fd => (Keeps.linked keeps_task_get).bind fun t => ?_) fun _ => ?_
  · exact .ite (keeps_close_fd fd).discard (.pure _)
  · exact keeps_task fun _ => ⟨rfl, rfl⟩

theorem keeps_scanHeaders {ip : Ino} {phoff : Word} {n i : ℕ} :
    Keeps (Linked rootDev ∅ held) NoFree (scanHeaders rd me ip phoff n i) :=
  keeps_scanHeaders_of (fun _ _ _ => keeps_fs_now fun _ _ => keeps_readFile) fun _ =>
    keeps_task fun _ => ⟨rfl, rfl⟩

theorem keeps_execve (r filename argv envp : Word) :
    Keeps (Linked rootDev ∅ none) NoFree (doExecve rd r me filename argv envp) := by
  intro k h
  refine wp_bind.mpr (wp_getTask_any fun cur hcur => ?_)
  have hcurrent := h.noPipe hcur
  rw [wp_bind, Proc.wp_liftFs]
  refine (wp_prepare h.refs hcurrent (Room.mono (room_refs _ _ _) (by decide))).mono
    (fun image fs h' => ?_) fun e fs he => he
  have hfound := refs_of_found h'
  cases image with
  | error e => exact wp_pure.mpr (h.setFs hfound.1 (fun _ hp => hp) hfound.2)
  | ok image =>
    have h : Linked rootDev ∅ (some image.ip) (k.setFs fs) :=
      h.setFs hfound.1 (fun _ hp => hp) hfound.2
    refine (h.wp_put 2 (some image.ip) hcur (f := fun t => { t with
      executable := none, sigaction := fun i => { t.sigaction i with handler := 0 } })
      (fun j => Task.inodes_of_ne_executable) rfl (fun _ => rfl) fun _ => rfl).next fun _ k h => ?_
    rw [wp_bind, wp_updateTask, h.1, map_some]
    replace h := h.2.1
    refine (keeps_close_on_exec _ h).next fun _ k h => ?_
    refine (keeps_quiet (Mm.stops_freePageTables quiet_panic)).next h fun _ k h => ?_
    refine (keeps_task (by exact fun _ => ⟨rfl, rfl⟩)).next h fun _ k h => ?_
    refine (keeps_fs_now (fun _ _ => keeps_createTables)).next h fun p k h => ?_
    refine (keeps_task (by exact fun _ => ⟨rfl, rfl⟩)).next h fun _ k h => ?_
    refine keeps_scanHeaders.next h fun _ k h => ?_
    refine h.wp_iput_held.next fun _ k h => ?_
    exact (keeps_task (by exact fun _ => ⟨rfl, rfl⟩)).next h fun _ _ h => wp_pure.mpr h

/-! ### `stat` and the calls on names -/

theorem keeps_stat {pad : Byte} (filename statbuf : Word) :
    Keeps (Linked rootDev ∅ none) NoFree (sysStat rd pad me filename statbuf) := by
  intro k h
  refine wp_bind.mpr (wp_getTask_any fun cur hcur => wp_bind.mpr ?_)
  have hcurrent := h.noPipe hcur
  refine h.wp_liftFs id ((h.refs.wp_namei hcurrent (Room.mono (room_refs _ _ _) (by decide))).imp
    fun _ _ h => refs_of_found h) fun o fs h => ?_
  cases o with
  | none => exact wp_pure.mpr h
  | some ip =>
    have hcopy (n : MInode) : Keeps (Linked rootDev ∅ (some ip)) NoFree
        (cpStat pad cur.pgdir n statbuf) :=
      (keeps_quiet (Mm.stops_verifyArea quiet_panic (quiet_exit 11))).bind fun _ =>
        keeps_quiet (stops_putBytes (quiet_exit 11))
    rw [wp_bind, wp_get]
    refine (hcopy _ _ h).next fun _ k h => ?_
    exact h.wp_iput_held.next fun _ k h => wp_pure.mpr h

/-- A call on names, with the inodes of the task to start from. -/
def nameCall (me : Slot) (c : Current → FsM ℤ) : ProcM ℤ := do
  let cur ← getTask me
  liftFs (c cur.current)

theorem keeps_name_call {c : Current → FsM ℤ}
    (hc : ∀ {mm pipe base s cur}, Refs rootDev mm pipe base s → cur.NoPipe pipe → Room 19 base →
      wp (c cur) (fun _ => Refs rootDev mm pipe base) NotFree s) :
    Keeps (Linked rootDev ∅ none) NoFree (nameCall me c) := by
  intro k h
  refine wp_bind.mpr (wp_getTask_any fun cur hcur => h.wp_steady ?_)
  exact hc h.refs (h.noPipe hcur) (room_refs _ _ _)

end

/-! ### Runs -/

/-- The calls that take and put inodes. -/
inductive InodeCall
  | file (c : FileCall)
  | chdir (filename : Word)
  | chroot (filename : Word)
  | stat (filename statbuf : Word)
  | mknod (filename : Word) (mode dev : BitVec 16)
  | mkdir (pathname : Word) (mode : BitVec 16)
  | rmdir (name : Word)
  | unlink (name : Word)
  | link (oldname newname : Word)
  | mount (devName dirName : Word)
  | umount (devName : Word)

section

variable {k : Kernel} {me : Slot} {t : Task} (rd : RamDisk) (rootDev : Dev) (retFromTrap : Word)
  (pad : Byte)

def InodeCall.run (me : Slot) : InodeCall → ProcM PUnit
  | .file c => c.run rd rootDev retFromTrap me
  | .chdir filename => discard (sysChdir rd me filename)
  | .chroot filename => discard (sysChroot rd me filename)
  | .stat filename statbuf => discard (sysStat rd pad me filename statbuf)
  | .mknod filename mode dev => discard (nameCall me fun cur => sysMknod rd cur filename mode dev)
  | .mkdir pathname mode => discard (nameCall me fun cur => sysMkdir rd cur pathname mode)
  | .rmdir name => discard (nameCall me fun cur => sysRmdir rd cur name)
  | .unlink name => discard (nameCall me fun cur => sysUnlink rd cur name)
  | .link oldname newname => discard (nameCall me fun cur => sysLink rd cur oldname newname)
  | .mount devName dirName =>
    discard (nameCall me fun cur => sysMount rd rootDev cur devName dirName)
  | .umount devName => discard (nameCall me fun cur => sysUmount rd rootDev cur devName)

/-- `mount_root`, by task `me`. -/
def mountRoot (me : Slot) : ProcM PUnit := do
  modify fun k => { k with file := fun f => { k.file f with count := 0 } }
  let mi ← liftFs (Minix.mountRoot rd rootDev)
  updateTask me fun t => { t with pwd := some mi, root := some mi }

/-- `k'` is the state after a call of a task that returns or after its end, or
after `kernel_thread`. -/
inductive InodeStep (k : Kernel) : Kernel → Prop
  | returns {me : Slot} {t : Task} {c : InodeCall} {k' : Kernel} (ht : k.task me = some t)
      (halive : t.state ≠ .zombie) (h : c.run rd rootDev retFromTrap pad me k = .ok ⟨⟩ k') :
      InodeStep k k'
  | exits {me : Slot} {t : Task} {errorCode : Word} {k' : Kernel} (ht : k.task me = some t)
      (halive : t.state ≠ .zombie) (h : sysExit rd me errorCode k = .ok ⟨⟩ k') : InodeStep k k'
  | thread {me : Slot} {t : Task} {fn : Word} {pid : ℤ} {k' : Kernel} (ht : k.task me = some t)
      (halive : t.state ≠ .zombie) (h : kernelThread fn me k = .ok pid k') : InodeStep k k'

variable {rd rootDev retFromTrap pad}

/-- The other calls leave the descriptors alone. -/
theorem keeps_files_run (c : InodeCall) :
    Keeps (Calls.Any me) (Ends me) (c.run rd rootDev retFromTrap pad me) := by
  have hname (c : Current → FsM ℤ) : Keeps (Calls.Any me) (Ends me) (nameCall me c) :=
    keeps_getTask.bind fun _ => keeps_liftFs _
  cases c with
  | file c => exact keeps_run c
  | chdir filename | chroot filename =>
    refine Keeps.discard (keeps_getTask.bind fun cur => (keeps_liftFs _).bind fun r => ?_)
    cases r with
    | error e => exact .pure _
    | ok ip =>
      exact (keeps_liftFs _).bind fun _ => (keeps_untouched
        (by exact fun _ => ⟨rfl, rfl, rfl⟩)).bind fun _ => .pure _
  | stat filename statbuf =>
    refine Keeps.discard (keeps_getTask.bind fun cur => (keeps_liftFs _).bind fun o => ?_)
    cases o with
    | none => exact .pure _
    | some ip =>
      exact Keeps.get.bind fun k => ((keeps_liftMm _).bind fun _ => keeps_liftMm _).bind
        fun _ => (keeps_liftFs _).bind fun _ => .pure _
  | mknod | mkdir | rmdir | unlink | link | mount | umount => exact (hname _).discard

theorem Linked.wp_run (h : Linked rootDev ∅ none k)
    (hfiles : FileInv k) (ht : k.task me = some t) (halive : t.state ≠ .zombie) (c : InodeCall) :
    wp (c.run rd rootDev retFromTrap pad me) (fun _ => Linked rootDev ∅ none) NoFree k := by
  cases c with
  | chdir filename => exact wp_map.mpr (h.wp_chdir filename ht halive)
  | chroot filename => exact wp_map.mpr (h.wp_chroot filename ht halive)
  | stat filename statbuf => exact (keeps_stat filename statbuf).discard k h
  | mknod filename mode dev =>
    exact (keeps_name_call fun h hcur hroom => h.wp_sysMknod hcur hroom).discard k h
  | mkdir pathname mode =>
    exact (keeps_name_call fun h hcur hroom => h.wp_sysMkdir hcur hroom).discard k h
  | rmdir name => exact (keeps_name_call fun h hcur hroom => h.wp_sysRmdir hcur hroom).discard k h
  | unlink name =>
    exact (keeps_name_call fun h hcur hroom => h.wp_sysUnlink hcur hroom).discard k h
  | link oldname newname =>
    exact (keeps_name_call fun h hcur hroom => h.wp_sysLink hcur hroom).discard k h
  | mount devName dirName =>
    exact (keeps_name_call fun h hcur hroom => h.wp_sysMount hcur
      (hroom.mono (by decide))).discard k h
  | umount devName =>
    exact (keeps_name_call fun h hcur hroom => h.wp_sysUmount hcur
      (hroom.mono (by decide))).discard k h
  | file c =>
    cases c with
    | «open» filename flag mode => exact (keeps_open filename flag mode).discard k h
    | creat pathname mode => exact (keeps_open pathname _ mode).discard k h
    | close fd => exact (keeps_close fd).discard k h
    | dup fildes => exact wp_map.mpr (h.wp_dupfd fildes 0 hfiles)
    | dup2 oldfd newfd =>
      refine wp_map.mpr ((wp_and (keeps_close newfd k h)
        (keeps_sysClose newfd k ⟨hfiles, t, ht, halive, trivial⟩)).next fun _ k h => ?_)
      exact h.1.wp_dupfd oldfd newfd h.2.files
    | fcntl fd cmd arg => exact wp_map.mpr (h.wp_fcntl fd cmd arg hfiles)
    | pipe fildes => exact (keeps_pipe fildes).discard k h
    | fork => exact wp_map.mpr (h.wp_fork hfiles ht halive)
    | execve filename argv envp => exact (keeps_execve retFromTrap filename argv envp).discard k h
    | waitpid pid statAddr options => exact (keeps_waitpid pid statAddr options).discard k h

theorem InodeStep.inv {k' : Kernel} (hstep : InodeStep rd rootDev retFromTrap pad k k')
    (h : Linked rootDev ∅ none k) (hfiles : FileInv k) : Linked rootDev ∅ none k' ∧ FileInv k' := by
  cases hstep with
  | returns ht halive hrun =>
    exact ⟨(h.wp_run hfiles ht halive _).of_ok hrun,
      ((keeps_files_run _ k ⟨hfiles, _, ht, halive, trivial⟩).of_ok hrun).files⟩
  | exits ht halive hrun =>
    exact ⟨(keeps_exit k h).of_ok hrun, (wp_doExit ⟨hfiles, _, ht, halive, trivial⟩).of_ok hrun⟩
  | thread ht halive hrun =>
    refine ⟨(h.wp_kernelThread hfiles ht halive).of_ok hrun, ?_⟩
    have hback (pid : Word) (mm : Mm.State) : FileInv ({ k with lastPid := pid }.setMm mm) :=
      hfiles.congr rfl fun _ => rfl
    have hthread : ∀ fn, wp (kernelThread fn _) (fun _ => FileInv) (fun _ _ => True) k := fun fn =>
      wp_kernelThread ht (fun pid mm _ => hback pid mm) fun nr pid mm page hnr _ =>
        ((hback pid mm).share ht halive hnr
          (show (threadTask fn pid k _ page).filp = _ from rfl) rfl).files
    exact (hthread _).of_ok hrun

/-- The state before `mount_root`: nothing is in use. -/
structure Kernel.Boot (k : Kernel) : Prop where
  fs : k.fs.Unused
  files : k.NoFiles
  tasks : ∀ i t, k.task i = some t → ∀ j, t.inodes j = none

/-- `pwd` and `root` of the task are the only references to the root inode that
are not of the super block. -/
theorem refs_of_boot {mi : Ino} (hcount : ∀ f, (k.file f).count = 0)
    (hself : k.task me = some { t with pwd := some mi, root := some mi })
    (hnone : t.executable = none)
    (hother : ∀ i u, i ≠ me → k.task i = some u → ∀ j, u.inodes j = none) :
    k.refs ∅ none = addRef (addRef (fun _ => 0) mi) mi := by
  have hplaces : k.taskRef = update (update (fun _ => none) (me, 0) (some mi))
      (me, 1) (some mi) := by
    funext ⟨i, j⟩
    by_cases hi : i = me
    · subst hi
      match j with
      | 0 | 1 | 2 => simp [taskRef, hself, Task.inodes, update, hnone]
    · have hleft : k.taskRef (i, j) = none := by
        rw [taskRef]
        cases hu : k.task i with
        | none => rfl
        | some u => exact hother i u hi hu j
      rw [hleft, update_of_ne fun h => hi (congrArg Prod.fst h),
        update_of_ne fun h => hi (congrArg Prod.fst h)]
  funext ip
  have hfile : occurrences (k.fileRef ∅) ip = 0 :=
    occurrences_eq_zero_iff.mpr fun f hf => nomatch (fileRef_of_closed (hcount f)).symm.trans hf
  have hempty : occurrences (fun _ : Slot × Fin 3 => (none : Option Ino)) = fun _ => 0 :=
    funext fun _ => occurrences_eq_zero_iff.mpr fun _ => nofun
  rw [refs, hfile, hplaces, occurrences_attach (by simp), occurrences_attach rfl, hempty]
  simp

theorem Kernel.Boot.linked (h : k.Boot) (ht : k.task me = some t) (halive : t.state ≠ .zombie) :
    wp (mountRoot rd rootDev me) (fun _ => Linked rootDev ∅ none) NoFree k := by
  rw [mountRoot, wp_bind, wp_modify, wp_bind, Proc.wp_liftFs]
  refine h.fs.wp_mountRoot.mono (fun mi fs h' => ?_) fun e fs he => he
  rw [wp_updateTask]
  change Linked rootDev ∅ none (setTask _ me ((k.task me).map _))
  rw [ht, map_some]
  generalize hk' : setTask _ me _ = k'
  have hself : k'.task me = some { t with pwd := some mi, root := some mi } := by
    rw [← hk']
    exact update_self ..
  have hother {i : Slot} (hi : i ≠ me) : k'.task i = k.task i := by
    rw [← hk']
    exact update_of_ne hi ..
  have hfs : k'.fs = fs := by rw [← hk']; rfl
  have hrefs : k'.refs ∅ none = addRef (addRef (fun _ => 0) mi) mi := by
    refine refs_of_boot (fun f => ?_) hself (h.tasks me t ht 2) fun i u hi hu => ?_
    · rw [← hk']
      rfl
    · exact h.tasks i u ((hother hi).symm.trans hu)
  have hpipes : pipes fs = fun _ => false := funext h'.holds.pipe
  have hmm : fs.mm = k.fs.mm := h'.holds.mm
  refine ⟨?_, fun d ip _ => ?_, (fun _ hip => nomatch hip), fun i u hu hz j => ?_⟩
  · rw [hfs, hrefs, hpipes, hmm]
    exact h'
  · rw [hfs, hpipes]
  · by_cases hi : i = me
    · subst hi
      rw [hself, some.injEq] at hu
      subst hu
      exact absurd hz halive
    · rw [hother hi] at hu
      rw [taskRef, hother hi, hu, bind_some]
      exact h.tasks i u hu j

theorem Kernel.Boot.fileInv (h : k.Boot) :
    wp (mountRoot rd rootDev me) (fun _ => FileInv) (fun _ _ => True) k := by
  rw [mountRoot, wp_bind, wp_modify, wp_bind, Proc.wp_liftFs]
  refine wp_of_forall (fun mi fs => ?_) fun _ _ => trivial
  have hno : FileInv ({ k with file := fun f => { k.file f with count := 0 } }.setFs fs) :=
    Kernel.NoFiles.inv ⟨fun _ => rfl, h.files.filp, h.files.closeOnExec⟩
  rw [wp_updateTask]
  change FileInv (setTask _ me ((k.task me).map _))
  cases ht : k.task me with
  | none =>
    refine hno.congr ?_ fun _ => rfl
    rw [map_none, ← ht]
    exact update_eq_self ..
  | some t =>
    exact hno.setTask ht rfl (fun fd => hno.closeOnExec me t fd ht) fun _ fd =>
      h.files.filp me t fd ht

end

/-- An empty file system with one block for each bitmap. -/
def emptyDisk (_ : Dev) (block : BlockNr) (i : Fin 1024) : Byte :=
  if block = 1 then
    if i = 4 ∨ i = 6 then 1 else if i = 16 then 0x7f else if i = 17 then 0x13 else 0
  else 0

/-- One task, with the ramdisk not mounted yet. -/
def bootKernel : Kernel :=
  let k := single ⟨fun _ => 0, fun _ => 0, false⟩ 0
  k.setFs { k.fs with data := emptyDisk }

theorem bootKernel_boot : bootKernel.Boot := by
  refine ⟨⟨fun _ => rfl, fun _ => rfl, fun _ => rfl⟩, ⟨fun _ => rfl, fun i t fd ht => ?_,
    fun i t ht => ?_⟩, fun i t ht j => ?_⟩
  all_goals
    obtain ⟨-, ht⟩ := ite_none_right_eq_some.mp ht
    rw [← some.inj ht]
  match j with
  | 0 | 1 | 2 => rfl

end LinuxRv.Proc
