import LinuxRv.Proc.NewProgram

/-!
Programs that are started.

With a file that can be loaded and memory enough, `do_execve` reaches the point
of no return. Behind it only the tables are left to be written, below the
strings, and they need not be in a page that has been mapped.
-/

namespace LinuxRv.Proc

open ByteMemory Prog Fs Minix Mm PageArea

/-! ### Behind the point of no return -/

/-- Giving up the files of the old program. -/
def releaseFiles (rd : RamDisk) (me : Slot) (cur : Task) : ProcM PUnit := do
  liftFs (iput rd cur.executable)
  updateTask me fun t => { t with
    executable := none
    sigaction := fun i => { t.sigaction i with handler := 0 } }
  closeOnExecFds rd me

/-- The files can be given up, and the inode of the new program after them. -/
def Releases (rd : RamDisk) (me : Slot) (cur : Task) (ip : Ino) (k : Kernel) : Prop :=
  wp (releaseFiles rd me cur) (fun _ k' => k'.fs.mm = k.fs.mm ∧ k'.fs.Puttable rd ip)
    (fun _ _ => False) k

section

variable {s : Fs} {rd : RamDisk} {main : MainMemory} {k : Kernel} {me j : Slot} {cur : Task}
  {ip : Ino} {fs : Fs} {args envs : List (List Byte)} {E : Minix.Halt → Kernel → Prop}

theorem keeps_fs_updateTask {f : Task → Task} :
    Keeps (fun k : Kernel => k.fs = s) E (updateTask me f) := fun _ h => wp_updateTask.mpr h

theorem keeps_fs_scanHeaders {phoff : Word} {n i : ℕ}
    (hrange : ∀ l, i ≤ l → l < i + n → FileRange (phoff + 32 * .ofNat 32 l) 32) :
    Keeps (fun k : Kernel => k.fs = s) E (scanHeaders rd me ip phoff n i) :=
  keeps_scanHeaders_of (fun l hl hlt _ h => wp_liftFs.mpr
    (wp_readFile (fun hnot => absurd (hrange l hl hlt) hnot) h)) fun _ => keeps_fs_updateTask

/-- Giving up the old address space does not stop. -/
theorem wp_freeOld_shown {w₀ : World} {d p : Word} {V : UserView} {m : Mm.State}
    {E : Mm.Halt → Mm.State → Prop} (h : Showing main w₀ j d 0 V m)
    (hp : p ≠ 0 → ∃ i, w₀.pgdir i = some p) :
    wp (Mm.freePageTables p) (fun _ => HasView main j d V) E m := by
  have hfree : wp (Mm.freePageTables p) (fun _ _ => True) E m := by
    by_cases h0 : p = 0
    · rw [Mm.freePageTables, if_pos h0, wp_pure]
      trivial
    · obtain ⟨i, hi⟩ := hp h0
      obtain ⟨w, _, rfl, -, hw, -⟩ := h
      exact hw.inv.wp_freePageTables ((hw.pgdir i (hw.ne_spare hi)).trans hi)
        fun _ _ _ _ _ _ _ _ => trivial
  exact (wp_and hfree (h.wp_freeOld hp rfl)).imp fun _ _ h' => h'.2

theorem Puttable.setMm (h : s.Puttable rd ip) (m : Mm.State) :
    Fs.Puttable rd { s with mm := m } ip :=
  ⟨h.count, h.pipe, h.device, h.mode, h.nlinks, h.block⟩

/-- A valid program is started, unless its tables are not mapped. -/
theorem wp_doExecve_total {held : Multiset Word} {rootDev : Dev} {r filename argv envp : Word}
    (hI : (k.world held).Inv main) (hj : k.pgdir j = none) (hlinked : Linked rootDev ∅ none k)
    (hcur : k.task me = some cur) (hnamei : namei rd cur.current filename k.fs = .ok (some ip) fs)
    (hrelease : ∀ m, Releases rd me cur ip (k.setFs { fs with mm := m }))
    (hvalid : ValidProgram rd cur.current fs ip)
    (hargs : ArgVector (callerView main (k.world held) cur.pgdir) argv args)
    (henvs : ArgVector (callerView main (k.world held) cur.pgdir) envp envs)
    (hfits : totalBytes args envs < topOffset)
    (hroom : programFrames rd fs ip ≤ freeFrames k.fs.mm.memMap) :
    wp (doExecve rd r me filename argv envp)
      (fun ret _ => ret = 0 ∧ (loadedView rd fs ip args envs).Mapped (startSp args envs)
        (args.length + envs.length + 5))
      (fun e _ => e = .exit 11 ∧ ¬ (loadedView rd fs ip args envs).Mapped (startSp args envs)
        (args.length + envs.length + 5)) k := by
  have hpgdir (h0 : cur.pgdir ≠ 0) : ∃ i, k.pgdir i = some cur.pgdir :=
    ⟨me, Kernel.pgdir_of_task hcur h0⟩
  have hnot := hargs.no_zeros henvs
  have hfound := hlinked.found hcur hnamei
  rw [doExecve, wp_bind, wp_getTask hcur, wp_bind, wp_liftFs]
  refine (wp_prepareImage (G := True) hnamei hI hj hfound.1.mm hpgdir hargs henvs
    (fun _ => ⟨hvalid, hfits, hroom⟩) fun hf => absurd trivial hf).imp fun r s h => ?_
  obtain ⟨hok, h⟩ := h
  obtain ⟨image, rfl⟩ := hok trivial
  have h : NewImage main (k.world held) j fs rd ip args envs image s := h
  obtain ⟨m, rfl, hshow⟩ := h.view
  have hfiles := hrelease m
  simp only [Releases, releaseFiles, wp_bind] at hfiles ⊢
  refine hfiles.mono (fun _ k' h' => h'.mono (fun _ k' h' => h'.mono (fun _ k' h' => ?_)
    fun _ _ he => he.elim) fun _ _ he => he.elim) fun _ _ he => he.elim
  obtain ⟨hmm, hput⟩ := h'
  have hmm : k'.fs.mm = m := hmm
  rw [Proc.wp_liftMm, hmm]
  refine (wp_freeOld_shown hshow hpgdir).imp fun _ m₁ hview => ?_
  rw [wp_updateTask, wp_liftFs, h.p, h.argc, h.envc]
  refine (wp_tables k'.fs h.fits hnot hview).imp fun sp s h' => ?_
  obtain ⟨-, hmap, m₂, rfl, -⟩ := h'
  -- reading the headers again changes nothing
  rw [wp_updateTask, h.inode, h.eh]
  refine (keeps_fs_scanHeaders (fun l _ hl => ?_) _ rfl).imp fun _ k'' hfs => ?_
  · exact (hvalid.headers l (by omega)).1
  rw [wp_liftFs, hfs]
  refine (Puttable.setMm hput m₂).wp_iput.imp fun _ s _ => ?_
  rw [wp_updateTask, wp_pure]
  exact ⟨rfl, hmap⟩

end

/-! ### Where the tables are -/

/-- How far from `STACK_BASE` the strings begin. -/
def stringsOffset (args envs : List (List Byte)) : ℕ := topOffset - totalBytes args envs

/-- The strings and the tables fit in the argument pages. -/
def TablesFit (args envs : List (List Byte)) : Prop :=
  args.length + envs.length + 5 ≤ stringsOffset args envs / 4

instance (args envs : List (List Byte)) : Decidable (TablesFit args envs) :=
  inferInstanceAs (Decidable (_ ≤ _))

/-- How far from `STACK_BASE` the tables begin. -/
def tablesOffset (args envs : List (List Byte)) : ℕ :=
  4 * (stringsOffset args envs / 4 - (args.length + envs.length + 5))

/-- There is a string, and the tables begin in the page in which the strings
begin. -/
def InStringPage (args envs : List (List Byte)) : Prop :=
  0 < totalBytes args envs ∧ tablesOffset args envs / 4096 = stringsOffset args envs / 4096

instance (args envs : List (List Byte)) : Decidable (InStringPage args envs) :=
  inferInstanceAs (Decidable (_ ∧ _))

section

variable {rd : RamDisk} {fs : Fs} {ip : Ino} {args envs : List (List Byte)}

theorem TablesFit.lt_top (h : TablesFit args envs) : totalBytes args envs < topOffset := by
  have htop : topOffset = 131068 := rfl
  unfold TablesFit stringsOffset at h
  omega

theorem toNat_startSp (h : TablesFit args envs) :
    (startSp args envs).toNat = stackBase.toNat + tablesOffset args envs := by
  have hbase := toNat_stackBase
  have hnat := toNat_stringsAt h.lt_top.le
  rw [startSp, toNat_belowStrings (room_tables h.lt_top.le), hnat, tablesOffset]
  unfold TablesFit stringsOffset at *
  omega

/-- A word of the area is there if there is a string in its page. -/
theorem loadedView_word {x : ℕ} {b : Word} (hb : b.toNat = stackBase.toNat + x) :
    loadedView rd fs ip args envs b ≠ none ↔ ∃ i < totalBytes args envs,
      x / 4096 = (stringsOffset args envs + i) / 4096 := by
  rw [loadedView, programView_stack (by omega), hb, Nat.add_sub_cancel_left, stringArea,
    ← Option.isSome_iff_ne_none, isSome_putAll]
  simp only [Option.isSome_none, Bool.false_eq_true, or_false]
  rfl

theorem mapped_iff (h : TablesFit args envs) :
    (loadedView rd fs ip args envs).Mapped (startSp args envs) (args.length + envs.length + 5) ↔
      InStringPage args envs := by
  have hsp := toNat_startSp h
  have hbase := toNat_stackBase
  have hle : tablesOffset args envs ≤ stringsOffset args envs := by
    rw [tablesOffset]
    omega
  have htop : stringsOffset args envs ≤ 131068 := Nat.sub_le ..
  have haddr {i : ℕ} (hi : i < args.length + envs.length + 5) :
      (startSp args envs + 4 * .ofNat 32 i).toNat =
        stackBase.toNat + (tablesOffset args envs + 4 * i) := by
    unfold TablesFit at h
    rw [BitVec.toNat_add, BitVec.toNat_mul, BitVec.toNat_ofNat, show (4 : Word).toNat = 4 from rfl,
      hsp]
    omega
  refine ⟨fun hmap => ?_, fun ⟨hpos, hpage⟩ i hi => ?_⟩
  · obtain ⟨l, hl, hpage⟩ := (loadedView_word (haddr (Nat.succ_pos _))).mp (hmap 0 (Nat.succ_pos _))
    exact ⟨by omega, by omega⟩
  · rw [loadedView_word (haddr hi)]
    refine ⟨0, hpos, ?_⟩
    unfold tablesOffset TablesFit at *
    omega

end

/-! ### A task that starts a program of zeros -/

theorem releases_of_none {rd : RamDisk} {me : Slot} {cur : Task} {ip : Ino} {k : Kernel}
    (hcur : k.task me = some cur) (hexecutable : cur.executable = none)
    (hclose : cur.closeOnExec = 0) (hput : k.fs.Puttable rd ip) : Releases rd me cur ip k := by
  have hstart : Committed me k.fs (· = k.fs.mm) k := ⟨⟨k.fs.mm, rfl, rfl⟩, cur, hcur, hclose⟩
  rw [Releases, releaseFiles, hexecutable, wp_bind, wp_liftFs, iput, wp_pure]
  refine Keeps.wp_then (committed_updateTask (by exact fun _ h => h)) (fun _ _ he => he) hstart
    fun _ k₁ h₁ => ?_
  refine (committed_closeOnExecFds k₁ h₁).imp fun _ k₂ h₂ => ?_
  obtain ⟨m, hfs, rfl⟩ := h₂.fs
  rw [hfs]
  exact ⟨rfl, hput⟩

theorem argVector_null (u : UserView) : ArgVector u 0 [] := by
  rw [ArgVector, if_pos rfl]

/-- The words at the path are a vector with one string, which is empty. -/
theorem argVector_path (file : List Byte) {pgdir : Word} (h0 : pgdir = 0) :
    ArgVector (callerView mainFrom4M ((oneFileKernel file).world 0) pgdir) pathAt [[]] := by
  subst h0
  have hbyte {a : Word} (ha : a.toNat < 2 ^ 31) :
      callerView mainFrom4M ((oneFileKernel file).world 0) 0 a = some ((oneFile file).mm.mem a) :=
    callerView_kernel ha
  rw [ArgVector, if_neg (by decide)]
  refine ⟨by decide, fun k hk => ?_, fun k hk => ?_⟩
  · obtain rfl : k = 0 := Nat.lt_one_iff.mp hk
    refine ⟨0x662f, by decide, fun k hk => ?_, List.not_mem_nil, fun k hk => ?_⟩
    · rw [hbyte (by interval_cases k <;> decide)]
      interval_cases k <;> rfl
    · obtain rfl : k = 0 := Nat.lt_one_iff.mp hk
      rw [hbyte (by decide)]
      rfl
  · rw [hbyte (by interval_cases k <;> decide)]
    interval_cases k <;> rfl

/-- The task can run the file `/f`. -/
structure Ready (file : List Byte) (cur : Task) (ip : Ino) (fs : Fs) : Prop where
  task : (oneFileKernel file).task 0 = some cur
  pgdir : cur.pgdir = 0
  found : namei smallDisk cur.current pathAt (oneFileKernel file).fs = .ok (some ip) fs
  release : ∀ m, Releases smallDisk 0 cur ip ((oneFileKernel file).setFs { fs with mm := m })
  valid : ValidProgram smallDisk cur.current fs ip
  room : programFrames smallDisk fs ip ≤ freeFrames (oneFileKernel file).fs.mm.memMap

section

variable {file : List Byte} {cur : Task} {ip : Ino} {fs : Fs}

theorem Ready.of_program {phnum : Word} (hcur : (oneFileKernel file).task 0 = some cur)
    (hn : namei smallDisk cur.current pathAt (oneFileKernel file).fs = .ok (some ip) fs)
    (hfiles : cur.executable = none ∧ cur.closeOnExec = 0) (hprogram : IsProgram phnum cur ip fs)
    (hput : IsPuttable ip fs) (hloads : ∀ i < phnum.toNat, LoadsAt smallDisk fs ip 52 i)
    (hframes : framesFrom smallDisk fs ip 52 0 phnum.toNat ≤ 31000) : Ready file cur ip fs := by
  obtain ⟨hreg, hmay, hread, hrun, hphnum, hphoff⟩ := hprogram
  refine ⟨hcur, ?_, hn, fun m => ?_, ⟨hreg, hmay, hread, hrun, ?_⟩, ?_⟩
  · cases hcur
    rfl
  · exact releases_of_none hcur hfiles.1 hfiles.2 (Puttable.setMm hput.puttable m)
  · rwa [hphnum, hphoff]
  · have hfree := freeFrames_oneFile file
    have hpages : maxArgPages = 32 := rfl
    rw [programFrames, hphnum, hphoff]
    exact le_trans (by omega) hfree

/-- With its path for a vector of arguments. -/
theorem Ready.runs (h : Ready file cur ip fs) : ∃ k',
    doExecve smallDisk 0 0 pathAt pathAt 0 (oneFileKernel file) = .ok 0 k' := by
  have hargs := argVector_path file h.pgdir
  have henvs := argVector_null (callerView mainFrom4M ((oneFileKernel file).world 0) cur.pgdir)
  have hfit : TablesFit [[]] [] := by decide
  have hrun := wp_doExecve_total (r := 0) (oneFileKernel_inv _) (oneFileKernel_pgdir _ 1)
    (oneFileKernel_linked _) h.task h.found h.release h.valid hargs henvs hfit.lt_top h.room
  rw [mapped_iff hfit] at hrun
  cases hr : doExecve smallDisk 0 0 pathAt pathAt 0 (oneFileKernel file) with
  | error e k' => exact absurd (by decide) (hrun.of_error hr).2
  | ok ret k' =>
    obtain ⟨rfl, -⟩ := hrun.of_ok hr
    exact ⟨k', rfl⟩

end

theorem zeroProgram_ready : ∃ cur ip fs, Ready zeroProgram cur ip fs ∧
    (ehdrAt smallDisk fs ip).phnum = 1 ∧ (ehdrAt smallDisk fs ip).phoff = 52 ∧
    phdrAt smallDisk fs ip 52 0 = some (segmentAt 0x1000) := by
  obtain ⟨cur, ip, fs, hcur, hn, h⟩ := exists_of_leadsTo zeroProgram_found
  obtain ⟨hfiles, hprogram, hput, hph⟩ := of_decide_eq_true h
  refine ⟨cur, ip, fs, .of_program hcur hn hfiles hprogram hput (fun i hi => ?_) ?_,
    hprogram.2.2.2.2.1, hprogram.2.2.2.2.2, hph⟩
  · obtain rfl : i = 0 := Nat.lt_one_iff.mp hi
    refine ⟨by decide, _, hph, fun _ => ⟨by decide, fun n hn hin => ?_⟩⟩
    obtain rfl : n = 0 := Nat.lt_one_iff.mp hn
    exact absurd hin (by decide)
  · rw [show (1 : Word).toNat = 0 + 1 from rfl, framesFrom_succ, phdrFrames, hph,
      show framesFrom smallDisk fs ip 52 (0 + 1) 0 = 0 from rfl]
    decide

/-! ### Results -/

section

variable {rd : RamDisk} {main : MainMemory} {k k' : Kernel} {me j : Slot} {cur : Task} {ip : Ino}
  {fs : Fs} {args envs : List (List Byte)} {held : Multiset Word} {rootDev : Dev}
  {r filename argv envp : Word}

/-- A program that has been started finds the strings of its caller. -/
theorem exec_arg_block (hI : (k.world held).Inv main) (hj : k.pgdir j = none)
    (hlinked : Linked rootDev ∅ none k) (hcur : k.task me = some cur)
    (hargs : ArgVector (callerView main (k.world held) cur.pgdir) argv args)
    (henvs : ArgVector (callerView main (k.world held) cur.pgdir) envp envs)
    (hrun : doExecve rd r me filename argv envp k = .ok 0 k') :
    ∃ t, k'.task me = some t ∧ ArgBlock (userByte k'.fs.mm.mem t.pgdir) (t.tf tfSp) args envs := by
  have hnot := hargs.no_zeros henvs
  obtain ⟨ip, fs, -, hstart⟩ := (wp_doExecve_view hI hj hlinked hcur hargs henvs).of_ok hrun rfl
  obtain ⟨t, ht, hsp, -, hview⟩ := hstart.task
  refine ⟨t, ht, ?_⟩
  rw [hview, hsp]
  exact argBlock_tables (room_tables hstart.fits.le) (lt_top_strings hstart.fits.le) hnot
    (loadedView_strings hstart.fits.le)

/-- One empty string. -/
theorem exec_arg_block_path : ∃ (k k' : Kernel) (t : Task), (k.world 0).Inv mainFrom4M ∧
    doExecve smallDisk 0 0 pathAt pathAt 0 k = .ok 0 k' ∧ k'.task 0 = some t ∧
    ArgBlock (userByte k'.fs.mm.mem t.pgdir) (t.tf tfSp) [[]] [] := by
  obtain ⟨cur, ip, fs, hready, -⟩ := zeroProgram_ready
  have hargs := argVector_path zeroProgram hready.pgdir
  have henvs := argVector_null (callerView mainFrom4M ((oneFileKernel zeroProgram).world 0) cur.pgdir)
  obtain ⟨k', hrun⟩ := hready.runs
  obtain ⟨t, ht⟩ := exec_arg_block (oneFileKernel_inv _) (oneFileKernel_pgdir _ 1)
    (oneFileKernel_linked _) hready.task hargs henvs hrun
  exact ⟨_, k', t, oneFileKernel_inv _, hrun, ht⟩

/-- A valid program whose strings and tables fit is started exactly if the tables
begin in the page of the first string. -/
theorem exec_completes_iff (hI : (k.world held).Inv main) (hj : k.pgdir j = none)
    (hlinked : Linked rootDev ∅ none k) (hcur : k.task me = some cur)
    (hnamei : namei rd cur.current filename k.fs = .ok (some ip) fs)
    (hrelease : ∀ m, Releases rd me cur ip (k.setFs { fs with mm := m }))
    (hvalid : ValidProgram rd cur.current fs ip)
    (hargs : ArgVector (callerView main (k.world held) cur.pgdir) argv args)
    (henvs : ArgVector (callerView main (k.world held) cur.pgdir) envp envs)
    (hfit : TablesFit args envs) (hroom : programFrames rd fs ip ≤ freeFrames k.fs.mm.memMap) :
    (∃ k', doExecve rd r me filename argv envp k = .ok 0 k') ↔ InStringPage args envs := by
  have hrun := wp_doExecve_total (r := r) hI hj hlinked hcur hnamei hrelease hvalid hargs henvs
    hfit.lt_top hroom
  rw [mapped_iff hfit] at hrun
  cases hr : doExecve rd r me filename argv envp k with
  | ok ret k' =>
    obtain ⟨rfl, hpage⟩ := hrun.of_ok hr
    exact iff_of_true ⟨k', rfl⟩ hpage
  | error e k' =>
    obtain ⟨-, hpage⟩ := hrun.of_error hr
    exact iff_of_false (fun ⟨_, hok⟩ => nomatch hok) hpage

end

/-- One empty string: its page has room for the tables. -/
theorem exec_completes_path : ∃ k k' : Kernel, (k.world 0).Inv mainFrom4M ∧
    doExecve smallDisk 0 0 pathAt pathAt 0 k = .ok 0 k' := by
  obtain ⟨cur, ip, fs, hready, -⟩ := zeroProgram_ready
  have hargs := argVector_path zeroProgram hready.pgdir
  have henvs := argVector_null (callerView mainFrom4M ((oneFileKernel zeroProgram).world 0) cur.pgdir)
  obtain ⟨k', hk'⟩ := (exec_completes_iff (r := 0) (oneFileKernel_inv _) (oneFileKernel_pgdir _ 1)
    (oneFileKernel_linked _) hready.task hready.found hready.release hready.valid hargs henvs
    (by decide) hready.room).mpr (by decide)
  exact ⟨_, k', oneFileKernel_inv _, hk'⟩

/-- Without strings no page is mapped for the tables, and the task is killed. -/
theorem exec_dies_without_strings : ∃ (k k' : Kernel) (cur : Task) (ip : Ino) (fs : Fs),
    (k.world 0).Inv mainFrom4M ∧ Linked rdDev ∅ none k ∧ k.task 0 = some cur ∧
    namei smallDisk cur.current pathAt k.fs = .ok (some ip) fs ∧
    ValidProgram smallDisk cur.current fs ip ∧ TablesFit [] [] ∧
    programFrames smallDisk fs ip ≤ freeFrames k.fs.mm.memMap ∧
    doExecve smallDisk 0 0 pathAt 0 0 k = .error (.exit 11) k' := by
  obtain ⟨cur, ip, fs, ⟨hcur, -, hn, hrelease, hvalid, hroom⟩, -⟩ := zeroProgram_ready
  have hnone := argVector_null (callerView mainFrom4M ((oneFileKernel zeroProgram).world 0) cur.pgdir)
  have hfit : TablesFit [] [] := by decide
  have hrun := wp_doExecve_total (r := 0) (oneFileKernel_inv _) (oneFileKernel_pgdir _ 1)
    (oneFileKernel_linked _) hcur hn hrelease hvalid hnone hnone hfit.lt_top hroom
  rw [mapped_iff hfit] at hrun
  cases hr : doExecve smallDisk 0 0 pathAt 0 0 (oneFileKernel zeroProgram) with
  | ok ret k' => exact absurd (hrun.of_ok hr).2 (by decide)
  | error e k' =>
    obtain ⟨rfl, -⟩ := hrun.of_error hr
    exact ⟨_, k', cur, ip, fs, oneFileKernel_inv _, oneFileKernel_linked _, hcur, hn, hvalid, hfit,
      hroom, hr⟩

end LinuxRv.Proc
