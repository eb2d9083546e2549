import LinuxRv.Proc.ExecPanics
import LinuxRv.Proc.ExecTables

/-!
The start of a new program.

Between the point of no return and the return to user mode the old program is
given up: its files are closed and its address space is freed. None of this
writes to the memory of the new program, so at its start it sees what was
prepared, with the tables below the strings.
-/

namespace LinuxRv.Proc

open ByteMemory Prog Fs Minix Mm PageArea Function

/-! ### The view at the start -/

section

variable {rd : RamDisk} {s : Fs} {ip : Ino} {b : Word} {args envs : List (List Byte)}

/-- The stack pointer of a program. -/
def startSp (args envs : List (List Byte)) : Word :=
  belowStrings (stringsAt args envs) (args.length + envs.length + 5)

/-- What a program sees when it starts. -/
def startView (rd : RamDisk) (s : Fs) (ip : Ino) (args envs : List (List Byte)) : UserView :=
  (loadedView rd s ip args envs).putWords (startSp args envs)
    (tableWords (stringsAt args envs) args envs)

/-- Segments end at `STACK_BASE`. -/
theorem imageView_of_le {phoff : Word} {V : UserView} {i : ℕ}
    (hb : stackBase.toNat ≤ b.toNat) : imageView rd s ip phoff V i b = V b := by
  induction i with
  | zero => rfl
  | succ i ih =>
    by_cases hload : ∃ ph, phdrAt rd s ip phoff i = some ph ∧ ph.Loads
    · obtain ⟨ph, hph, hload⟩ := hload
      have hlast := Phdr.last_le hload
      have hbase := toNat_stackBase
      rw [imageView_load hph hload, segmentView, if_neg, ih]
      rw [Phdr.pageCount]
      omega
    · rw [imageView_skip fun ph hph hl => hload ⟨ph, hph, hl⟩, ih]

/-- Above `STACK_BASE` there are the argument pages. -/
theorem programView_stack {A : Area Byte} (hb : stackBase.toNat ≤ b.toNat) :
    programView rd s ip A b = A (b.toNat - stackBase.toNat) := by
  rw [programView, imageView_of_le hb, argView, if_pos hb, Option.or_none]

theorem toNat_stringsAt (h : totalBytes args envs ≤ topOffset) :
    (stringsAt args envs).toNat = stackBase.toNat + (topOffset - totalBytes args envs) := by
  have hbase := toNat_stackBase
  have htop : topOffset = 131068 := rfl
  rw [stringsAt, BitVec.toNat_add, BitVec.toNat_ofNat]
  omega

theorem loadedView_strings (h : totalBytes args envs ≤ topOffset) :
    BytesAt (loadedView rd s ip args envs) (stringsAt args envs)
      (stringBytes args ++ stringBytes envs) := by
  intro k hk
  have hbase := toNat_stackBase
  have htop : topOffset = 131068 := rfl
  have hnat : (stringsAt args envs + .ofNat 32 k).toNat =
      stackBase.toNat + (topOffset - totalBytes args envs + k) := by
    have hk' : k < totalBytes args envs := hk
    rw [BitVec.toNat_add, toNat_stringsAt h, BitVec.toNat_ofNat]
    omega
  rw [loadedView, programView_stack (by omega), hnat, Nat.add_sub_cancel_left, stringArea]
  exact putAll_of_lt hk

/-! ### What leaves memory alone -/

variable {μ : Mem} {me : Slot} {P : Task → Prop}

/-- `iput` frees the page of a pipe, which does not write to it. -/
instance ignoresInodes_mem (μ : Mem) :
    IgnoresInodes (fun s : Fs => s.mm.mem = μ) (fun _ _ => True) where
  congr h _ _ hmm := by rw [hmm, h]
  setInode h _ _ _ := h
  stop _ _ := trivial
  update _ _ h := h
  freed _ := trivial
  page addr _ h := Minix.wp_liftMm.mpr ((wp_freePage_mem addr).imp fun _ _ h' => h'.trans h)

/-- The memory is `μ`, and the task is there with `P`. -/
def HoldsMem (me : Slot) (μ : Mem) (P : Task → Prop) (k : Kernel) : Prop :=
  k.fs.mm.mem = μ ∧ ∃ t, k.task me = some t ∧ P t

theorem keeps_mem_updateTask {f : Task → Task} (hf : ∀ t, P t → P (f t)) :
    Keeps (HoldsMem me μ P) (fun _ _ => True) (updateTask me f) := by
  rintro k ⟨hmem, t, ht, hP⟩
  refine wp_updateTask.mpr ⟨hmem, f t, ?_, hf t hP⟩
  rw [ht]
  exact update_self ..

theorem keeps_mem_liftFs {α : Type} {c : FsM α}
    (hc : Keeps (fun s : Fs => s.mm.mem = μ) (fun _ _ => True) c) :
    Keeps (HoldsMem me μ P) (fun _ _ => True) (liftFs c) := fun k h =>
  wp_liftFs.mpr ((hc k.fs h.1).imp fun _ _ h' => ⟨h', h.2⟩)

theorem keeps_mem_getTask : Keeps (HoldsMem me μ P) (fun _ _ => True) (getTask me) :=
  fun _ h => wp_getTask_of trivial fun _ _ => h

theorem keeps_mem_closeOnExecFds :
    Keeps (HoldsMem me μ fun _ => True) (fun _ _ => True) (closeOnExecFds rd me) := by
  have hclose (fd : Fin nrOpen) :
      Keeps (HoldsMem me μ fun _ => True) (fun _ _ => True) (closeFd rd me fd) := by
    refine (keeps_mem_updateTask fun _ _ => trivial).bind fun _ => keeps_mem_getTask.bind fun t => ?_
    split
    · exact Keeps.pure _
    · refine (keeps_mem_updateTask fun _ _ => trivial).bind fun _ => Keeps.get.bind fun k =>
        Keeps.ite (Keeps.throw fun _ _ => trivial) (Keeps.bind (fun k h => ?_) fun _ =>
          Keeps.ite (Keeps.pure _) ((keeps_mem_liftFs (keeps_iput _)).bind fun _ => Keeps.pure _))
      exact wp_updateFile.mpr h
  exact (Keeps.forN fun fd => keeps_mem_getTask.bind fun t => Keeps.ite
    (hclose fd).discard (Keeps.pure _)).bind fun _ => keeps_mem_updateTask fun _ _ => trivial

theorem keeps_mem_scanHeaders {ip : Ino} {phoff : Word} {n i : ℕ}
    (hinclude : ∀ t ph, P t → P (t.include ph)) :
    Keeps (HoldsMem me μ P) (fun _ _ => True) (scanHeaders rd me ip phoff n i) :=
  keeps_scanHeaders_of (fun _ _ _ => keeps_mem_liftFs fun _ h => wp_readFile (fun _ => trivial) h)
    fun ph => keeps_mem_updateTask fun t => hinclude t ph

end

/-! ### `execve` -/

/-- The task runs a new program, and sees what it should. -/
structure Started (main : MainMemory) (j : Fin nrTasks) (rd : RamDisk) (fs : Fs) (ip : Ino)
    (args envs : List (List Byte)) (me : Slot) (k : Kernel) : Prop where
  fits : totalBytes args envs < topOffset
  accepted : Accepted rd fs ip (ehdrAt rd fs ip).phoff (ehdrAt rd fs ip).phnum.toNat
  mapped : (loadedView rd fs ip args envs).Mapped (startSp args envs)
    (args.length + envs.length + 5)
  task : ∃ t, k.task me = some t ∧ t.tf tfSp = startSp args envs ∧
    HasView main j t.pgdir (startView rd fs ip args envs) k.fs.mm

section

variable {rd : RamDisk} {main : MainMemory} {k : Kernel} {me j : Slot} {cur : Task} {ip : Ino}
  {fs : Fs} {args envs : List (List Byte)} {argv envp : Word} {m : Mm.State} {u : UserView}

theorem HasView.of_mem {d : Word} {V : UserView} {m' : Mm.State} (h : HasView main j d V m)
    (hmem : m'.mem = m.mem) : HasView main j d V m' := by
  unfold HasView
  rwa [hmem]

/-- The tables are above address zero. -/
theorem room_tables (h : totalBytes args envs ≤ topOffset) :
    args.length + envs.length + 5 ≤ (stringsAt args envs).toNat / 4 := by
  have hargs := length_le_stringBytes args
  have henvs := length_le_stringBytes envs
  have htop : topOffset = 131068 := rfl
  have hbase := toNat_stackBase
  have hnat := toNat_stringsAt h
  rw [totalBytes, List.length_append] at h hnat
  omega

theorem lt_top_strings (h : totalBytes args envs ≤ topOffset) :
    (stringsAt args envs).toNat + (stringBytes args ++ stringBytes envs).length < 2 ^ 32 := by
  have htop : topOffset = 131068 := rfl
  have hbase := toNat_stackBase
  have hnat := toNat_stringsAt h
  rw [totalBytes] at h hnat
  omega

theorem ArgVector.no_zero {strs : List (List Byte)} (h : ArgVector u argv strs) :
    ∀ str ∈ strs, 0 ∉ str := by
  intro str hmem
  obtain ⟨n, hn, rfl⟩ := List.mem_iff_getElem.mp hmem
  obtain ⟨p, -, -, hstr⟩ := h.pointersAt.2 n hn
  exact hstr.1

theorem ArgVector.no_zeros {args envs : List (List Byte)} (hargs : ArgVector u argv args)
    (henvs : ArgVector u envp envs) : ∀ str ∈ args ++ envs, 0 ∉ str := fun str hmem =>
  (List.mem_append.mp hmem).elim (hargs.no_zero str) (henvs.no_zero str)

/-- `create_tables` in the address space of the new program. -/
theorem wp_tables {c : Current} (s₁ : Fs) (hfits : totalBytes args envs < topOffset)
    (hnot : ∀ str ∈ args ++ envs, 0 ∉ str)
    (h : HasView main j c.pgdir (loadedView rd fs ip args envs) m) :
    wp (createTables c (stringsAt args envs) args.length envs.length)
      (fun sp s' => sp = startSp args envs ∧
        (loadedView rd fs ip args envs).Mapped (startSp args envs) (args.length + envs.length + 5) ∧
        ∃ m', s' = { s₁ with mm := m' } ∧ HasView main j c.pgdir (startView rd fs ip args envs) m')
      (fun e _ => e = .exit 11 ∧ ¬ (loadedView rd fs ip args envs).Mapped (startSp args envs)
        (args.length + envs.length + 5)) { s₁ with mm := m } := by
  refine (wp_createTables_view (room_tables hfits.le) (lt_top_strings hfits.le) hnot
    (loadedView_strings hfits.le) h).imp fun sp s' ⟨hsp, hmap, hview⟩ => ?_
  subst hsp
  exact ⟨rfl, hmap, hview⟩

theorem startFrame_sp (entry p : Word) : startFrame entry p tfSp = p := by
  rw [startFrame, update_of_ne (by decide), update_self]

/-- If `do_execve` returns zero, the task has started the program. -/
theorem wp_doExecve_view {held : Multiset Word} {rootDev : Dev} {r filename : Word}
    (hI : (k.world held).Inv main) (hj : k.pgdir j = none) (hlinked : Linked rootDev ∅ none k)
    (hcur : k.task me = some cur)
    (hargs : ArgVector (callerView main (k.world held) cur.pgdir) argv args)
    (henvs : ArgVector (callerView main (k.world held) cur.pgdir) envp envs) :
    wp (doExecve rd r me filename argv envp) (fun ret k' => ret = 0 →
      ∃ ip fs, namei rd cur.current filename k.fs = .ok (some ip) fs ∧
        Started main j rd fs ip args envs me k') (fun _ _ => True) k := by
  have hpgdir (h0 : cur.pgdir ≠ 0) : ∃ i, k.pgdir i = some cur.pgdir :=
    ⟨me, Kernel.pgdir_of_task hcur h0⟩
  have hnot := hargs.no_zeros henvs
  rw [doExecve, wp_bind, wp_getTask hcur, wp_bind, wp_liftFs]
  cases hnamei : namei rd cur.current filename k.fs with
  | error e s =>
    rw [prepare, wp_bind, wp_of_error hnamei]
    trivial
  | ok o fs =>
  cases o with
  | none =>
    rw [prepare, wp_bind, wp_of_ok hnamei, wp_pure]
    exact wp_pure.mpr fun h0 => absurd h0 (by decide)
  | some ip =>
  have hfound := hlinked.found hcur hnamei
  refine (wp_prepareImage (G := False) hnamei hI hj hfound.1.mm hpgdir hargs henvs False.elim
    fun _ => ⟨fun _ _ => trivial, fun m => (wp_iput_found (fun _ _ _ => trivial) hfound.1 hfound.2
      m).imp fun _ _ h => ⟨h.1, trivial⟩⟩).imp fun image s h => ?_
  replace h := h.2
  cases image with
  | error e => exact wp_pure.mpr fun h0 => absurd h0 h
  | ok image =>
  have h : NewImage main (k.world held) j fs rd ip args envs image s := h
  obtain ⟨m, rfl, hshow⟩ := h.view
  have hstop : ∀ (e : Minix.Halt) (k : Kernel), True → True := fun _ _ h => h
  have hstart : HoldsMem me m.mem (fun _ => True) (k.setFs { fs with mm := m }) :=
    ⟨rfl, cur, hcur, trivial⟩
  -- the old program goes
  refine (keeps_mem_liftFs (keeps_iput _)).wp_then hstop hstart fun _ k' hk => ?_
  refine (keeps_mem_updateTask fun _ _ => trivial).wp_then hstop hk fun _ k' hk => ?_
  refine keeps_mem_closeOnExecFds.wp_then hstop hk fun _ k' hk => ?_
  obtain ⟨hmem, t, ht, -⟩ := hk
  rw [wp_bind, Proc.wp_liftMm]
  refine (hshow.wp_freeOld hpgdir hmem).mono (fun _ m₁ hview => ?_) fun _ _ _ => trivial
  have hview : HasView main j image.pgdir (loadedView rd fs ip args envs) m₁ := hview
  -- the new one gets its tables
  rw [wp_bind, wp_updateTask, wp_bind, wp_liftFs, h.p, h.argc, h.envc]
  refine (wp_tables k'.fs h.fits hnot hview).mono (fun sp s h' => ?_) fun _ _ _ => trivial
  obtain ⟨rfl, hmap, m₂, rfl, hview₂⟩ := h'
  have hrun : HoldsMem me m₂.mem (fun t => t.pgdir = image.pgdir)
      (((k'.setMm m₁).setTask me (((k'.setMm m₁).task me).map fun t =>
        { t with pgdir := image.pgdir })).setFs { k'.fs with mm := m₂ }) := by
    refine ⟨rfl, { t with pgdir := image.pgdir }, ?_, rfl⟩
    rw [show (k'.setMm m₁).task me = some t from ht]
    exact update_self ..
  refine Keeps.wp_then (keeps_mem_updateTask (by exact fun _ hd => hd)) hstop hrun fun _ k' hk => ?_
  refine (keeps_mem_scanHeaders (fun _ _ hd => hd)).wp_then hstop hk fun _ k' hk => ?_
  refine (keeps_mem_liftFs (keeps_iput _)).wp_then hstop hk fun _ k' hk => ?_
  obtain ⟨hmem, t', ht', hd⟩ := hk
  rw [← hd] at hview₂
  rw [wp_bind, wp_updateTask, wp_pure, ht']
  exact fun _ => ⟨ip, fs, rfl, h.fits, h.accepted, hmap, _, update_self .., startFrame_sp image.eh.entry _,
    hview₂.of_mem hmem⟩

end

end LinuxRv.Proc
