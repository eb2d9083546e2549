import LinuxRv.Minix.InodeKeys
import LinuxRv.Proc.ExecImage

/-!
A failed `execve`.

Up to the point of no return `do_execve` only takes memory and the inode of the
file. On every path on which it fails it gives back the inode, the argument
pages, and what the new directory maps. A page that has been mapped over by a
later segment is in neither of these, and its frame is lost.
-/

namespace LinuxRv.Proc

open ByteMemory Prog RefCount Fs Minix Mm Function List Option Proc.Kernel

/-- What the caller and the others see of a failed `execve`: nothing. The table
of tasks has the directories, the handlers, the open files, the bounds of the
programs and the trap frames. -/
structure ExecUnchanged (k k' : Kernel) : Prop where
  task : k'.task = k.task
  file : k'.file = k.file
  count : ∀ ip, (k'.fs.inode ip).count = (k.fs.inode ip).count
  memMap : k'.fs.mm.memMap = k.fs.mm.memMap
  contents : (k'.world 0).contents = (k.world 0).contents

/-- No two segments of the file have a page in common. -/
def FileApart (rd : RamDisk) (s : Fs) (ip : Ino) : Prop :=
  Apart rd s ip (ehdrAt rd s ip).phoff (ehdrAt rd s ip).phnum.toNat

section

variable {rd : RamDisk} {rootDev : Dev} {main : MainMemory} {k : Kernel} {me j : Slot} {cur : Task}
  {held : Multiset Word} {r filename argv envp : Word}

/-- `iput` of an inode that a name has led to. -/
theorem wp_iput_found {F : Still} {refs : Ino → ℕ} {s₁ : Fs} {ip : Ino}
    {E : Minix.Halt → Fs → Prop} (hE : ∀ e s, NotFree e s → E e s)
    (h : Holds F (addRef refs ip) s₁) (hip : F.pipe ip = false) (m : Mm.State) :
    wp (iput rd (some ip)) (fun _ s' => s'.mm = m ∧ ∀ ip, (s'.inode ip).count.toNat = refs ip) E
      { s₁ with mm := m } := by
  have h' : Holds ⟨m, F.pipe, F.super⟩ (addRef refs ip) { s₁ with mm := m } :=
    ⟨rfl, h.count, h.pipe, h.noDevice, h.live, h.super, h.mounted⟩
  exact (h'.wp_iput hip).mono (fun _ _ h => ⟨h.mm, h.count⟩) hE

/-- What a name leads to. -/
theorem Linked.found {o : Option Ino} {fs : Fs} (h : Linked rootDev ∅ none k)
    (hcur : k.task me = some cur) (hn : namei rd cur.current filename k.fs = .ok o fs) :
    Found ⟨k.fs.mm, pipes k.fs, k.fs.super⟩
      (fun ip => k.refs ∅ none ip + superRefs k.fs.super ip) o fs :=
  (h.refs.holds.wp_namei ((h.noPipe hcur).plain k.fs.super)
    (((room_refs ∅ none k).mono (by decide)).add_super k.fs.super)).of_ok hn

theorem ExecUnchanged.of_space {fs : Fs} {pages : Set ℕ} {w₀ : World}
    (hw₀ : w₀ = k.world held) (h : SpareSpace main w₀ j none 0 pages fs.mm)
    (hcount : ∀ ip, (fs.inode ip).count = (k.fs.inode ip).count) :
    ExecUnchanged k (k.setFs fs) := by
  subst hw₀
  obtain ⟨w, hmm, hnone, hw, -⟩ := h
  have hpgdir : w.pgdir = k.pgdir := by
    funext i
    by_cases hi : i = j
    · rw [hi, hnone]
      exact hw.spare.symm
    · exact hw.pgdir i hi
  refine ⟨rfl, rfl, hcount, ?_, ?_⟩
  · show fs.mm.memMap = _
    rw [← hmm]
    exact hw.memMap_eq hnone
  · have hworld : ((k.setFs fs).world 0).contents = w.contents := by
      show Mm.contents k.pgdir fs.mm.mem = Mm.contents w.pgdir w.mm.mem
      rw [hpgdir, hmm]
    rw [hworld]
    funext i p
    by_cases hi : i = j
    · have hentry : w.view.entry (.leaf i p.1 p.2) = none :=
        World.entry_of_none (by rw [← hnone]; exact congrArg w.pgdir hi)
      have hentry₀ : (k.world 0).view.entry (.leaf i p.1 p.2) = none :=
        World.entry_of_none (by
          show k.pgdir i = none
          rw [hi]
          exact hw.spare)
      rw [w.contents_of_none hentry, (k.world 0).contents_of_none hentry₀]
    · exact hw.contents_eq hi p

end

/-! ### Two segments in one page -/

/-- A segment of zeros: nothing of it is in the file. -/
def Phdr.Zeros (ph : Phdr) : Prop :=
  ∀ n < ph.pageCount, ¬ ph.foff (ph.first + .ofNat 32 (4096 * n)) < ph.fileEnd

/-- The first two program headers are for the same pages of zeros, and the third
one is refused. -/
structure Collides (rd : RamDisk) (s : Fs) (ip : Ino) (phoff : Word) (ph bad : Phdr) :
    Prop where
  first : phdrAt rd s ip phoff 0 = some ph
  second : phdrAt rd s ip phoff 1 = some ph
  third : phdrAt rd s ip phoff 2 = some bad
  loads : ph.Loads
  zeros : ph.Zeros
  pages : ph.pages.Nonempty
  type : bad.type = 1
  refused : ¬ bad.Loads
  range : ∀ i < 3, FileRange (phoff + 32 * .ofNat 32 i) 32

section

variable {rd : RamDisk} {main : MainMemory} {w₀ : World} {j : Slot} {s₁ s : Fs} {ip : Ino}
  {E : Minix.Halt → Fs → Prop} {d : Word} {own : Multiset Word} {pages : Set ℕ}
  {ph bad : Phdr} {m : Mm.State}

/-- The pages of the first segment are lost. -/
theorem wp_loadHeaders_lost {phoff : Word} {n : ℕ} (hc : Collides rd s₁ ip phoff ph bad)
    (hspace : SpareSpace main w₀ j (some d) own pages m)
    (h : 4 * ph.pageCount ≤ freeFrames m.memMap) : wp (loadHeaders rd ip phoff d (n + 3) 0)
      (fun o s' => ∃ lost pages', o = some (-enoexec) ∧ lost ≠ 0 ∧
        Building main w₀ j s₁ d lost pages' s') E { s₁ with mm := m } := by
  have hzeros (k : ℕ) (hk : k < ph.pageCount) :
      ph.Readable rd s₁ ip (ph.first + .ofNat 32 (4096 * k)) :=
    fun hin => absurd hin (hc.zeros k hk)
  -- both segments are the same, so the step is the same as well
  have hstep {i n f : ℕ} {Q : Option ℤ → Fs → Prop} {m : Mm.State} {own : Multiset Word}
      {pages : Set ℕ} (hi : i < 3) (hph : phdrAt rd s₁ ip phoff i = some ph)
      (hspace : SpareSpace main w₀ j (some d) own pages m)
      (h : f + 2 * ph.pageCount ≤ freeFrames m.memMap)
      (hQ : ∀ lost m', SpareSpace main w₀ j (some d) (lost + own) (pages ∪ ph.pages) m' →
        (lost = 0 → Disjoint ph.pages pages) → f ≤ freeFrames m'.memMap →
        wp (loadHeaders rd ip phoff d n (i + 1)) Q E { s₁ with mm := m' }) :
      wp (loadHeaders rd ip phoff d (n + 1) i) Q E { s₁ with mm := m } := by
    refine wp_loadHeaders_step ⟨m, rfl⟩ (fun hnot => absurd (hc.range i hi) hnot)
      (fun hnone => ?_) (fun ph' hph' htype => ?_) (fun ph' hph' _ hnot => ?_) fun ph' hph' _ => ?_
    · exact absurd (hph.symm.trans hnone) (by simp)
    · obtain rfl := some.inj (hph.symm.trans hph')
      exact absurd hc.loads.1 htype
    · obtain rfl := some.inj (hph.symm.trans hph')
      exact absurd hc.loads hnot
    · obtain rfl := some.inj (hph.symm.trans hph')
      refine (wp_loadSegment hc.loads (fun k hk hnot => ?_) hspace).imp
        fun ok s' ⟨⟨lost, pages', ⟨m', hs, h'⟩, _, _, hall⟩, hfill⟩ => ?_
      · exact absurd (fun hin => (hzeros k hk hin).1) hnot
      subst hs
      obtain ⟨hok, hm⟩ := hfill.room hzeros f h
      obtain ⟨rfl, hlost⟩ := hall hok
      rw [if_pos hok]
      exact hQ lost m' h' hlost hm
  refine hstep (by decide) hc.first hspace (f := 2 * ph.pageCount) (by omega)
    fun lost m hspace _ h => ?_
  refine hstep (by decide) hc.second hspace (f := 0) (by omega) fun lost' m hspace hlost _ => ?_
  refine wp_loadHeaders_step ⟨m, rfl⟩ (fun hnot => absurd (hc.range 2 (by decide)) hnot) (fun hnone
    => ?_) (fun ph' hph' htype => ?_) (fun ph' hph' _ _ => ?_) fun ph' hph' hl => ?_
  · exact absurd (hc.third.symm.trans hnone) (by simp)
  · obtain rfl := some.inj (hc.third.symm.trans hph')
    exact absurd hc.type htype
  · refine ⟨_, _, rfl, fun hzero => ?_, m, rfl, hspace⟩
    have hdisj := hlost (add_eq_zero.mp hzero).1
    obtain ⟨k, hk⟩ := hc.pages
    exact Set.disjoint_left.mp hdisj hk (.inr hk)
  · obtain rfl := some.inj (hc.third.symm.trans hph')
    exact absurd hl hc.refused

theorem wp_putArgPages_none {l : List (Fin maxArgPages)}
    {Q : Bool × (Fin maxArgPages → Word) → Fs → Prop} :
    wp (putArgPages d (fun _ => 0) l) Q E s ↔ Q (true, fun _ => 0) s := by
  induction l with
  | nil => exact wp_pure
  | cons i l ih => rw [putArgPages, if_pos rfl, ih]

theorem wp_buildSpace_lost {eh : Ehdr} {p : Word} {argc envc n : ℕ}
    (hput : s₁.Puttable rd ip) (hc : Collides rd s₁ ip eh.phoff ph bad)
    (hphnum : eh.phnum.toNat = n + 3) (h : SpareSpace main w₀ j none (argOwn fun _ => 0) ∅ m)
    (hroom : 4 * ph.pageCount + 1 ≤ freeFrames m.memMap) :
    wp (buildSpace rd ip eh p (fun _ => 0) argc envc)
      (fun r s' => (∃ e : ℤ, e < 0 ∧ r = .error e) ∧ s'.mm.memMap ≠ w₀.mm.memMap) E
      { s₁ with mm := m } := by
  have hiput (m : Mm.State) : wp (iput rd (some ip)) (fun _ s' => s'.mm = m ∧ True) E
      { s₁ with mm := m } := by
    have hput' : Fs.Puttable rd { s₁ with mm := m } ip :=
      ⟨hput.count, hput.pipe, hput.device, hput.mode, hput.nlinks, hput.block⟩
    exact hput'.wp_iput.imp fun _ _ hmm => ⟨hmm, trivial⟩
  rw [buildSpace, wp_bind, Minix.wp_liftMm]
  refine h.wp_getFreePage.imp fun d m₁ h₁ => ?_
  obtain ⟨-, -, -, h₁⟩ := h₁
  refine wp_ite.mpr ⟨fun h0 => ?_, fun h0 => ?_⟩
  · rw [if_pos h0] at h₁
    omega
  rw [if_neg h0] at h₁
  obtain ⟨h₁, -, hfree⟩ := h₁
  rw [wp_bind, Minix.wp_liftMm]
  refine h₁.wp_newDirectory.imp fun _ m₂ h₂ => ?_
  obtain ⟨-, hmap, -, h₂⟩ := h₂
  rw [wp_bind, wp_putArgPages_none, hphnum]
  refine (wp_loadHeaders_lost hc h₂ (by rw [hmap]; omega)).next fun o s h => ?_
  obtain ⟨lost, pages, rfl, hlost, h⟩ := h
  refine (h.wp_liftMm fun _ hm => hm.wp_freePageTables).next fun _ s h => ?_
  have h : WithMm s₁ (SpareSpace main w₀ j none (argOwn (fun _ => 0) + lost) ∅) s := by
    rwa [argOwn_zero, zero_add]
  refine (wp_giveBack (I := fun _ => True) hiput h).next fun _ s h => wp_pure.mpr ?_
  exact ⟨⟨-enoexec, by decide, rfl⟩, h.1.memMap_ne hlost⟩

theorem wp_copyStrings_none {cur : Current} {argv p : Word} {page : Fin maxArgPages → Word}
    {Q : Word × (Fin maxArgPages → Word) → Fs → Prop} :
    wp (copyStrings cur 0 argv page p) Q E s ↔ Q (p, page) s := by
  by_cases hp : p = 0
  · rw [copyStrings, if_pos hp, wp_pure, hp]
  · rw [copyStrings, if_neg hp, wp_bind, copyStringsFrom, wp_pure, wp_pure]

/-- A caller without arguments and a file with two segments in one page. -/
theorem wp_doExecve_lost {k : Kernel} {me : Slot} {cur : Task} {held : Multiset Word}
    {r filename : Word} {fs : Fs} {n : ℕ} {E : Minix.Halt → Kernel → Prop}
    (hI : (k.world held).Inv main) (hj : k.pgdir j = none) (hcur : k.task me = some cur)
    (hnamei : namei rd cur.current filename k.fs = .ok (some ip) fs) (hmm : fs.mm = k.fs.mm)
    (hput : fs.Puttable rd ip) (hreg : isReg (fs.inode ip).mode = true)
    (hmay : mayRun cur.current (fs.inode ip) = true) (hread : (fileBytes rd fs ip 52 0 52).1 = true)
    (hrun : (ehdrAt rd fs ip).runnable = true) (hphnum : (ehdrAt rd fs ip).phnum.toNat = n + 3)
    (hc : Collides rd fs ip (ehdrAt rd fs ip).phoff ph bad)
    (hroom : 4 * ph.pageCount + 1 ≤ freeFrames k.fs.mm.memMap) :
    wp (doExecve rd r me filename 0 0) (fun ret k' => ret < 0 ∧
      k'.fs.mm.memMap ≠ k.fs.mm.memMap) E k := by
  have hnone : SpareSpace main (k.world held) j none (argOwn fun _ => 0) ∅ fs.mm := by
    rw [argOwn_zero, hmm]
    exact spareSpace_start hI hj
  rw [← hmm] at hroom
  have hcount {s : Fs} {E : Minix.Halt → Fs → Prop} {Q : ℕ → Fs → Prop} :
      wp (countArgs cur.current 0) Q E s ↔ Q 0 s := by
    rw [countArgs, if_pos rfl, wp_pure]
  rw [doExecve, wp_bind, wp_getTask hcur, wp_bind, wp_liftFs, prepare, wp_bind, wp_of_ok hnamei]
  simp only [wp_bind, hcount, readInodeTable, wp_get, wp_pure]
  rw [hreg, hmay]
  simp only [Bool.not_true, Bool.false_eq_true, if_false, wp_bind]
  refine wp_readFile (fun hnot => absurd (by decide) hnot) ?_
  have hrun' : (Ehdr.ofBytes (fileBytes rd fs ip 52 0 52).2).runnable = true := hrun
  simp only [hread, hrun', Bool.not_true, Bool.false_eq_true, if_false, wp_bind,
    wp_copyStrings_none]
  rw [if_neg (by decide)]
  refine (wp_buildSpace_lost hput hc hphnum hnone hroom).imp fun r s' h => ?_
  obtain ⟨⟨e, he, hr⟩, hne⟩ := h
  rw [hr]
  exact wp_pure.mpr ⟨he, hne⟩

end

/-! ### A kernel with one file -/

def blockOfList (l : List Byte) : Block := fun o => l.getD o 0

/-- The path `/f`, in memory no page is taken from. -/
def pathAt : Word := 0x100

/-- Inode 2 is `/f`, a program with its contents in block 6. -/
def oneFile (file : List Byte) : Fs where
  mm := ⟨fun a => if a = pathAt then 0x2f else if a = pathAt + 1 then 0x66 else 0,
    fun n => if n < 1024 then used else 0, false⟩
  data _ block := blockOfList <|
    if block = 4 then
      replicate 32 0 ++ [0xed, 0x81, 0, 0, 0, 4] ++ replicate 7 0 ++ [1, 6]
    else if block = 5 then [2, 0, 0x66]
    else if block = 6 then file
    else []
  users _ _ := 0
  inode ip :=
    if ip = 0 then ⟨⟨0x41ed, 0, 16, 0, 0, 2, fun i => if i = 0 then 5 else 0⟩, 0, 0, rdDev, 1, 2,
      false, false, false⟩
    else .cleared
  lastInode := 0
  super i :=
    if i = 0 then ⟨32, 64, 1, 1, 5, 0x137f, fun k => if k = 0 then some 2 else none,
      fun k => if k = 0 then some 3 else none, rdDev, none, none⟩
    else ⟨0, 0, 0, 0, 0, 0, fun _ => none, fun _ => none, 0, none, none⟩
  now := 0
  stale _ _ _ := 0

/-- One task, which has no address space yet. -/
def oneFileKernel (file : List Byte) : Kernel :=
  let k := (single (oneFile file).mm 0).setFs (oneFile file)
  k.setTask 0 ((k.task 0).map fun t => { t with pwd := some 0, root := some 0 })

/-- An ELF header with `phnum` program headers at `phoff`. -/
def elfHeader (phoff : List Byte) (phnum : Byte) : List Byte :=
  [0x7f, 0x45, 0x4c, 0x46] ++ replicate 12 0 ++ [2, 0, 243, 0] ++ replicate 8 0 ++
    phoff ++ replicate 10 0 ++ [32, 0, phnum, 0] ++ replicate 6 0

/-- A segment of one zero byte at an address with the upper bytes `hi` and `lo`. -/
def zeroSegment (hi lo : Byte) : List Byte :=
  [1, 0, 0, 0] ++ replicate 5 0 ++ [lo, 0, hi] ++ replicate 8 0 ++ [1, 0, 0, 0] ++ replicate 8 0

theorem oneFileKernel_pgdir (file : List Byte) (i : Slot) : (oneFileKernel file).pgdir i = none := by
  by_cases hi : i = 0
  · subst hi
    rfl
  · have htask : (oneFileKernel file).task i = none :=
      (update_of_ne hi ..).trans (if_neg hi)
    rw [pgdir, htask]
    rfl

theorem oneFileKernel_inv (file : List Byte) : ((oneFileKernel file).world 0).Inv mainFrom4M := by
  have hworld : (oneFileKernel file).world 0 = ⟨(oneFile file).mm, fun _ => none, 0⟩ := by
    rw [world, funext (oneFileKernel_pgdir file)]
    rfl
  rw [hworld]
  exact countsFrom4M_inv ..

theorem oneFileKernel_taskRef (file : List Byte) : (oneFileKernel file).taskRef = fun d =>
    if d.1 = 0 ∧ d.2 ≠ 2 then some 0 else none := by
  funext d
  obtain ⟨i, l⟩ := d
  by_cases hi : i = 0
  · subst hi
    match l with
    | 0 | 1 | 2 => rfl
  · have htask : (oneFileKernel file).task i = none :=
      (update_of_ne hi ..).trans (if_neg hi)
    rw [taskRef, htask, if_neg fun h => hi h.1]
    rfl

theorem oneFileKernel_super (file : List Byte) (i : Fin nrSuper) :
    ((oneFileKernel file).fs.super i).isup = none ∧
      ((oneFileKernel file).fs.super i).imount = none := by
  by_cases hi : i = 0
  · subst hi
    exact ⟨rfl, rfl⟩
  · have hentry : (oneFileKernel file).fs.super i = _ := if_neg hi
    rw [hentry]
    exact ⟨rfl, rfl⟩

theorem oneFileKernel_refs (file : List Byte) (ip : Ino) :
    (oneFileKernel file).refs ∅ none ip + superRefs (oneFileKernel file).fs.super ip =
      if ip = 0 then 2 else 0 := by
  have hsuper := oneFileKernel_super file
  have hfile : occurrences ((oneFileKernel file).fileRef ∅) ip = 0 :=
    occurrences_eq_zero_iff.mpr fun f hf => by cases hf
  have hup : superRefs (oneFileKernel file).fs.super ip = 0 := by
    rw [superRefs, occurrences_eq_zero_iff.mpr, occurrences_eq_zero_iff.mpr]
    · exact fun i hi => by rw [(hsuper i).2] at hi; cases hi
    · exact fun i hi => by rw [(hsuper i).1] at hi; cases hi
  rw [refs, hfile, hup, oneFileKernel_taskRef]
  clear hfile hup
  revert ip
  decide +kernel

theorem oneFileKernel_linked (file : List Byte) : Linked rdDev ∅ none (oneFileKernel file) := by
  have hpipe (ip : Ino) : pipes (oneFileKernel file).fs ip = false := by
    by_cases hip : ip = 0
    · subst hip
      rfl
    · exact congrArg MInode.pipe (if_neg hip)
  have hnot {ip : Ino} (hp : pipes (oneFileKernel file).fs ip = true) : False := by
    rw [hpipe] at hp
    cases hp
  have hsuper := oneFileKernel_super file
  have hmounted (i : Fin nrSuper) (ip : Ino)
      (hi : ((oneFileKernel file).fs.super i).imount = some ip) : False := by
    rw [(hsuper i).2] at hi
    cases hi
  refine ⟨⟨⟨rfl, fun ip => ?_, fun _ => rfl, fun _ hp => (hnot hp).elim, fun _ hp => (hnot hp).elim,
    rfl, fun i ip hi => (hmounted i ip hi).elim⟩, ⟨fun i _ => hsuper i, fun i hi => absurd (hsuper
    i).1 hi⟩⟩, fun _ _ _ => hpipe _, fun _ hnone => absurd hnone (by simp), fun i t ht hz => ?_⟩
  · rw [oneFileKernel_refs]
    by_cases hip : ip = 0
    · subst hip
      rfl
    · rw [if_neg hip]
      exact congrArg (fun n : MInode => n.count.toNat) (if_neg hip)
  · by_cases hi : i = 0
    · subst hi
      obtain rfl := some.inj ht
      cases hz
    · rw [show (oneFileKernel file).task i = none from (update_of_ne hi ..).trans (if_neg hi)] at ht
      cases ht

/-- Whether the path leads to a file with `P`, to be evaluated. -/
def leadsTo (file : List Byte) (P : Task → Ino → Fs → Bool) : Bool :=
  match (oneFileKernel file).task 0 with
  | none => false
  | some cur =>
    match namei smallDisk cur.current pathAt (oneFileKernel file).fs with
    | .ok (some ip) fs => P cur ip fs
    | _ => false

theorem exists_of_leadsTo {file : List Byte} {P : Task → Ino → Fs → Bool}
    (h : leadsTo file P = true) : ∃ cur ip fs, (oneFileKernel file).task 0 = some cur ∧
      namei smallDisk cur.current pathAt (oneFileKernel file).fs = .ok (some ip) fs ∧
      P cur ip fs = true := by
  unfold leadsTo at h
  cases hcur : (oneFileKernel file).task 0 with
  | none => simp [hcur] at h
  | some cur =>
    simp only [hcur] at h
    cases hn : namei smallDisk cur.current pathAt (oneFileKernel file).fs with
    | error e fs => simp [hn] at h
    | ok o fs =>
      cases o with
      | none => simp [hn] at h
      | some ip =>
        simp only [hn] at h
        exact ⟨cur, ip, fs, rfl, hn, h⟩

/-- A program the task may run, with `phnum` program headers. -/
def IsProgram (phnum : Word) (cur : Task) (ip : Ino) (fs : Fs) : Prop :=
  isReg (fs.inode ip).mode = true ∧ mayRun cur.current (fs.inode ip) = true ∧
    (fileBytes smallDisk fs ip 52 0 52).1 = true ∧ (ehdrAt smallDisk fs ip).runnable = true ∧
    (ehdrAt smallDisk fs ip).phnum = phnum ∧ (ehdrAt smallDisk fs ip).phoff = 52

instance (phnum : Word) (cur : Task) (ip : Ino) (fs : Fs) :
    Decidable (IsProgram phnum cur ip fs) := inferInstanceAs (Decidable (_ ∧ _))

def IsPuttable (ip : Ino) (fs : Fs) : Prop :=
  ((fs.inode ip).count ≠ 0 ∧ (fs.inode ip).pipe = false ∧ (fs.inode ip).dev ≠ 0 ∧
    isBlk (fs.inode ip).mode = false ∧ (fs.inode ip).nlinks ≠ 0) ∧
    fs.inodeBlock ip = some 4 ∧ OnDisk smallDisk (fs.inode ip).dev 4

instance (ip : Ino) (fs : Fs) : Decidable (IsPuttable ip fs) :=
  inferInstanceAs (Decidable (_ ∧ _))

theorem IsPuttable.puttable {ip : Ino} {fs : Fs} (h : IsPuttable ip fs) :
    fs.Puttable smallDisk ip := by
  obtain ⟨⟨hcount, hpipe, hdev, hmode, hlinks⟩, hblock⟩ := h
  exact ⟨hcount, hpipe, hdev, hmode, hlinks, 4, hblock⟩

def segmentAt (vaddr : Word) : Phdr := ⟨1, 0, vaddr, 0, 1⟩

/-- Two segments at `0x1000`, and one at the kernel's addresses. -/
def twoInOnePage : List Byte :=
  elfHeader [52, 0, 0, 0] 3 ++ zeroSegment 0 0x10 ++ zeroSegment 0 0x10 ++ zeroSegment 0x80 0

theorem twoInOnePage_found : leadsTo twoInOnePage (fun cur ip fs => decide (
    IsProgram 3 cur ip fs ∧ IsPuttable ip fs ∧
      phdrAt smallDisk fs ip 52 0 = some (segmentAt 0x1000) ∧
      phdrAt smallDisk fs ip 52 1 = some (segmentAt 0x1000) ∧
      phdrAt smallDisk fs ip 52 2 = some (segmentAt 0x80000000))) = true := by
  decide +kernel

theorem collides_of_found {ip : Ino} {fs : Fs}
    (h0 : phdrAt smallDisk fs ip 52 0 = some (segmentAt 0x1000))
    (h1 : phdrAt smallDisk fs ip 52 1 = some (segmentAt 0x1000))
    (h2 : phdrAt smallDisk fs ip 52 2 = some (segmentAt 0x80000000)) :
    Collides smallDisk fs ip 52 (segmentAt 0x1000) (segmentAt 0x80000000) := by
  have hcount : (segmentAt 0x1000).pageCount = 1 := by decide
  refine ⟨h0, h1, h2, by decide, fun n hn => ?_, ⟨1, ?_⟩, rfl, by decide, by decide⟩
  · rw [hcount, Nat.lt_one_iff] at hn
    subst hn
    decide
  · show _ ≤ 1 ∧ 1 < _
    decide

theorem freeFrames_oneFile (file : List Byte) : 31744 ≤ freeFrames (oneFile file).mm.memMap :=
  le_freeFrames_countsFrom4M

/-- One segment, at the kernel's addresses: `execve` refuses the file. -/
def refusedFile : List Byte := elfHeader [52, 0, 0, 0] 1 ++ zeroSegment 0x80 0

end LinuxRv.Proc
