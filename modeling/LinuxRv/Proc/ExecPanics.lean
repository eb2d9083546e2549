import LinuxRv.Proc.ExecFailure

/-!
Executables that stop the kernel.

The offsets in an ELF file are taken as they are: `do_execve` reads at `e_phoff`
and at the `p_offset` of every segment, and `_bmap` panics at a block number an
inode cannot have. If all offsets are below that, `do_execve` does not panic.
-/

namespace LinuxRv.Proc

open ByteMemory Prog Fs Minix Mm

/-- What the headers of the file make `do_execve` read is in blocks an inode can
have. -/
structure FileInRange (rd : RamDisk) (s : Fs) (ip : Ino) : Prop where
  header : ∀ i < (ehdrAt rd s ip).phnum.toNat,
    FileRange ((ehdrAt rd s ip).phoff + 32 * .ofNat 32 i) 32
  segment : ∀ i < (ehdrAt rd s ip).phnum.toNat, ∀ ph,
    phdrAt rd s ip (ehdrAt rd s ip).phoff i = some ph → ph.Loads →
      ∀ n < ph.pageCount, ph.InRange (ph.first + .ofNat 32 (4096 * n))

/-- Not a panic. -/
def NoPanic {σ : Type} (e : Minix.Halt) (_ : σ) : Prop := ∀ m, e ≠ .panic m

theorem allowsStops_noPanic : AllowsStops NoPanic := fun _ _ h => h

theorem FileInRange.reads {rd : RamDisk} {s : Fs} {ip : Ino} (h : FileInRange rd s ip) :
    HeaderReads NoPanic rd s ip (ehdrAt rd s ip).phoff (ehdrAt rd s ip).phnum.toNat where
  header i hi hnot := absurd (h.header i hi) hnot
  segment i hi ph hph hload n hn hnot := absurd (h.segment i hi ph hph hload n hn) hnot

/-! ### The argument vectors -/

/-- A vector that `get_fs_long` reads as the task sees it. -/
def Aligned (pgdir argv : Word) : Prop := argv = 0 ∨ (pgdir ≠ 0 ∧ argv.toNat % 4 = 0)

section

variable {main : MainMemory} {w₀ w : World} {i j : Fin nrTasks} {own : Multiset Word}
  {pgdir a : Word}

/-- The words of the task are not touched. -/
theorem userWord_eq_of_beside (h : Beside main w₀ j own w) (hi : w₀.pgdir i = some pgdir)
    (ha : a.toNat % 4 = 0) (hmap : translateUser w₀.mm.mem pgdir a ≠ -1) :
    userWord w.mm pgdir a = userWord w₀.mm pgdir a := by
  have htrans := h.translateUser_eq hi a
  have hphys := h.base.translateUser_eq hi a
  cases he : w₀.leafAt i a with
  | none =>
    rw [World.physAddr, he] at hphys
    exact absurd hphys hmap
  | some e =>
    rw [World.physAddr, he] at hphys
    have hpa : translateUser w₀.mm.mem pgdir a = ptePhys e + .ofNat 32 (pageOffset a) :=
      hphys
    have hdata := h.base.dataFrame_leafAt he
    have hoffset : pageOffset a + 3 < 4096 := by
      rw [pageOffset, BitVec.toNat_and, show (0xfff : Word).toNat = 2 ^ 12 - 1 from rfl,
        Nat.and_two_pow_sub_one_eq_mod]
      omega
    rw [userWord, userWord, htrans, hpa]
    refine loadN_congr fun n hn => ?_
    rw [offset_add]
    exact h.data _ hdata _ (by omega)

/-- The vector of an aligned pointer does not change while it is copied. -/
theorem Aligned.pointers {E : Minix.Halt → Fs → Prop} {argv : Word} {n : ℕ} (h : Aligned pgdir argv)
    (hpgdir : pgdir ≠ 0 → ∃ i, w₀.pgdir i = some pgdir) (hn : argv = 0 → n = 0)
    (hcounted : Counted w₀.mm pgdir argv n) : Pointers E main w₀ j pgdir argv n := by
  intro l hl own m hm h0
  rcases h with h | ⟨hdir, halign⟩
  · exact absurd (hn h ▸ hl) (Nat.not_lt_zero l)
  · obtain ⟨i, hi⟩ := hpgdir hdir
    obtain ⟨w, rfl, -, hw, -⟩ := hm
    obtain ⟨hmap, hne⟩ := hcounted l hl
    have ha : (argv + 4 * .ofNat 32 l).toNat % 4 = 0 := by
      rw [BitVec.toNat_add, BitVec.toNat_mul, show (4 : Word).toNat = 4 from rfl]
      omega
    rw [userWord_eq_of_beside hw hi ha hmap] at h0
    exact absurd h0 hne

end

/-! ### After the point of no return -/

section

variable {rd : RamDisk} {main : MainMemory} {s₁ s : Fs} {k : Kernel} {me j : Slot}
  {cur : Task} {ip : Ino} {E : Minix.Halt → Fs → Prop}

/-- `create_tables` writes user memory. -/
theorem wp_createTables_same {c : Current} {p : Word} {argc envc : ℕ} (hE : AllowsStops E)
    (h : WithMm s₁ (fun _ => True) s) :
    wp (createTables c p argc envc) (fun _ => WithMm s₁ fun _ => True) E s := by
  have hexit : ∀ s, E (.exit 11) s := fun s => hE _ s fun m => by simp
  have hput (v a : Word) : Keeps (WithMm s₁ fun _ => True) E
      (Minix.liftMm (Mm.putFsLong v c.pgdir a)) := fun s h =>
    h.wp_liftMm fun m _ => (stops_putFs (S := fun e => e = .exit 11) rfl m trivial).mono
      (fun _ _ _ => trivial) fun e m' he => by rw [he]; exact hexit _
  have hget (a : Word) : Keeps (WithMm s₁ fun _ => True) E (getFsByte c a) := fun s h =>
    wp_getFs_same hE fun _ => h
  have hlen (fuel len : ℕ) (a : Word) : Keeps (WithMm s₁ fun _ => True) E
      (strLen c fuel a len) := fun s h => wp_strLen hE fun _ => h
  have hpointers (n : ℕ) (p table : Word) : Keeps (WithMm s₁ fun _ => True) E
      (putPointers c n p table) := by
    induction n generalizing p table with
    | zero => exact .bind (hput _ _) fun _ => .pure _
    | succ n ih => exact .bind (hput _ _) fun _ => .bind (hlen _ _ _) fun _ => ih _ _
  have hall : Keeps (WithMm s₁ fun _ => True) E (createTables c p argc envc) :=
    .bind (hput _ _) fun _ => .bind (hput _ _) fun _ => .bind (hput _ _) fun _ =>
      .bind (hpointers _ _ _) fun _ => .bind (hpointers _ _ _) fun _ => .pure _
  exact hall s h

/-- The file system is `s₁` but for memory, and the task closes no files. -/
structure Committed (me : Slot) (s₁ : Fs) (S : Mm.State → Prop) (k : Kernel) : Prop where
  fs : WithMm s₁ S k.fs
  task : ∃ t, k.task me = some t ∧ t.closeOnExec = 0

variable {S : Mm.State → Prop} {E : Minix.Halt → Kernel → Prop}

theorem Committed.wp_then {α : Type} {c : ProcM α} {f : α → ProcM ℤ} {Q : ℤ → Kernel → Prop}
    (h : Committed me s₁ S k) (hc : Keeps (Committed me s₁ S) E c)
    (hf : ∀ a k', Committed me s₁ S k' → wp (f a) Q E k') : wp (c >>= f) Q E k :=
  (hc k h).next fun a k' h' => hf a k' h'

theorem committed_updateTask {f : Task → Task} (hf : ∀ t, t.closeOnExec = 0 → (f t).closeOnExec = 0) :
    Keeps (Committed me s₁ S) E (updateTask me f) := by
  intro k h
  obtain ⟨t, ht, hclose⟩ := h.task
  refine wp_updateTask.mpr ⟨h.fs, f t, ?_, hf t hclose⟩
  rw [ht]
  exact Function.update_self ..

theorem committed_closeOnExecFds : Keeps (Committed me s₁ S) E (closeOnExecFds rd me) := by
  refine .bind (.forN fun fd k h => ?_) fun _ => committed_updateTask fun _ _ => rfl
  obtain ⟨t, ht, hclose⟩ := h.task
  have hbit : (0 : Word) >>> fd.1 &&& 1 = 0 := by simp
  rw [wp_bind, wp_getTask ht, hclose, if_neg (not_not.mpr hbit), wp_pure]
  exact h

theorem committed_liftFs {α : Type} {c : FsM α}
    (hc : Keeps (WithMm s₁ S) (fun e s => ∀ k : Kernel, E e (k.setFs s)) c) :
    Keeps (Committed me s₁ S) E (liftFs c) := fun k h =>
  wp_liftFs.mpr ((hc k.fs h.fs).mono (fun _ _ h' => ⟨h', h.task⟩) fun _ _ he => he k)

theorem committed_scanHeaders {phoff : Word} {n i : ℕ}
    (hrange : ∀ l, i ≤ l → l < i + n → FileRange (phoff + 32 * .ofNat 32 l) 32) :
    Keeps (Committed me s₁ S) E (scanHeaders rd me ip phoff n i) :=
  keeps_scanHeaders_of (fun l hl hlt => committed_liftFs fun _ h =>
    wp_readFile (fun hnot => absurd (hrange l hl hlt) hnot) h) fun _ => committed_updateTask fun _ h => h

/-- Giving up the old address space. -/
theorem wp_freeOld {w₀ : World} {dir : Option Word} {own : Multiset Word} {pages : Set ℕ}
    {m : Mm.State} {E : Mm.Halt → Mm.State → Prop} {pgdir : Word}
    (h : SpareSpace main w₀ j dir own pages m) (hpgdir : pgdir ≠ 0 → ∃ i, w₀.pgdir i = some pgdir) :
    wp (Mm.freePageTables pgdir) (fun _ _ => True) E m := by
  by_cases h0 : pgdir = 0
  · rw [Mm.freePageTables, if_pos h0, wp_pure]
    trivial
  · obtain ⟨i, hi⟩ := hpgdir h0
    obtain ⟨w, rfl, -, hw, -⟩ := h
    exact hw.inv.wp_freePageTables ((hw.pgdir i (hw.ne_spare hi)).trans hi)
      fun _ _ _ _ _ _ _ _ => trivial

end

/-! ### One file -/

/-- One segment of zeros, at `0x1000`. -/
def zeroProgram : List Byte := elfHeader [52, 0, 0, 0] 1 ++ zeroSegment 0 0x10

theorem zeroProgram_found : leadsTo zeroProgram (fun cur ip fs => decide (
    (cur.executable = none ∧ cur.closeOnExec = 0) ∧ IsProgram 1 cur ip fs ∧ IsPuttable ip fs ∧
      phdrAt smallDisk fs ip 52 0 = some (segmentAt 0x1000))) = true := by
  decide +kernel

/-- A file that says its program headers are at `0xff000000`. -/
def farHeaders : List Byte := elfHeader [0, 0, 0, 0xff] 1

end LinuxRv.Proc
