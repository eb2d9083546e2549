import LinuxRv.Minix.FileBlocks
import LinuxRv.Minix.InodeKeys
import LinuxRv.Proc.Fork
import LinuxRv.Proc.ReadWrite

/-!
Offsets and the block map (`fs/read_write.c`, `fs/file_dev.c`, `_bmap` of
`fs/inode.c`): `lseek` takes every offset that is not negative, and a file has at
most `maxBlocks` blocks.
-/

namespace LinuxRv.Proc

open ByteMemory Prog Fs Minix Function Proc.Kernel
open BitVec (lt_def toInt_eq_toNat_cond toNat_add toNat_ofNat)

/-- Neither a panic of `_bmap` nor an access outside of a buffer. -/
def Contained (e : Minix.Halt) : Prop :=
  e ≠ .panic "_bmap: block<0" ∧ e ≠ .panic "_bmap: block>big" ∧ e ≠ .wild

/-- A descriptor of a regular file. -/
structure Opened (k : Kernel) (me : Slot) (fd : Word) (f : Fin nrFile) (ip : Ino)
    (pos size : Word) (append : Bool) : Prop where
  task : ∃ t, k.task me = some t ∧ t.fileOf fd = some f
  inode : (k.file f).inode = some ip
  reg : isReg (k.fs.inode ip).mode = true
  pipe : (k.fs.inode ip).pipe = false
  pos : (k.file f).pos = pos
  size : (k.fs.inode ip).size = size
  append : decide ((k.file f).flags &&& oAppend ≠ 0) = append

/-- `c` leaves no negative offset, and does not stop at a block that no file has. -/
def OffsetSafe {α : Type} (f : Fin nrFile) (c : ProcM α) (k : Kernel) : Prop :=
  wp c (fun _ k' => 0 ≤ (k'.file f).pos.toInt) (fun e _ => Contained e) k

/-- So do the calls on every regular file with these values. -/
def CallsSafe (pos size : Word) (append : Bool) (count : Word) : Prop :=
  ∀ rd typed me fd buf f ip k, Opened k me fd f ip pos size append →
    (∀ offset origin, OffsetSafe f (sysLseek me fd offset origin) k) ∧
      OffsetSafe f (sysRead rd typed me fd buf count) k ∧
      OffsetSafe f (sysWrite rd me fd buf count) k

/-- Where `file_write` starts. -/
def writeStart (pos size : Word) (append : Bool) : Word := if append then size else pos

instance : IgnoresBlocks (fun _ => True) (fun e _ => Contained e) where
  congr _ _ _ _ := trivial
  setInode _ _ _ _ := trivial
  stop _ h := ⟨h.ne (by decide), h.ne (by decide), by rintro rfl; exact h⟩

/-! ### Positions -/

section

variable {pos : Word} {n : ℕ}

theorem block_in_range (h0 : 0 ≤ pos.toInt) (h : pos.toInt < 1024 * maxBlocks) :
    0 ≤ pos.toInt.tdiv 1024 ∧ pos.toInt.tdiv 1024 < maxBlocks := by
  rw [Int.tdiv_eq_ediv_of_nonneg h0]
  omega

theorem toInt_advance (h0 : 0 ≤ pos.toInt) (h : pos.toInt + n ≤ 1024 * maxBlocks) :
    (pos + .ofNat 32 n).toInt = pos.toInt + n := by
  have hmax : maxBlocks = 262663 := rfl
  have hlt := pos.isLt
  rw [toInt_eq_toNat_cond] at h0 h ⊢
  rw [toInt_eq_toNat_cond, toNat_add, toNat_ofNat]
  omega

end

/-! ### What the calls do within the size of a file -/

section

variable {rd : RamDisk} {pgdir : Word} {ip : Ino} {f : Fin nrFile} {count fuel i left : ℕ}
  {buf pos : Word} {k : Kernel} {s : Fs} {α : Type} {Q : α → Kernel → Prop} {c : FsM α}

theorem wp_liftFs_contained (hc : Keeps (fun _ => True) (fun e _ => Contained e) c)
    (hQ : ∀ a s, Q a (k.setFs s)) : wp (liftFs c) Q (fun e _ => Contained e) k :=
  wp_liftFs.mpr ((hc k.fs trivial).imp fun a s _ => hQ a s)

theorem wp_liftMm_contained {c : Mm.M α} (hc : Mm.Stops (fun e => Contained (.ofMm e)) c)
    (hQ : ∀ a mm, Q a (k.setMm mm)) : wp (liftMm c) Q (fun e _ => Contained e) k :=
  wp_liftMm.mpr ((hc k.fs.mm trivial).imp fun a mm _ => hQ a mm)

theorem wp_then_any {β : Type} {g : α → FsM β} {Q : β → Fs → Prop} {E : Minix.Halt → Fs → Prop}
    (hc : Keeps (fun _ => True) E c) (hg : ∀ a s', wp (g a) Q E s') : wp (c >>= g) Q E s :=
  hc.wp_then (fun _ _ h => h) trivial fun a s' _ => hg a s'

theorem Kernel.pos_setFile {file : File} : ((k.setFile f file).file f).pos = file.pos :=
  congrArg File.pos (update_self ..)

theorem contained_exit {n : ℕ} : Contained (.ofMm (.exit n)) := ⟨nofun, nofun, nofun⟩

theorem offsetSafe_fileReadFrom (h0 : 0 ≤ (k.file f).pos.toInt)
    (hmax : (k.file f).pos.toInt + left ≤ 1024 * maxBlocks) :
    OffsetSafe f (fileReadFrom rd pgdir ip f fuel left buf) k := by
  induction fuel generalizing left buf k with
  | zero => exact wp_pure.mpr h0
  | succ fuel ih =>
    refine wp_ite.mpr ⟨fun _ => wp_pure.mpr h0, fun hleft => ?_⟩
    rw [wp_bind, wp_get]
    obtain ⟨hb, hb'⟩ := block_in_range h0 (by omega)
    refine wp_bind.mpr (wp_liftFs_contained (keeps_bmapWith_of_lt hb hb') fun z s => ?_)
    rw [wp_bind, wp_get]
    dsimp only
    rw [Int.tmod_eq_emod_of_nonneg h0]
    generalize hchars : (min (1024 - (k.file f).pos.toInt % 1024) (left : ℤ)).toNat = chars
    -- the rounds that follow, from any state with the new position
    have hnext {k' : Kernel} (hk : (k'.file f).pos = (k.file f).pos + .ofNat 32 chars) :
        OffsetSafe f (fileReadFrom rd pgdir ip f fuel (left - chars)
          (buf + .ofNat 32 chars)) k' := by
      have hto : (k'.file f).pos.toInt = (k.file f).pos.toInt + chars := by
        rw [hk, toInt_advance h0 (by omega)]
      exact ih (by omega) (by omega)
    refine wp_ite.mpr ⟨fun _ => ?_, fun _ => wp_bind.mpr (wp_liftFs_contained keeps_bread
      fun found s' => wp_ite.mpr ⟨fun _ => ?_, fun _ => wp_pure.mpr h0⟩)⟩
    · rw [wp_bind, setPos, wp_updateFile]
      exact wp_bind.mpr (wp_liftMm_contained (stops_putBytes contained_exit) fun _ mm =>
        hnext pos_setFile)
    · rw [if_neg (by omega), wp_bind, setPos, wp_updateFile, wp_bind, wp_get]
      refine wp_bind.mpr (wp_liftMm_contained (stops_putBytes contained_exit) fun _ mm => ?_)
      exact wp_bind.mpr (wp_liftFs_contained keeps_brelse fun _ s'' => hnext pos_setFile)

theorem keeps_copyIn {dev : Dev} {block : BlockNr} {n c : ℕ} :
    Keeps (fun _ => True) (fun e _ => Contained e) (copyIn pgdir dev block n c buf) := by
  induction n generalizing c buf with
  | zero => exact Keeps.pure _
  | succ n ih =>
    exact (keeps_liftMm_stops (Mm.stops_getFs contained_exit)).bind fun _ =>
      keeps_updateData.bind fun _ => ih

theorem wp_fileWriteFrom_contained (h0 : 0 ≤ pos.toInt)
    (hmax : pos.toInt + (count - i : ℕ) ≤ 1024 * maxBlocks) :
    wp (fileWriteFrom rd pgdir ip count fuel i pos buf) (fun r _ => 0 ≤ r.2.toInt)
      (fun e _ => Contained e) s := by
  induction fuel generalizing i pos buf s with
  | zero => exact wp_pure.mpr h0
  | succ fuel ih =>
    refine wp_ite.mpr ⟨fun _ => wp_pure.mpr h0, fun hi => ?_⟩
    obtain ⟨hb, hb'⟩ := block_in_range h0 (by omega)
    refine wp_then_any (keeps_bmapWith_of_lt hb hb') fun z s' => ?_
    refine wp_then_any keeps_readInodeTable fun n s' => ?_
    refine wp_ite.mpr ⟨fun _ => wp_pure.mpr h0, fun _ => ?_⟩
    refine wp_then_any keeps_bread fun found s' => ?_
    refine wp_ite.mpr ⟨fun _ => ?_, fun _ => wp_pure.mpr h0⟩
    dsimp only
    rw [Int.tmod_eq_emod_of_nonneg h0, if_neg (by omega)]
    generalize hchars : (min (1024 - pos.toInt % 1024) ((count - i : ℕ) : ℤ)).toNat = chars
    have hto := @toInt_advance pos chars h0 (by omega)
    rw [wp_bind, updateInode, wp_modify]
    refine wp_then_any keeps_copyIn fun _ s' => ?_
    exact wp_then_any keeps_brelse fun _ s' => ih (by omega) (by omega)

theorem contained_panic {m : String} (h : m ∈ Mm.panics) : Contained (.ofMm (.panic m)) := by
  have hne : ∀ m ∈ Mm.panics, m ≠ "_bmap: block<0" ∧ m ≠ "_bmap: block>big" := by decide
  exact ⟨fun he => (hne m h).1 (Minix.Halt.panic.inj he),
    fun he => (hne m h).2 (Minix.Halt.panic.inj he), nofun⟩

variable {rd : RamDisk} {typed : List Byte} {me : Slot} {fd size count : Word} {append : Bool}

theorem Opened.sysLseek (h : Opened k me fd f ip pos size append) (h0 : 0 ≤ pos.toInt)
    (offset origin : Word) : OffsetSafe f (sysLseek me fd offset origin) k := by
  obtain ⟨t, ht, hfd⟩ := h.task
  have hret (r : ℤ) : OffsetSafe f (pure r) k := wp_pure.mpr (by rwa [h.pos])
  rw [OffsetSafe, Proc.sysLseek, wp_bind, wp_getTask ht, hfd]
  rw [wp_bind, wp_get]
  dsimp only
  rw [h.inode]
  refine wp_ite.mpr ⟨fun _ => hret _, fun _ => wp_ite.mpr ⟨fun _ => hret _, fun _ => ?_⟩⟩
  split
  · exact hret _
  · next new _ =>
    refine wp_ite.mpr ⟨fun _ => hret _, fun hnew => ?_⟩
    rw [wp_bind, setPos, wp_updateFile, wp_pure, pos_setFile]
    exact not_lt.mp hnew

/-- What `sys_read` asks `file_read` for. -/
theorem clipped_le (h0 : 0 ≤ pos.toInt) (hcount : 0 ≤ count.toInt)
    (hmax : 0 ≤ (writeStart pos size append).toInt ∧
      (writeStart pos size append).toInt + count.toInt ≤ 1024 * maxBlocks)
    (hn : 0 < (if size < count + pos then size - pos else count).toInt) :
    pos.toInt + (if size < count + pos then size - pos else count).toInt ≤ 1024 * maxBlocks := by
  have hblocks : maxBlocks = 262663 := rfl
  have hpos := pos.isLt
  have hsize := size.isLt
  have hcount' := count.isLt
  rw [toInt_eq_toNat_cond] at h0 hcount
  rw [writeStart] at hmax
  split at hn
  · next hlt =>
    rw [if_pos hlt]
    rw [lt_def, toNat_add] at hlt
    simp only [toInt_eq_toNat_cond, BitVec.toNat_sub] at hn hmax ⊢
    cases append <;> simp only [if_true, Bool.false_eq_true, if_false] at hmax <;> omega
  · next hlt =>
    rw [if_neg hlt]
    rw [lt_def, toNat_add] at hlt
    simp only [toInt_eq_toNat_cond] at hn hmax ⊢
    cases append <;> simp only [if_true, Bool.false_eq_true, if_false] at hmax <;> omega

theorem Opened.sysRead (h : Opened k me fd f ip pos size append) (h0 : 0 ≤ pos.toInt)
    (hmax : count.toInt ≤ 0 ∨ 0 ≤ (writeStart pos size append).toInt ∧
      (writeStart pos size append).toInt + count.toInt ≤ 1024 * maxBlocks) :
    OffsetSafe f (sysRead rd typed me fd buf count) k := by
  obtain ⟨t, ht, hfd⟩ := h.task
  have hpos : 0 ≤ (k.file f).pos.toInt := by rwa [h.pos]
  rw [OffsetSafe, Proc.sysRead, wp_bind, wp_getTask ht, hfd]
  refine wp_ite.mpr ⟨fun _ => wp_pure.mpr hpos, fun hneg => wp_ite.mpr ⟨fun _ => wp_pure.mpr hpos,
    fun hzero => ?_⟩⟩
  refine wp_bind.mpr (wp_liftMm_contained (Mm.stops_verifyArea (fun _ => contained_panic)
    contained_exit) fun _ mm => ?_)
  have h' : Opened (k.setMm mm) me fd f ip pos size append :=
    ⟨h.task, h.inode, h.reg, h.pipe, h.pos, h.size, h.append⟩
  generalize k.setMm mm = k' at h' ⊢
  have hpos' : 0 ≤ (k'.file f).pos.toInt := by rwa [h'.pos]
  have hmode := of_decide_eq_true h'.reg
  have hchr : ¬ isChr (k'.fs.inode ip).mode = true := by rw [isChr, hmode]; decide
  have hblk : ¬ isBlk (k'.fs.inode ip).mode = true := by rw [isBlk, hmode]; decide
  rw [wp_bind, wp_get, h'.inode]
  dsimp only
  rw [h'.pipe, if_neg Bool.false_ne_true, if_neg hchr, if_neg hblk, if_pos (.inr h'.reg), h'.size,
    h'.pos]
  refine wp_ite.mpr ⟨fun _ => wp_pure.mpr hpos', fun hn => ?_⟩
  have hclip := clipped_le h0 (not_lt.mp hneg) (hmax.resolve_left fun hle => hzero ?_) (not_le.mp hn)
  · rw [fileRead, if_neg hn]
    refine (offsetSafe_fileReadFrom hpos' ?_).next fun left k'' hk => ?_
    · rw [h'.pos, Int.toNat_of_nonneg (not_le.mp hn).le]
      exact hclip
    · rw [wp_bind, wp_get, wp_bind, wp_liftFs, updateInode, wp_modify, wp_pure]
      exact hk
  · exact BitVec.eq_of_toInt_eq (le_antisymm hle (not_lt.mp hneg))

theorem Opened.start_eq (h : Opened k me fd f ip pos size append) :
    (if (k.file f).flags &&& oAppend ≠ 0 then (k.fs.inode ip).size else (k.file f).pos) =
      writeStart pos size append := by
  rw [writeStart, ← h.append, h.size, h.pos]
  simp only [decide_eq_true_eq]

theorem Opened.wp_sysWrite {Q : ℤ → Kernel → Prop} {E : Minix.Halt → Kernel → Prop} {t : Task}
    (h : Opened k me fd f ip pos size append) (ht : k.task me = some t) (hcount : 0 < count.toInt) :
    wp (sysWrite rd me fd buf count) Q E k ↔
      wp (fileWrite rd t.pgdir ip f buf count.toNat) Q E k := by
  obtain ⟨t', ht', hfd⟩ := h.task
  obtain rfl := Option.some.inj (ht'.symm.trans ht)
  have hzero : count ≠ 0 := by
    rintro rfl
    exact absurd hcount (by decide)
  rw [sysWrite, wp_bind, wp_getTask ht, hfd]
  dsimp only
  rw [if_neg (not_lt.mpr hcount.le), if_neg hzero, wp_bind, wp_get, h.inode]
  dsimp only
  rw [h.pipe, if_neg Bool.false_ne_true, if_pos h.reg]

theorem Opened.fileWrite (h : Opened k me fd f ip pos size append) (h0 : 0 ≤ pos.toInt) {n : ℕ}
    (hs : 0 ≤ (writeStart pos size append).toInt)
    (hmax : (writeStart pos size append).toInt + n ≤ 1024 * maxBlocks) :
    OffsetSafe f (fileWrite rd pgdir ip f buf n) k := by
  rw [OffsetSafe, Proc.fileWrite, wp_bind, wp_get]
  dsimp only
  rw [h.start_eq]
  refine wp_bind.mpr (wp_liftFs.mpr ((wp_fileWriteFrom_contained hs hmax).imp fun r s hr => ?_))
  rw [wp_bind, wp_get, wp_bind, wp_liftFs, updateInode, wp_modify]
  refine wp_ite.mpr ⟨fun _ => ?_, fun _ => wp_pure.mpr (by exact h0.trans_eq (by rw [← h.pos]; rfl))⟩
  rw [wp_bind, setPos, wp_updateFile, wp_bind, wp_liftFs, updateInode, wp_modify, wp_pure]
  change 0 ≤ ((setFile _ f _).file f).pos.toInt
  rw [pos_setFile]
  exact hr

/-- A count above 0 as the loops take it. -/
theorem toNat_count (h : 0 < count.toInt) : (count.toNat : ℤ) = count.toInt := by
  rw [toInt_eq_toNat_cond] at h ⊢
  omega

theorem Opened.sysWrite (h : Opened k me fd f ip pos size append) (h0 : 0 ≤ pos.toInt)
    (hmax : count.toInt ≤ 0 ∨ 0 ≤ (writeStart pos size append).toInt ∧
      (writeStart pos size append).toInt + count.toInt ≤ 1024 * maxBlocks) :
    OffsetSafe f (sysWrite rd me fd buf count) k := by
  obtain ⟨t, ht, hfd⟩ := h.task
  by_cases hcount : 0 < count.toInt
  · obtain ⟨hs, hle⟩ := hmax.resolve_left (not_le.mpr hcount)
    exact (h.wp_sysWrite ht hcount).mpr (h.fileWrite h0 hs (by rwa [toNat_count hcount]))
  · have hpos : 0 ≤ (k.file f).pos.toInt := by rwa [h.pos]
    rw [OffsetSafe, Proc.sysWrite, wp_bind, wp_getTask ht, hfd]
    refine wp_ite.mpr ⟨fun _ => wp_pure.mpr hpos, fun hneg => wp_ite.mpr ⟨fun _ => wp_pure.mpr hpos,
      fun hzero => ?_⟩⟩
    have hle := not_lt.mp hcount
    exact absurd (BitVec.eq_of_toInt_eq (le_antisymm hle (not_lt.mp hneg))) hzero

end

/-! ### A file with all its blocks -/

/-- Every block of the file is block 6; 5 is its indirect block, and 7 the double
indirect one. -/
structure Dense (s : Fs) : Prop where
  dev : (s.inode 0).dev = rdDev
  zone : (s.inode 0).zone = fun k => if k = 8 then 7 else if k = 7 then 5 else 6
  indirect : ∀ k, zoneAt (s.data rdDev 5) k = 6
  double : ∀ k, zoneAt (s.data rdDev 7) k = 5

section

variable {count fuel i : ℕ} {buf pos : Word} {s : Fs}

theorem Dense.zone_eq (h : Dense s) (b : ℕ) : s.zone smallDisk 0 b = 6 := by
  have hind (k : Fin 512) : s.indirect smallDisk rdDev 5 k = 6 :=
    (if_pos (by decide +kernel)).trans (h.indirect k)
  have hdind (k : Fin 512) : s.indirect smallDisk rdDev 7 k = 5 :=
    (if_pos (by decide +kernel)).trans (h.double k)
  rw [Fs.zone, h.dev, h.zone]
  dsimp only
  split
  · next hb =>
    have h8 : Fin.ofNat 9 b ≠ 8 := fun h => by have := congrArg Fin.val h; simp at this; omega
    have h7 : Fin.ofNat 9 b ≠ 7 := fun h => by have := congrArg Fin.val h; simp at this; omega
    rw [if_neg h8, if_neg h7]
  split
  · exact (if_neg (by decide)).trans (hind _)
  · refine (if_neg (by decide)).trans ?_
    rw [if_pos rfl, hdind]
    exact (if_neg (by decide)).trans (hind _)

theorem Dense.setInode (h : Dense s) {n : MInode} (hdev : n.dev = (s.inode 0).dev)
    (hzone : n.zone = (s.inode 0).zone) : Dense (s.setInode 0 n) := by
  have hself := inode_setInode_self s 0 n
  exact ⟨by rw [hself, hdev, h.dev], by rw [hself, hzone, h.zone], h.indirect, h.double⟩

theorem Dense.setData (h : Dense s) {b : Block} : Dense (s.setData rdDev 6 b) := by
  have hdata {block : BlockNr} (hne : block ≠ 6) :
      (s.setData rdDev 6 b).data rdDev block = s.data rdDev block := by
    simp only [Fs.setData, update_self]
    exact update_of_ne hne ..
  exact ⟨h.dev, h.zone, by rw [hdata (by decide)]; exact h.indirect,
    by rw [hdata (by decide)]; exact h.double⟩

theorem Dense.wp_copyIn {n c : ℕ} {E : Minix.Halt → Fs → Prop} (h : Dense s)
    (hbuf : buf.toNat + n < 2 ^ 32) : wp (copyIn 0 rdDev 6 n c buf)
      (fun _ s' => Dense s' ∧ s'.users = s.users) E s := by
  induction n generalizing c buf s with
  | zero => exact wp_pure.mpr ⟨h, rfl⟩
  | succ n ih =>
    have hne : buf ≠ -1 := fun he => by rw [he] at hbuf; simp at hbuf; omega
    rw [copyIn, wp_bind, Minix.wp_liftMm, Mm.getFsByte, Mm.wp_getFs (if_pos rfl) hne, wp_bind,
      updateData, wp_modify]
    refine (ih h.setData ?_).imp fun _ s' hs => hs
    rw [toNat_add, show (1 : Word).toNat = 1 from rfl]
    omega

/-- A write that does not end within the blocks of a file. -/
theorem Dense.wp_fileWriteFrom (h : Dense s) (hi : i < count) (hfuel : count - i ≤ fuel)
    (hmax : pos.toInt < 0 ∨ 1024 * maxBlocks < pos.toInt + (count - i : ℕ))
    (hbuf : buf.toNat + (count - i) < 2 ^ 32) :
    wp (fileWriteFrom smallDisk 0 0 count fuel i pos buf) (fun _ _ => False)
      (fun e _ => ¬ Contained e) s := by
  induction fuel generalizing i pos buf s with
  | zero => omega
  | succ fuel ih =>
    rw [fileWriteFrom, if_neg (not_le.mpr hi), wp_bind, createBlock]
    by_cases hneg : pos.toInt.tdiv 1024 < 0
    · rw [bmapWith, readInodeTable, wp_bind, wp_bind, wp_get, wp_pure, if_pos hneg]
      exact wp_throw.mpr fun hc => hc.1 rfl
    by_cases hbig : (maxBlocks : ℤ) ≤ pos.toInt.tdiv 1024
    · rw [bmapWith, readInodeTable, wp_bind, wp_bind, wp_get, wp_pure, if_neg hneg, if_pos hbig]
      exact wp_throw.mpr fun hc => hc.2.1 rfl
    obtain ⟨b, hb⟩ := Int.eq_ofNat_of_zero_le (not_lt.mp hneg)
    have hmod := Int.mul_tdiv_add_tmod pos.toInt 1024
    rw [hb] at hbig hmod ⊢
    rw [wp_bmapWith_there (by omega) (.inr (by rw [h.zone_eq]; decide)), h.zone_eq,
      readInodeTable, wp_bind, wp_bind, wp_get, wp_pure, h.dev, if_neg (by decide), wp_bind,
      wp_bread_iff, if_pos (by decide +kernel), if_pos rfl]
    dsimp only
    by_cases hc : pos.toInt.tmod 1024 < 0
    · rw [if_pos hc]
      exact wp_throw.mpr fun hc => hc.2.2 rfl
    have hpos : 0 ≤ pos.toInt := by omega
    rw [Int.tmod_eq_emod_of_nonneg hpos] at hc hmod ⊢
    rw [if_neg hc, wp_bind, updateInode, wp_modify]
    generalize hchars : (min (1024 - pos.toInt % 1024) ((count - i : ℕ) : ℤ)).toNat = chars
    have hto := @toInt_advance pos chars hpos (by omega)
    have hdense : Dense (s.setUsers rdDev 6 (s.users rdDev 6 + 1)) :=
      ⟨h.dev, h.zone, h.indirect, h.double⟩
    refine (wp_copyIn (hdense.setInode ?_ ?_) (by omega)).next fun _ s' hs => ?_
    · split <;> rfl
    · split <;> rfl
    have husers : s'.users rdDev 6 ≠ 0 := by
      rw [hs.2]
      exact (s.users_setUsers rdDev 6 _).trans_ne (Nat.succ_ne_zero _)
    rw [wp_bind, Minix.brelse, wp_bind, wp_get]
    refine wp_ite.mpr ⟨fun he => absurd he husers, fun _ => wp_set.mpr ?_⟩
    refine ih ⟨hs.1.dev, hs.1.zone, hs.1.indirect, hs.1.double⟩ (by omega) (by omega) ?_ ?_
    · omega
    · rw [toNat_add, toNat_ofNat]
      omega

end

/-- Such a file is open. -/
def denseFile (pos size : Word) (append : Bool) : Kernel :=
  let k := single ⟨fun _ => 0, fun _ => 0, false⟩ 0
  { k with
    fs := { k.fs with
      data := fun _ block o =>
        if o.1 % 2 = 1 then 0 else if block = 5 then 6 else if block = 7 then 5 else 0
      inode := fun _ => { MInode.cleared with
        mode := 0x8000, size := size, dev := rdDev, count := 1
        zone := fun k => if k = 8 then 7 else if k = 7 then 5 else 6 } }
    task := fun i => (k.task i).map fun t => { t with filp := fun _ => some 0 }
    file := fun _ => ⟨3, if append then oAppend else 0, 1, some 0, pos⟩ }

theorem opened_denseFile (pos size : Word) (append : Bool) :
    Opened (denseFile pos size append) 0 0 0 0 pos size append := by
  have hreg : isReg 0x8000 = true := by decide
  have happend : decide ((if append then oAppend else 0) &&& oAppend ≠ 0) = append := by
    cases append <;> decide
  exact ⟨⟨_, rfl, rfl⟩, rfl, hreg, rfl, rfl, rfl, happend⟩

theorem dense_denseFile (pos size : Word) (append : Bool) : Dense (denseFile pos size append).fs := by
  have hentry (block : BlockNr) (k : Fin 512) :
      zoneAt ((denseFile pos size append).fs.data rdDev block) k =
        (0 : Byte) ++ (if block = 5 then 6 else if block = 7 then 5 else 0 : Byte) := by
    have hodd : (2 * k.1 + 1) % 2 = 1 := by omega
    have heven : ¬ 2 * k.1 % 2 = 1 := by omega
    simp only [zoneAt, denseFile, hodd, heven, if_true, if_false]
  exact ⟨rfl, rfl, hentry 5, hentry 7⟩

end LinuxRv.Proc
