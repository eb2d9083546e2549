import LinuxRv.Proc.ExecCompletes
import LinuxRv.Proc.LoaderReads

/-!
The loaded program against its file.

`load_segment` gives each page of a segment a new frame, filled from the file or
with zeros, and `put_page_pgdir` puts it in the place of what was mapped there.
So the last segment with a byte in a page decides about the whole page.
-/

namespace LinuxRv.Proc

open ByteMemory Prog Fs Minix Mm PageArea BitVec Option UserView Nat

/-! ### Bytes of the file -/

/-- The byte `read_file` finds at a position. For a hole it reads block 0. -/
def loaderByte (rd : RamDisk) (s : Fs) (ip : Ino) (x : ℕ) : Byte :=
  s.data (s.inode ip).dev (blockNr (s.zone rd ip (x / 1024))) (Fin.ofNat 1024 (x % 1024))

/-- The byte of the file. Holes are zeros. -/
def fileByte (rd : RamDisk) (s : Fs) (ip : Ino) (x : ℕ) : Byte :=
  if s.zone rd ip (x / 1024) = 0 then 0 else loaderByte rd s ip x

/-- Byte number `k` of a segment: from the file, and zeros behind. -/
def Phdr.byteOf (ph : Phdr) (rd : RamDisk) (s : Fs) (ip : Ino) (k : ℕ) : Byte :=
  if k < ph.filesz.toNat then fileByte rd s ip (ph.offset.toNat + k) else 0

/-- What `load_segment` puts at the address `b`, by its position in the file. -/
def Phdr.supplies (ph : Phdr) (rd : RamDisk) (s : Fs) (ip : Ino) (b : Word) : Byte :=
  let x := (ph.foff (b &&& 0xfffff000)).toNat + b.toNat % 4096
  if x < ph.fileEnd.toNat then loaderByte rd s ip x else 0

section

variable {rd : RamDisk} {s : Fs} {ip : Ino} {ph : Phdr} {b : Word}

theorem fileBytes_getD {fuel o : ℕ} {off len : Word} (hfuel : len.toNat ≤ fuel)
    (h : off.toNat + len.toNat < 2 ^ 32) (ho : o < len.toNat)
    (hok : (fileBytes rd s ip fuel off len).1 = true) :
    (fileBytes rd s ip fuel off len).2.getD o 0 = loaderByte rd s ip (off.toNat + o) := by
  induction fuel generalizing off len o with
  | zero => omega
  | succ fuel ih =>
    obtain ⟨off', len', hoff', hlen', heq⟩ := @fileBytes_succ rd s ip _ _ fuel h (by omega)
    by_cases hdisk : OnDisk rd (s.inode ip).dev (blockNr (s.zone rd ip (off.toNat / 1024)))
    · rw [heq, if_pos hdisk] at hok ⊢
      have hlength := length_blockBytes (b := s.data (s.inode ip).dev
        (blockNr (s.zone rd ip (off.toNat / 1024)))) (Nat.min_le_left (1024 - off.toNat % 1024)
          len.toNat)
      by_cases hfirst : o < min (1024 - off.toNat % 1024) len.toNat
      · rw [List.getD_append _ _ _ _ (by omega), List.getD_eq_getElem _ _ (by omega),
          getElem_blockBytes _ (by omega), loaderByte, show (off.toNat + o) / 1024 = off.toNat / 1024
          by omega, show (off.toNat + o) % 1024 = off.toNat % 1024 + o by omega]
      · rw [List.getD_append_right _ _ _ _ (by omega), hlength, ih (by omega) (by omega) (by omega)
          hok, hoff']
        exact congrArg _ (by omega)
    · rw [heq, if_neg hdisk] at hok
      cases hok

theorem Phdr.toNat_readLen {v : Word} (h : ph.foff v < ph.fileEnd) :
    (ph.readLen v).toNat = min 4096 (ph.fileEnd.toNat - (ph.foff v).toNat) := by
  have hsub := toNat_sub_of_le (BitVec.le_of_lt h)
  have hpage : (4096 : Word).toNat = 4096 := rfl
  rw [readLen]
  split
  · next hlt =>
      rw [lt_def] at hlt
      rw [hsub, Nat.min_eq_right (by omega)]
  · next hge =>
      rw [BitVec.not_lt, le_def] at hge
      exact (Nat.min_eq_left (by omega)).symm

theorem Phdr.byteAt_eq_supplies (h : ph.Found rd s ip (b &&& 0xfffff000)) :
    ph.byteAt rd s ip b = ph.supplies rd s ip b := by
  rw [byteAt, supplies]
  by_cases hin : ph.foff (b &&& 0xfffff000) < ph.fileEnd
  · have hlen := toNat_readLen hin
    have hlt := lt_def.mp hin
    have hend := ph.fileEnd.isLt
    have hmod := mod_lt b.toNat (show 0 < 4096 by decide)
    rw [if_pos hin]
    split
    · next hpos => exact fileBytes_getD (by omega) (by omega) (by omega) (h hin)
    · next hpos =>
        have hshort := length_fileBytes rd s ip 4096 (ph.foff (b &&& 0xfffff000))
          (ph.readLen (b &&& 0xfffff000))
        exact List.getD_eq_default _ _ (by omega)
  · rw [if_neg hin, if_neg]
    rw [lt_def] at hin
    omega

end

/-! ### The last segment -/

/-- The segment is loaded into the page of `b`. -/
def Phdr.Covers (ph : Phdr) (b : Word) : Prop :=
  ph.Loads ∧ ph.first.toNat / 4096 ≤ b.toNat / 4096 ∧
    b.toNat / 4096 < ph.first.toNat / 4096 + ph.pageCount

instance (ph : Phdr) (b : Word) : Decidable (ph.Covers b) := inferInstanceAs (Decidable (_ ∧ _))

/-- The last of the first `n` segments that is loaded into the page of `b`. -/
def lastOver (rd : RamDisk) (s : Fs) (ip : Ino) (phoff b : Word) : ℕ → Option Phdr
  | 0 => none
  | n + 1 => ((phdrAt rd s ip phoff n).filter fun ph => ph.Covers b).or (lastOver rd s ip phoff b n)

section

variable {rd : RamDisk} {s : Fs} {ip : Ino} {phoff b : Word} {V : UserView} {n : ℕ} {ph : Phdr}

theorem lastOver_eq_some (h : lastOver rd s ip phoff b n = some ph) :
    ∃ i < n, phdrAt rd s ip phoff i = some ph ∧ ph.Covers b := by
  induction n with
  | zero => cases h
  | succ n ih =>
    rcases or_eq_some_iff.mp h with hn | ⟨-, hbefore⟩
    · obtain ⟨hph, hcov⟩ := filter_eq_some_iff.mp hn
      exact ⟨n, n.lt_succ_self, hph, of_decide_eq_true hcov⟩
    · obtain ⟨i, hi, hph⟩ := ih hbefore
      exact ⟨i, lt_succ_of_lt hi, hph⟩

theorem imageView_eq : imageView rd s ip phoff V n b =
    ((lastOver rd s ip phoff b n).map fun ph => ph.byteAt rd s ip b).or (V b) := by
  induction n with
  | zero => rfl
  | succ n ih =>
    rw [imageView, lastOver]
    cases hph : phdrAt rd s ip phoff n with
    | none => exact ih
    | some ph =>
      dsimp only
      by_cases hcov : ph.Covers b
      · rw [if_pos hcov.1, segmentView, if_pos hcov.2, filter_some, if_pos (decide_eq_true hcov)]
        rfl
      · have hnot : ¬ decide (ph.Covers b) = true := by simpa using hcov
        rw [filter_some, if_neg hnot, none_or, ← ih]
        split
        · next hload => exact if_neg fun hpage => hcov ⟨hload, hpage⟩
        · rfl

end

/-! ### The start of the program -/

/-- What `create_tables` puts at the address `b`. -/
def tableByte (args envs : List (List Byte)) : UserView :=
  putWords (fun _ => none) (startSp args envs) (tableWords (stringsAt args envs) args envs)

/-- The address `b` gets the byte `w`: from the tables, or from the last segment
over it. -/
def Gets (rd : RamDisk) (s : Fs) (ip : Ino) (args envs : List (List Byte)) (b : Word)
    (w : Byte) : Prop :=
  (tableByte args envs b).or ((lastOver rd s ip (ehdrAt rd s ip).phoff b
    (ehdrAt rd s ip).phnum.toNat).map fun ph => ph.supplies rd s ip b) = some w

instance (rd : RamDisk) (s : Fs) (ip : Ino) (args envs : List (List Byte)) (b : Word)
    (w : Byte) : Decidable (Gets rd s ip args envs b w) := inferInstanceAs (Decidable (_ = _))

/-- `P` holds for every byte of every segment. -/
def AllBytes (rd : RamDisk) (s : Fs) (ip : Ino) (P : Word → Byte → Prop) : Prop :=
  ∀ i < (ehdrAt rd s ip).phnum.toNat, ∀ ph, phdrAt rd s ip (ehdrAt rd s ip).phoff i = some ph →
    ph.type = 1 → ∀ k < ph.memsz.toNat, P (ph.vaddr + .ofNat 32 k) (ph.byteOf rd s ip k)

section

variable {rd : RamDisk} {s : Fs} {ip : Ino} {args envs : List (List Byte)} {b : Word} {w : Byte}

theorem startView_eq : startView rd s ip args envs b =
    (tableByte args envs b).or (loadedView rd s ip args envs b) := by
  rw [startView, tableByte, putWords, putWords]
  split <;> rfl

/-- The page of an address a segment covers has been read. -/
theorem Accepted.found {phoff : Word} {n i : ℕ} {ph : Phdr} (h : Accepted rd s ip phoff n)
    (hi : i < n) (hph : phdrAt rd s ip phoff i = some ph) (hcov : ph.Covers b) :
    ph.Found rd s ip (b &&& 0xfffff000) := by
  obtain ⟨hload, hlow, hhigh⟩ := hcov
  have hpage : ph.first + .ofNat 32 (4096 * (b.toNat / 4096 - ph.first.toNat / 4096)) =
      b &&& 0xfffff000 := by
    refine eq_of_toNat_eq ?_
    have hb := b.isLt
    have hfirst : ph.first.toNat = 4096 * (ph.vaddr.toNat / 4096) := toNat_page ph.vaddr
    rw [toNat_page, toNat_add, toNat_ofNat]
    omega
  rw [← hpage]
  exact (h i hi ph hph hload.1).2 _ (by omega)

/-- Below the stack a program sees its segments. -/
theorem startView_gets (hacc : Accepted rd s ip (ehdrAt rd s ip).phoff (ehdrAt rd s ip).phnum.toNat)
    (hb : b.toNat < stackBase.toNat) :
    startView rd s ip args envs b = some w ↔ Gets rd s ip args envs b w := by
  rw [startView_eq, Gets, loadedView, programView, imageView_eq, argView, if_neg (by omega)]
  cases hlast : lastOver rd s ip (ehdrAt rd s ip).phoff b (ehdrAt rd s ip).phnum.toNat with
  | none => rfl
  | some ph =>
    obtain ⟨i, hi, hph, hcov⟩ := lastOver_eq_some hlast
    rw [map_some, map_some, ph.byteAt_eq_supplies (hacc.found hi hph hcov)]
    rfl

/-! ### Segments with pages of their own -/

theorem Phdr.covers_iff {ph : Phdr} : ph.Covers b ↔ b.toNat / 4096 ∈ segPages (some ph) := by
  have hfirst : ph.first.toNat = 4096 * (ph.vaddr.toNat / 4096) := toNat_page ph.vaddr
  have hlast : ph.last.toNat = 4096 * ((ph.vaddr + ph.memsz + 0xfff).toNat / 4096) := toNat_page _
  rw [Covers, segPages, pageCount]
  split
  · next hload =>
      refine (and_iff_right hload).trans (and_congr_right fun _ => ?_)
      omega
  · next hload => exact iff_of_false (fun h => hload h.1) (Set.notMem_empty _)

theorem Phdr.Loads.covers {ph : Phdr} {k : ℕ} (h : ph.Loads) (hk : k < ph.memsz.toNat)
    (hwrap : ph.vaddr.toNat + ph.memsz.toNat < 2 ^ 32) : ph.Covers (ph.vaddr + .ofNat 32 k) := by
  have hfirst : ph.first.toNat = 4096 * (ph.vaddr.toNat / 4096) := toNat_page ph.vaddr
  have hbase := toNat_stackBase
  have hend := le_def.mp h.2.2
  rw [covers_iff, segPages, if_pos h]
  show _ ≤ _ ∧ _ < _
  rw [last, toNat_page, toNat_add _ 0xfff, toNat_add, toNat_add,
    toNat_ofNat, show (0xfff : Word).toNat = 0xfff from rfl]
  rw [toNat_add] at hend
  omega

theorem lastOver_of_apart {phoff : Word} {n i : ℕ} {ph : Phdr} (hapart : Apart rd s ip phoff n)
    (hi : i < n) (hph : phdrAt rd s ip phoff i = some ph) (hcov : ph.Covers b) :
    lastOver rd s ip phoff b n = some ph := by
  induction n with
  | zero => omega
  | succ n ih =>
    rw [lastOver]
    rcases Nat.lt_succ_iff_lt_or_eq.mp hi with hlt | rfl
    · have hnone : (phdrAt rd s ip phoff n).filter (fun ph => ph.Covers b) = none := by
        refine filter_eq_none_iff.mpr fun ph' hph' hcov' => ?_
        have hdisjoint := hapart n n.lt_succ_self i hlt
        rw [hph, hph'] at hdisjoint
        exact Set.disjoint_left.mp hdisjoint (Phdr.covers_iff.mp hcov)
          (Phdr.covers_iff.mp (of_decide_eq_true hcov'))
      rw [hnone, none_or]
      exact ih (fun l hl => hapart l (lt_succ_of_lt hl)) hlt
    · rw [hph, filter_some, if_pos (decide_eq_true hcov), some_or]

/-- A segment supplies its own bytes, if holes of the file read as zeros. -/
theorem Phdr.supplies_own {ph : Phdr} {k : ℕ} (hk : k < ph.memsz.toNat)
    (hwrap : ph.vaddr.toNat + ph.memsz.toNat < 2 ^ 32)
    (hfile : ph.offset.toNat + ph.memsz.toNat < 2 ^ 32) (hsize : ph.filesz ≤ ph.memsz)
    (hcongr : ph.offset.toNat % 4096 = ph.vaddr.toNat % 4096) (hholes : ∀ x < ph.filesz.toNat,
      loaderByte rd s ip (ph.offset.toNat + x) = fileByte rd s ip (ph.offset.toNat + x)) :
    ph.supplies rd s ip (ph.vaddr + .ofNat 32 k) = ph.byteOf rd s ip k := by
  have hsize := le_def.mp hsize
  have hb : (ph.vaddr + .ofNat 32 k).toNat = ph.vaddr.toNat + k := by
    rw [toNat_add, toNat_ofNat]
    omega
  -- the page begins in the file as far before the byte as in memory
  have hpos : (ph.foff ((ph.vaddr + .ofNat 32 k) &&& 0xfffff000)).toNat +
      (ph.vaddr.toNat + k) % 4096 = ph.offset.toNat + k := by
    rw [foff, toNat_add, toNat_sub, toNat_page, hb]
    omega
  have hend : ph.fileEnd.toNat = ph.offset.toNat + ph.filesz.toNat := by
    rw [fileEnd, toNat_add]
    omega
  rw [supplies, byteOf, hb, hpos, hend]
  by_cases hin : k < ph.filesz.toNat
  · rw [if_pos (by omega), if_pos hin, hholes k hin]
  · rw [if_neg (by omega), if_neg hin]

/-- Segments with whole pages of their own are loaded right. -/
theorem gets_of_apart (hapart : Apart rd s ip (ehdrAt rd s ip).phoff (ehdrAt rd s ip).phnum.toNat)
    (hfit : TablesFit args envs) (hsegment : ∀ i < (ehdrAt rd s ip).phnum.toNat, ∀ ph,
      phdrAt rd s ip (ehdrAt rd s ip).phoff i = some ph → ph.type = 1 →
      ph.Loads ∧ ph.vaddr.toNat + ph.memsz.toNat < 2 ^ 32 ∧ ph.offset.toNat + ph.memsz.toNat < 2 ^ 32 ∧
      ph.filesz ≤ ph.memsz ∧ ph.offset.toNat % 4096 = ph.vaddr.toNat % 4096 ∧
      ∀ x < ph.filesz.toNat,
        loaderByte rd s ip (ph.offset.toNat + x) = fileByte rd s ip (ph.offset.toNat + x)) :
    AllBytes rd s ip (Gets rd s ip args envs) := by
  intro i hi ph hph htype k hk
  obtain ⟨hload, hwrap, hfile, hsize, hcongr, hholes⟩ := hsegment i hi ph hph htype
  have hnone : tableByte args envs (ph.vaddr + .ofNat 32 k) = none := by
    have hend := le_def.mp hload.2.2
    have hbase := toNat_stackBase
    have hsp := toNat_startSp hfit
    have htop : topOffset = 131068 := rfl
    refine putWords_of_le ?_
    rw [toNat_add] at hend
    rw [length_tableWords, toNat_sub, toNat_add, toNat_ofNat]
    unfold tablesOffset TablesFit stringsOffset at *
    omega
  rw [Gets, hnone, none_or, lastOver_of_apart hapart hi hph (hload.covers hk hwrap),
    map_some, ph.supplies_own hk hwrap hfile hsize hcongr hholes]

/-! ### The end of user memory -/

/-- Nothing is mapped behind user memory. -/
theorem startView_limit (h : totalBytes args envs ≤ topOffset) :
    tableByte args envs userLimit = none ∧ startView rd s ip args envs userLimit = none := by
  have htop : topOffset = 131068 := rfl
  have hbase := toNat_stackBase
  have hlimit : userLimit.toNat = stackBase.toNat + 0x220000 := by decide
  have hstrings := toNat_stringsAt h
  have hsp : (startSp args envs).toNat = _ := toNat_belowStrings (room_tables h)
  have hroom := room_tables h
  have htables : tableByte args envs userLimit = none := by
    refine putWords_of_le ?_
    rw [length_tableWords, toNat_sub]
    omega
  refine ⟨htables, ?_⟩
  rw [startView_eq, htables, none_or]
  by_contra hsome
  obtain ⟨i, hi, hpage⟩ := (loadedView_word hlimit).mp hsome
  rw [stringsOffset] at hpage
  omega

theorem lastOver_limit {phoff : Word} {n : ℕ} : lastOver rd s ip phoff userLimit n = none := by
  by_contra hsome
  obtain ⟨ph, hlast⟩ := ne_none_iff_exists'.mp hsome
  obtain ⟨-, -, -, hload, -, hhigh⟩ := lastOver_eq_some hlast
  have hend := hload.limit
  have hlimit : userLimit.toNat = 2 ^ 31 := by decide
  omega

/-- A program sees its segments exactly if each byte is supplied by the last
segment over it. -/
theorem allBytes_startView
    (hacc : Accepted rd s ip (ehdrAt rd s ip).phoff (ehdrAt rd s ip).phnum.toNat)
    (h : totalBytes args envs ≤ topOffset) :
    AllBytes rd s ip (fun b w => startView rd s ip args envs b = some w) ↔
      AllBytes rd s ip (Gets rd s ip args envs) := by
  refine forall₅_congr fun i hi ph hph htype => ?_
  obtain ⟨-, hlow, hend⟩ := (hacc i hi ph hph htype).1
  have hlow : ph.vaddr.toNat < 2 ^ 31 := lt_def.mp hlow
  have hlimit : userLimit.toNat = 2 ^ 31 := by decide
  by_cases hwrap : 2 ^ 32 ≤ ph.vaddr.toNat + ph.memsz.toNat
  · -- such a segment has bytes behind user memory
    have hk : 2 ^ 31 - ph.vaddr.toNat < ph.memsz.toNat := by omega
    have haddr : ph.vaddr + .ofNat 32 (2 ^ 31 - ph.vaddr.toNat) = userLimit := by
      refine eq_of_toNat_eq ?_
      rw [toNat_add, toNat_ofNat, hlimit]
      omega
    obtain ⟨htables, hview⟩ := @startView_limit rd s ip _ _ h
    refine iff_of_false (fun hall => ?_) fun hall => ?_
    · have hbyte := hall _ hk
      rw [haddr, hview] at hbyte
      cases hbyte
    · have hbyte := hall _ hk
      rw [haddr, Gets, htables, lastOver_limit] at hbyte
      cases hbyte
  · refine forall₂_congr fun k hk => startView_gets hacc ?_
    rw [le_def, toNat_add, mod_eq_of_lt (by omega)] at hend
    rw [toNat_add, toNat_ofNat]
    omega

end

/-! ### Results -/

section

variable {rd : RamDisk} {main : MainMemory} {k k' : Kernel} {me j : Slot} {cur : Task} {ip : Ino}
  {fs : Fs} {args envs : List (List Byte)} {held : Multiset Word} {rootDev : Dev}
  {r filename argv envp : Word}

/-- A program that has been started finds its segments in its memory exactly if
each byte is supplied by the last segment over it. -/
theorem exec_loads_image_iff (hI : (k.world held).Inv main) (hj : k.pgdir j = none)
    (hlinked : Linked rootDev ∅ none k) (hcur : k.task me = some cur)
    (hnamei : namei rd cur.current filename k.fs = .ok (some ip) fs)
    (hargs : ArgVector (callerView main (k.world held) cur.pgdir) argv args)
    (henvs : ArgVector (callerView main (k.world held) cur.pgdir) envp envs)
    (hrun : doExecve rd r me filename argv envp k = .ok 0 k') :
    ∃ t, k'.task me = some t ∧
      (AllBytes rd fs ip (fun b w => userByte k'.fs.mm.mem t.pgdir b = some w) ↔
        AllBytes rd fs ip (Gets rd fs ip args envs)) := by
  obtain ⟨ip', fs', hfound, hstart⟩ :=
    (wp_doExecve_view hI hj hlinked hcur hargs henvs).of_ok hrun rfl
  obtain ⟨hip, rfl⟩ := EStateM.Result.ok.inj (hnamei.symm.trans hfound)
  obtain rfl := some.inj hip
  obtain ⟨t, ht, -, -, hview⟩ := hstart.task
  refine ⟨t, ht, ?_⟩
  rw [hview]
  exact allBytes_startView hstart.accepted hstart.fits.le

end

/-- A program of one segment. -/
theorem exec_loads_image_zeros : ∃ (k k' : Kernel) (t : Task) (ip : Ino) (fs : Fs),
    (k.world 0).Inv mainFrom4M ∧ doExecve smallDisk 0 0 pathAt pathAt 0 k = .ok 0 k' ∧
    (ehdrAt smallDisk fs ip).phnum = 1 ∧ k'.task 0 = some t ∧
    AllBytes smallDisk fs ip (fun b w => userByte k'.fs.mm.mem t.pgdir b = some w) := by
  obtain ⟨cur, ip, fs, hready, hphnum, hphoff, hph⟩ := zeroProgram_ready
  have hargs := argVector_path zeroProgram hready.pgdir
  have henvs := argVector_null (callerView mainFrom4M ((oneFileKernel zeroProgram).world 0) cur.pgdir)
  obtain ⟨k', hrun⟩ := hready.runs
  obtain ⟨t, ht, hiff⟩ := exec_loads_image_iff (oneFileKernel_inv _) (oneFileKernel_pgdir _ 1)
    (oneFileKernel_linked _) hready.task hready.found hargs henvs hrun
  refine ⟨_, k', t, ip, fs, oneFileKernel_inv _, hrun, hphnum, ht, hiff.mpr ?_⟩
  have hone {i : ℕ} (hi : i < (ehdrAt smallDisk fs ip).phnum.toNat) : i = 0 := by
    rw [hphnum] at hi
    exact lt_one_iff.mp hi
  refine gets_of_apart (fun i hi i' hi' => ?_) (by decide) fun i hi ph hi' _ => ?_
  · rw [hone hi] at hi'
    omega
  · rw [hone hi, hphoff, hph, some_inj] at hi'
    subst hi'
    exact ⟨by decide, by decide, by decide, by decide, by decide, fun x hx => absurd hx x.not_lt_zero⟩

/-! ### Two segments in one page -/

/-- A segment in the page at `0x1000`. It begins `lo` bytes behind the start of the
page, and as far behind the start of the file. -/
def pageSegment (lo filesz memsz : Byte) : List Byte :=
  [1, 0, 0, 0, lo, 0, 0, 0, lo, 0x10, 0, 0, 0, 0, 0, 0, filesz, 0, 0, 0, memsz, 0, 0, 0] ++
    List.replicate 8 0

/-- Four bytes of the file, and zeros in front of them. -/
def fourBytes : Phdr := ⟨1, 0x10, 0x1010, 4, 4⟩
def zerosBefore : Phdr := ⟨1, 0, 0x1000, 0, 0x10⟩

def sharedPage : List Byte :=
  elfHeader [52, 0, 0, 0] 2 ++ pageSegment 0x10 4 4 ++ pageSegment 0 0 0x10

theorem sharedPage_found : leadsTo sharedPage (fun cur ip fs => decide (
    (cur.executable = none ∧ cur.closeOnExec = 0) ∧ IsProgram 2 cur ip fs ∧ IsPuttable ip fs ∧
      phdrAt smallDisk fs ip 52 0 = some fourBytes ∧
      phdrAt smallDisk fs ip 52 1 = some zerosBefore ∧
      (fileBytes smallDisk fs ip 4096 0 0x14).1 = true ∧ fileByte smallDisk fs ip 0x10 = 2)) =
    true := by
  decide +kernel

/-- The second segment takes the place of the first one. -/
theorem exec_loses_segment : ∃ (k k' : Kernel) (cur t : Task) (ip : Ino) (fs : Fs)
    (a b : Phdr), (k.world 0).Inv mainFrom4M ∧ k.task 0 = some cur ∧
    namei smallDisk cur.current pathAt k.fs = .ok (some ip) fs ∧
    (ehdrAt smallDisk fs ip).phnum = 2 ∧
    phdrAt smallDisk fs ip (ehdrAt smallDisk fs ip).phoff 0 = some a ∧
    phdrAt smallDisk fs ip (ehdrAt smallDisk fs ip).phoff 1 = some b ∧
    (a.type = 1 ∧ a.filesz ≤ a.memsz ∧ a.offset.toNat % 4096 = a.vaddr.toNat % 4096) ∧
    (b.type = 1 ∧ b.filesz ≤ b.memsz ∧ b.offset.toNat % 4096 = b.vaddr.toNat % 4096) ∧
    b.vaddr.toNat + b.memsz.toNat ≤ a.vaddr.toNat ∧
    doExecve smallDisk 0 0 pathAt pathAt 0 k = .ok 0 k' ∧ k'.task 0 = some t ∧
    0 < a.filesz.toNat ∧ fileByte smallDisk fs ip a.offset.toNat = 2 ∧
    userByte k'.fs.mm.mem t.pgdir a.vaddr = some 0 := by
  obtain ⟨cur, ip, fs, hcur, hn, h⟩ := exists_of_leadsTo sharedPage_found
  obtain ⟨hfiles, hprogram, hput, ha, hb, hread, hbyte⟩ := of_decide_eq_true h
  have hready : Ready sharedPage cur ip fs := by
    refine .of_program hcur hn hfiles hprogram hput (fun i hi => ?_) ?_
    · rcases le_one_iff_eq_zero_or_eq_one.mp (Nat.lt_succ_iff.mp hi) with rfl | rfl
      · refine ⟨by decide, _, ha, fun _ => ⟨by decide, fun n hn _ => ?_⟩⟩
        obtain rfl : n = 0 := lt_one_iff.mp hn
        exact ⟨by decide, hread⟩
      · refine ⟨by decide, _, hb, fun _ => ⟨by decide, fun n hn hin => ?_⟩⟩
        obtain rfl : n = 0 := lt_one_iff.mp hn
        exact absurd hin (by decide)
    · rw [show (2 : Word).toNat = 0 + 1 + 1 from rfl, framesFrom_succ, framesFrom_succ, phdrFrames,
        phdrFrames, ha, hb, show framesFrom smallDisk fs ip 52 (0 + 1 + 1) 0 = 0 from rfl]
      decide
  have hphnum : (ehdrAt smallDisk fs ip).phnum = 2 := hprogram.2.2.2.2.1
  have hphoff : (ehdrAt smallDisk fs ip).phoff = 52 := hprogram.2.2.2.2.2
  have hargs := argVector_path sharedPage hready.pgdir
  have henvs := argVector_null (callerView mainFrom4M ((oneFileKernel sharedPage).world 0) cur.pgdir)
  obtain ⟨k', hrun⟩ := hready.runs
  obtain ⟨ip', fs', hfound, hstart⟩ := (wp_doExecve_view (oneFileKernel_inv _)
    (oneFileKernel_pgdir _ 1) (oneFileKernel_linked _) hcur hargs henvs).of_ok hrun rfl
  obtain ⟨hip, rfl⟩ := EStateM.Result.ok.inj (hn.symm.trans hfound)
  obtain rfl := some.inj hip
  obtain ⟨t, ht, -, -, hview⟩ := hstart.task
  refine ⟨_, k', cur, t, ip, fs, fourBytes, zerosBefore, oneFileKernel_inv _, hcur, hn,
    hphnum, by rw [hphoff, ha], by rw [hphoff, hb], by decide, by decide, by decide, hrun, ht,
    by decide, hbyte, ?_⟩
  have hcov : zerosBefore.Covers fourBytes.vaddr := by decide
  have htables : tableByte [[]] [] fourBytes.vaddr = none := by decide
  have hlast : lastOver smallDisk fs ip 52 fourBytes.vaddr (1 + 1) = some zerosBefore := by
    rw [lastOver, hb, filter_some, if_pos (decide_eq_true hcov), some_or]
  rw [hview]
  refine (startView_gets hstart.accepted (by decide)).mpr ?_
  rw [Gets, hphoff, hphnum, htables, show (2 : Word).toNat = 1 + 1 from rfl, hlast]
  rfl

end LinuxRv.Proc
