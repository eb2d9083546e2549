import LinuxRv.Minix.InodeKeys
import LinuxRv.Proc.ExecFile

/-!
What `read_file` of `fs/exec.c` and `file_read` make of a file.

Both go from block to block. For a hole `bmap` returns 0: `file_read` then takes
zeros, and `read_file` reads block 0 of the device.
-/

namespace LinuxRv.Proc

open ByteMemory Prog Fs Minix BitVec List

/-- What `file_read` finds from `off` on: whether all could be read, and the
bytes that were. -/
def readBytes (rd : RamDisk) (s : Fs) (ip : Ino) : ℕ → ℕ → ℕ → Bool × List Byte
  | 0, _, _ => (true, [])
  | fuel + 1, off, len =>
    if len = 0 then
      (true, [])
    else
      let n := min (1024 - off % 1024) len
      let z := s.zone rd ip (off / 1024)
      let dev := (s.inode ip).dev
      let rest := readBytes rd s ip fuel (off + n) (len - n)
      if z = 0 then
        (rest.1, List.replicate n 0 ++ rest.2)
      else if OnDisk rd dev (blockNr z) then
        (rest.1, blockBytes (s.data dev (blockNr z)) (off % 1024) n ++ rest.2)
      else
        (false, [])

/-- Where a hole of `[off, off+len)` is reached, block 0 of the device has
zeros. -/
def HolesReadZero (rd : RamDisk) (s : Fs) (ip : Ino) (off len : ℕ) : Prop :=
  ∀ a, off ≤ a → a < off + len → s.zone rd ip (a / 1024) = 0 →
    (∀ b, off / 1024 ≤ b → b < a / 1024 → s.zone rd ip b = 0 ∨
      OnDisk rd (s.inode ip).dev (blockNr (s.zone rd ip b))) →
    OnDisk rd (s.inode ip).dev 0 ∧ s.data (s.inode ip).dev 0 (Fin.ofNat 1024 (a % 1024)) = 0

section

variable {rd : RamDisk} {s : Fs} {ip : Ino}

variable {b : Block} {n nr fuel : ℕ} {off len buf : Word} {m : Mm.State}

theorem readBytes_mm (m : Mm.State) (fuel off len : ℕ) :
    readBytes rd { s with mm := m } ip fuel off len = readBytes rd s ip fuel off len := by
  induction fuel generalizing off len with
  | zero => rfl
  | succ fuel ih =>
    rw [readBytes, readBytes]
    dsimp only
    rw [ih]
    rfl

theorem length_blockBytes (h : n ≤ 1024 - nr) : (blockBytes b nr n).length = n := by
  rw [blockBytes, length_take, length_drop, length_map, length_finRange]
  omega

theorem getElem_blockBytes {i : ℕ} (h : i < (blockBytes b nr n).length) (hnr : nr + i < 1024) :
    (blockBytes b nr n)[i] = b (Fin.ofNat 1024 (nr + i)) := by
  simp only [blockBytes, getElem_take, getElem_drop, getElem_map, getElem_finRange]
  exact congrArg b (Fin.ext (Nat.mod_eq_of_lt hnr).symm)

/-- One round of `read_file`. -/
theorem fileBytes_succ (fuel : ℕ) (h : off.toNat + len.toNat < 2 ^ 32) (hlen : len.toNat ≠ 0) :
    ∃ off' len' : Word, off'.toNat = off.toNat + min (1024 - off.toNat % 1024) len.toNat ∧
      len'.toNat = len.toNat - min (1024 - off.toNat % 1024) len.toNat ∧
      fileBytes rd s ip (fuel + 1) off len =
        if OnDisk rd (s.inode ip).dev (blockNr (s.zone rd ip (off.toNat / 1024))) then
          ((fileBytes rd s ip fuel off' len').1,
            blockBytes (s.data (s.inode ip).dev (blockNr (s.zone rd ip (off.toNat / 1024))))
              (off.toNat % 1024) (min (1024 - off.toNat % 1024) len.toNat) ++
            (fileBytes rd s ip fuel off' len').2)
        else (false, []) := by
  have hshift : (off >>> 10).toNat = off.toNat / 1024 := by
    rw [toNat_ushiftRight, Nat.shiftRight_eq_div_pow]
  have hne : len ≠ 0 := fun h0 => hlen (congrArg BitVec.toNat h0)
  have hn : (BitVec.ofNat 32 (min (1024 - off.toNat % 1024) len.toNat)).toNat =
      min (1024 - off.toNat % 1024) len.toNat := by
    rw [toNat_ofNat]
    exact Nat.mod_eq_of_lt (by omega)
  refine ⟨off + .ofNat 32 (min (1024 - off.toNat % 1024) len.toNat),
    len - .ofNat 32 (min (1024 - off.toNat % 1024) len.toNat), ?_, ?_, ?_⟩
  · rw [toNat_add, hn]
    exact Nat.mod_eq_of_lt (by omega)
  · rw [toNat_sub_of_le (by rw [le_def, hn]; exact Nat.min_le_right ..), hn]
  · rw [fileBytes, if_neg hne]
    dsimp only
    rw [hshift, coff_eq]
    rfl

/-! ### Holes -/

/-- The first block of the range, and the rest. -/
theorem holesReadZero_succ (off len : ℕ) : HolesReadZero rd s ip off len ↔
    (s.zone rd ip (off / 1024) = 0 → ∀ i < min (1024 - off % 1024) len,
      OnDisk rd (s.inode ip).dev 0 ∧
        s.data (s.inode ip).dev 0 (Fin.ofNat 1024 (off % 1024 + i)) = 0) ∧
    ((s.zone rd ip (off / 1024) = 0 ∨
      OnDisk rd (s.inode ip).dev (blockNr (s.zone rd ip (off / 1024)))) →
      HolesReadZero rd s ip (off + min (1024 - off % 1024) len)
        (len - min (1024 - off % 1024) len)) := by
  constructor
  · intro h
    refine ⟨fun hzone i hi => ?_, fun hread a hlow hhigh hzone hbefore => ?_⟩
    · have hdiv : (off + i) / 1024 = off / 1024 := by omega
      have hmod : (off + i) % 1024 = off % 1024 + i := by omega
      have hhole := h (off + i) (by omega) (by omega) (by rwa [hdiv]) fun b hb hb' => by omega
      rwa [hmod] at hhole
    · -- the rest begins with the next block, if there is any
      refine h a (by omega) (by omega) hzone fun b hb hb' => ?_
      by_cases hfirst : b = off / 1024
      · rwa [hfirst]
      · exact hbefore b (by omega) hb'
  · rintro ⟨hfirst, hrest⟩ a hlow hhigh hzone hbefore
    by_cases ha : a / 1024 = off / 1024
    · rw [ha] at hzone
      have hmod : off % 1024 + (a - off) = a % 1024 := by omega
      have hhole := hfirst hzone (a - off) (by omega)
      rwa [hmod] at hhole
    · refine hrest (hbefore _ le_rfl (by omega)) a (by omega) (by omega) hzone fun b hb hb' => ?_
      exact hbefore b (by omega) hb'

theorem blockBytes_eq_zeros_iff (h : n ≤ 1024 - nr) :
    blockBytes b nr n = List.replicate n 0 ↔ ∀ i < n, b (Fin.ofNat 1024 (nr + i)) = 0 := by
  have hlen := length_blockBytes (b := b) h
  constructor
  · intro heq i hi
    have hi : i < (blockBytes b nr n).length := by omega
    rw [← getElem_blockBytes hi (by omega)]
    simp only [heq, List.getElem_replicate]
  · intro hzero
    refine ext_getElem (by rw [hlen, length_replicate]) fun i hi hi' => ?_
    rw [getElem_blockBytes hi (by omega), hzero i (by omega), List.getElem_replicate]

theorem prepend_inj {r r' : Bool × List Byte} {l l' : List Byte} (h : l.length = l'.length) :
    (r.1, l ++ r.2) = (r'.1, l' ++ r'.2) ↔ l = l' ∧ r = r' := by
  constructor
  · intro heq
    obtain ⟨hok, happend⟩ := Prod.mk.inj heq
    obtain ⟨hl, hr⟩ := append_inj happend h
    exact ⟨hl, Prod.ext hok hr⟩
  · rintro ⟨rfl, rfl⟩
    rfl

/-- The two functions find the same exactly if holes read as zeros. -/
theorem fileBytes_eq_readBytes_iff (hfuel : len.toNat ≤ fuel) (h : off.toNat + len.toNat < 2 ^ 32) :
    fileBytes rd s ip fuel off len = readBytes rd s ip fuel off.toNat len.toNat ↔
      HolesReadZero rd s ip off.toNat len.toNat := by
  induction fuel generalizing off len with
  | zero =>
    have hnone : len.toNat = 0 := Nat.le_zero.mp hfuel
    refine iff_of_true rfl fun a hlow hhigh => ?_
    omega
  | succ fuel ih =>
    by_cases hlen : len.toNat = 0
    · have hzero : len = 0 := eq_of_toNat_eq hlen
      rw [fileBytes, readBytes, if_pos hzero, if_pos hlen]
      refine iff_of_true rfl fun a hlow hhigh => ?_
      omega
    obtain ⟨off', len', hoff', hlen', heq⟩ := fileBytes_succ fuel h hlen
    have hrest := @ih off' len' (by omega) (by omega)
    have hsize : min (1024 - off.toNat % 1024) len.toNat ≤ 1024 - off.toNat % 1024 :=
      Nat.min_le_left ..
    rw [hoff', hlen'] at hrest
    rw [heq, holesReadZero_succ, readBytes, if_neg hlen]
    dsimp only
    by_cases hzone : s.zone rd ip (off.toNat / 1024) = 0
    · rw [if_pos hzone, hzone, show blockNr 0 = 0 from rfl]
      by_cases hdisk : OnDisk rd (s.inode ip).dev 0
      · rw [if_pos hdisk, prepend_inj (by rw [length_blockBytes hsize, length_replicate]),
          blockBytes_eq_zeros_iff hsize, hrest]
        exact and_congr ⟨fun hz _ i hi => ⟨hdisk, hz i hi⟩, fun hz i hi => (hz rfl i hi).2⟩
          ⟨fun hr _ => hr, fun hr => hr (.inl rfl)⟩
      · rw [if_neg hdisk]
        refine iff_of_false (fun hsame => ?_) fun hall => hdisk (hall.1 rfl 0 (by omega)).1
        have hshort := congrArg (fun r => r.2.length) hsame
        dsimp only at hshort
        rw [length_nil, length_append, length_replicate] at hshort
        omega
    · rw [if_neg hzone]
      by_cases hdisk : OnDisk rd (s.inode ip).dev (blockNr (s.zone rd ip (off.toNat / 1024)))
      · rw [if_pos hdisk, if_pos hdisk, prepend_inj rfl, hrest]
        exact ⟨fun hr => ⟨fun h0 => absurd h0 hzone, fun _ => hr.2⟩,
          fun hr => ⟨rfl, hr.2 (.inr hdisk)⟩⟩
      · rw [if_neg hdisk, if_neg hdisk]
        refine iff_of_true rfl ⟨fun h0 => absurd h0 hzone, fun hor => ?_⟩
        exact (hor.elim hzone hdisk).elim

/-! ### `file_read` -/

theorem putBytes_append (pgdir addr : Word) (l l' : List Byte) : putBytes pgdir addr (l ++ l') = (do
      putBytes pgdir addr l
      putBytes pgdir (addr + .ofNat 32 l.length) l') := by
  induction l generalizing addr with
  | nil =>
    rw [putBytes, pure_bind, length_nil, BitVec.add_zero]
    rfl
  | cons b l ih =>
    rw [List.cons_append, putBytes, putBytes, bind_assoc, ih, List.length_cons, Nat.add_comm,
      ← offset_add]
    rfl

variable {k : Kernel} {f : Fin nrFile} {pgdir : Word}

/-- The loop delivers what is found. -/
theorem wp_fileReadFrom {off len : ℕ} (hpos : (k.file f).pos = .ofNat 32 off)
    (hrange : off + len ≤ maxBlocks * 1024) (hfuel : len ≤ fuel)
    (hput : putBytes pgdir buf (readBytes rd k.fs ip fuel off len).2 k.fs.mm = .ok ⟨⟩ m) :
    wp (fileReadFrom rd pgdir ip f fuel len buf) (fun left k' =>
      left + (readBytes rd k.fs ip fuel off len).2.length = len ∧ k'.fs = { k.fs with mm := m })
      (fun _ _ => False) k := by
  induction fuel generalizing off len buf k with
  | zero =>
    obtain rfl := Nat.le_zero.mp hfuel
    obtain rfl : k.fs.mm = m := (EStateM.Result.ok.inj hput).2
    exact wp_pure.mpr ⟨rfl, rfl⟩
  | succ fuel ih =>
    rw [readBytes] at hput ⊢
    by_cases hlen : len = 0
    · subst hlen
      rw [if_pos rfl] at hput ⊢
      obtain rfl : k.fs.mm = m := (EStateM.Result.ok.inj hput).2
      exact wp_pure.mpr ⟨rfl, rfl⟩
    rw [if_neg hlen] at hput ⊢
    dsimp only at hput ⊢
    set n := min (1024 - off % 1024) len
    have hn : n ≤ 1024 - off % 1024 := Nat.min_le_left ..
    have hmax : maxBlocks * 1024 = 268966912 := by decide
    have hint : (BitVec.ofNat 32 off).toInt = off := by
      have htoNat : (BitVec.ofNat 32 off).toNat = off := by
        rw [toNat_ofNat]
        exact Nat.mod_eq_of_lt (by omega)
      rw [toInt_eq_toNat_of_lt (by omega), htoNat]
    have hdiv : (off : ℤ).tdiv 1024 = (off / 1024 : ℕ) := (Int.ofNat_tdiv off 1024).symm
    have hmod : (off : ℤ).tmod 1024 = (off % 1024 : ℕ) := (Int.ofNat_tmod off 1024).symm
    have hchars : (min (1024 - ((off % 1024 : ℕ) : ℤ)) (len : ℤ)).toNat = n := by omega
    have hnext : BitVec.ofNat 32 off + BitVec.ofNat 32 n = BitVec.ofNat 32 (off + n) :=
      (ofNat_add off n).symm
    -- what is left after the first block, from the memory it leaves
    have hrest {m₁ : Mm.State} {k₁ : Kernel} (hpos₁ : (k₁.file f).pos = .ofNat 32 (off + n))
        (hfs : k₁.fs = { k.fs with mm := m₁ })
        (hput₁ : putBytes pgdir (buf + .ofNat 32 n)
          (readBytes rd k.fs ip fuel (off + n) (len - n)).2 m₁ = .ok ⟨⟩ m) :
        wp (fileReadFrom rd pgdir ip f fuel (len - n) (buf + .ofNat 32 n)) (fun left k' =>
          left + (n + (readBytes rd k.fs ip fuel (off + n) (len - n)).2.length) = len ∧
            k'.fs = { k.fs with mm := m }) (fun _ _ => False) k₁ := by
      have hsame : readBytes rd k₁.fs ip fuel (off + n) (len - n) =
          readBytes rd k.fs ip fuel (off + n) (len - n) := by
        rw [hfs, readBytes_mm]
      have h : wp (fileReadFrom rd pgdir ip f fuel (len - n) (buf + .ofNat 32 n)) _ _ k₁ :=
        ih hpos₁ (by omega) (by omega) (by rw [hsame, hfs]; exact hput₁)
      rw [hsame, hfs] at h
      exact h.imp fun left k' ⟨hleft, hk'⟩ => ⟨by omega, hk'⟩
    have hsplit {l l' : List Byte} (hl : l.length = n)
        (h : putBytes pgdir buf (l ++ l') k.fs.mm = .ok ⟨⟩ m) : ∃ m₁,
        putBytes pgdir buf l k.fs.mm = .ok ⟨⟩ m₁ ∧
          putBytes pgdir (buf + .ofNat 32 n) l' m₁ = .ok ⟨⟩ m := by
      rw [putBytes_append, hl] at h
      obtain ⟨_, m₁, h₁, h₂⟩ := exists_of_bind h
      exact ⟨m₁, h₁, h₂⟩
    rw [fileReadFrom, if_neg hlen, wp_bind, wp_get, hpos]
    dsimp only
    rw [hint, hdiv, wp_bind, wp_liftFs, wp_bmap (by omega), wp_bind, wp_get, hmod, hchars,
      show k.setFs k.fs = k from rfl]
    by_cases hzone : k.fs.zone rd ip (off / 1024) = 0
    · rw [if_pos hzone] at hput ⊢
      obtain ⟨m₁, hput₁, hput₂⟩ := hsplit (length_replicate ..) hput
      rw [if_pos hzone, wp_bind, setPos, wp_updateFile, wp_bind, wp_liftMm]
      refine (wp_of_ok hput₁).mpr ?_
      rw [length_append, length_replicate]
      exact hrest ((congrArg File.pos (Function.update_self ..)).trans (hpos ▸ hnext)) rfl hput₂
    rw [if_neg hzone] at hput ⊢
    by_cases hdisk : OnDisk rd (k.fs.inode ip).dev (blockNr (k.fs.zone rd ip (off / 1024)))
    · rw [if_pos hdisk] at hput ⊢
      obtain ⟨m₁, hput₁, hput₂⟩ := hsplit (length_blockBytes hn) hput
      rw [if_neg hzone, wp_bind, wp_liftFs, wp_bread_iff, if_pos hdisk, if_pos rfl,
        if_neg (by omega), wp_bind, setPos, wp_updateFile, wp_bind, wp_get, wp_bind, wp_liftMm]
      refine (wp_of_ok hput₁).mpr ?_
      rw [wp_bind, wp_liftFs, length_append, length_blockBytes hn]
      refine (wp_brelse_bread (s := { k.fs with mm := m₁ })).mpr ?_
      exact hrest ((congrArg File.pos (Function.update_self ..)).trans (hpos ▸ hnext)) rfl hput₂
    · rw [if_neg hdisk] at hput ⊢
      obtain rfl : k.fs.mm = m := (EStateM.Result.ok.inj hput).2
      rw [if_neg hzone, wp_bind, wp_liftFs, wp_bread_iff, if_neg hdisk,
        if_neg Bool.false_ne_true, wp_pure]
      exact ⟨rfl, rfl⟩

/-- What `file_read` returns. -/
theorem fileRead_ok {off len : ℕ} (hpos : (k.file f).pos = .ofNat 32 off)
    (hrange : off + len ≤ maxBlocks * 1024)
    (hput : putBytes pgdir buf (readBytes rd k.fs ip len off len).2 k.fs.mm = .ok ⟨⟩ m) :
    wp (fileRead rd pgdir ip f buf len) (fun ret k' => k'.fs.mm = m ∧
      ret = if len = 0 then 0 else if (readBytes rd k.fs ip len off len).2.length = 0 then -eerror
        else ((readBytes rd k.fs ip len off len).2.length : ℤ)) (fun _ _ => False) k := by
  rw [fileRead]
  by_cases hlen : len = 0
  · subst hlen
    obtain rfl : k.fs.mm = m := (EStateM.Result.ok.inj hput).2
    rw [if_pos (by omega), wp_pure, if_pos rfl]
    exact ⟨rfl, rfl⟩
  rw [if_neg (by omega), if_neg hlen, Int.toNat_natCast]
  refine (wp_fileReadFrom hpos hrange le_rfl hput).next fun left k' ⟨hleft, hfs⟩ => ?_
  rw [wp_bind, wp_get, wp_bind, wp_liftFs, updateInode, wp_modify, wp_pure]
  have hcount : len - left = (readBytes rd k.fs ip len off len).2.length := by omega
  rw [hcount]
  exact ⟨congrArg Minix.Fs.mm hfs, rfl⟩

end

/-- The loader and `read` find the same bytes of a file exactly if block 0 of the
device has zeros where the file has a hole. -/
theorem loader_reads_same_iff (rd : RamDisk) (s : Fs) (ip : Ino) (off len : Word)
    (hsize : off.toNat + len.toNat ≤ (s.inode ip).size.toNat)
    (hmax : (s.inode ip).size.toNat ≤ maxBlocks * 1024) :
    readFile rd ip len.toNat off len s = .ok (fileBytes rd s ip len.toNat off len) s ∧
    (∀ (k : Kernel) (f : Fin nrFile) (pgdir buf : Word) (m : Mm.State), k.fs = s →
      (k.file f).pos = off →
      putBytes pgdir buf (readBytes rd s ip len.toNat off.toNat len.toNat).2 s.mm = .ok ⟨⟩ m →
      ∃ k', k'.fs.mm = m ∧ fileRead rd pgdir ip f buf len.toNat k = .ok (if len.toNat = 0 then 0
          else if (readBytes rd s ip len.toNat off.toNat len.toNat).2.length = 0 then -eerror
          else (readBytes rd s ip len.toNat off.toNat len.toNat).2.length) k') ∧
    (fileBytes rd s ip len.toNat off len = readBytes rd s ip len.toNat off.toNat len.toNat ↔
      HolesReadZero rd s ip off.toNat len.toNat) := by
  have hmax' : maxBlocks * 1024 = 268966912 := by decide
  refine ⟨?_, ?_, fileBytes_eq_readBytes_iff le_rfl (by omega)⟩
  · have hrange : FileRange off len := hsize.trans hmax
    exact ok_of_wp (wp_readFile (fun hnot => hnot hrange) ⟨rfl, rfl⟩)
  · rintro k f pgdir buf m rfl hpos hput
    have hpos : (k.file f).pos = .ofNat 32 off.toNat := by
      rw [hpos, ofNat_toNat, setWidth_eq]
    have h := fileRead_ok hpos (hsize.trans hmax) hput
    unfold wp at h
    split at h
    · next ret k' hrun =>
      obtain ⟨hmm, rfl⟩ := h
      exact ⟨k', hmm, hrun⟩
    · exact h.elim

/-- A file of one byte without blocks on a disk full of bytes `b`. -/
def sparseFile (b : Byte) : Fs :=
  { (Kernel.single ⟨fun _ => 5, fun _ => 0, false⟩ 0).fs with
    data := fun _ _ _ => b
    inode := fun _ => { MInode.cleared with mode := 0x81a4, size := 1, dev := rdDev } }

def sparseKernel : Kernel :=
  (Kernel.single ⟨fun _ => 5, fun _ => 0, false⟩ 0).setFs (sparseFile 1)

def sparseDisk : RamDisk := ⟨0, 0x10000, smallDisk.fits⟩

/-- With zeros in block 0 nobody sees the difference. -/
theorem sparseFile_zeros : (fileBytes sparseDisk (sparseFile 0) 0 1 0 1 =
    readBytes sparseDisk (sparseFile 0) 0 1 0 1) := by
  refine (loader_reads_same_iff sparseDisk (sparseFile 0) 0 0 1 (by decide) (by decide)).2.2.mpr ?_
  intro a _ _ _ _
  exact ⟨by decide, rfl⟩

/-- The loader gets the first byte of block 0, and `read` gets a zero. -/
theorem sparseFile_differs :
    ((sparseFile 1).inode 0).size = 1 ∧ isReg ((sparseFile 1).inode 0).mode = true ∧
    readFile sparseDisk 0 1 0 1 (sparseFile 1) = .ok (true, [1]) (sparseFile 1) ∧
    sparseKernel.fs = sparseFile 1 ∧ (sparseKernel.file 0).pos = 0 ∧
    ∃ ret k', fileRead sparseDisk 0 0 0 0x200 1 sparseKernel = .ok ret k' ∧
      k'.fs.mm.mem 0x200 = 0 := by
  refine ⟨rfl, by decide, ok_of_wp (wp_readFile (fun hnot => hnot (by decide)) ⟨?_, rfl⟩), rfl, rfl,
    ?_⟩
  · decide +kernel
  · have hreturns : returns (fileRead sparseDisk 0 0 0 0x200 1) sparseKernel = true := by
      decide +kernel
    obtain ⟨ret, hc⟩ := ok_after_of_returns hreturns
    exact ⟨ret, _, hc, by decide +kernel⟩

end LinuxRv.Proc
