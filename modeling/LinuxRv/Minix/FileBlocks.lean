import LinuxRv.Minix.Inode

/-!
The blocks of a file.

`bmap` changes nothing, and the zone it returns is a function of the inode and
of the indirect blocks on the disk.
-/

namespace LinuxRv.Minix

open ByteMemory Prog LinuxRv.Fs

/-! ### Blocks -/

/-- Whether `bread` gets the block. -/
abbrev OnDisk (rd : RamDisk) (dev : Dev) (block : BlockNr) : Prop :=
  dev = rdDev ∧ rd.InRange block

/-- Entry `k` of an indirect block. -/
def Fs.indirect (rd : RamDisk) (s : Fs) (dev : Dev) (z : Zone) (k : Fin 512) : Zone :=
  if OnDisk rd dev (blockNr z) then zoneAt (s.data dev (blockNr z)) k else 0

/-- The zone of block `block` of a file, 0 for a hole. -/
def Fs.zone (rd : RamDisk) (s : Fs) (ip : Ino) (block : ℕ) : Zone :=
  let n := s.inode ip
  if block < 7 then
    n.zone (Fin.ofNat 9 block)
  else if block - 7 < 512 then
    if n.zone 7 = 0 then 0 else s.indirect rd n.dev (n.zone 7) (Fin.ofNat 512 (block - 7))
  else if n.zone 8 = 0 then
    0
  else
    let z := s.indirect rd n.dev (n.zone 8) (Fin.ofNat 512 ((block - 7 - 512) / 512))
    if z = 0 then 0 else s.indirect rd n.dev z (Fin.ofNat 512 ((block - 7 - 512) % 512))

section

variable {Q : Zone → Fs → Prop} {ip : Ino} {rd : RamDisk} {s : Fs} {E : Halt → Fs → Prop}
  {dev : Dev} {block : BlockNr}

/-- A buffer that is got and given back leaves no trace. -/
theorem Fs.setUsers_setUsers (s : Fs) (dev : Dev) (block : BlockNr) (n : ℕ) :
    (s.setUsers dev block n).setUsers dev block (s.users dev block) = s := by
  simp [setUsers]

theorem Fs.users_setUsers (s : Fs) (dev : Dev) (block : BlockNr) (n : ℕ) :
    (s.setUsers dev block n).users dev block = n := by
  simp [setUsers]

theorem wp_bread_iff {Q : Bool → Fs → Prop} : wp (bread rd dev block) Q E s ↔
    if OnDisk rd dev block then Q true (s.setUsers dev block (s.users dev block + 1))
    else Q false s := by
  unfold bread
  by_cases h : dev = rdDev ∧ rd.InRange block
  · rw [if_pos h, if_pos h, wp_bind, wp_modify, wp_pure]
  · rw [if_neg h, if_neg h, wp_pure]

/-- `brelse` of the buffer `bread` has just got. -/
theorem wp_brelse_bread {Q : PUnit → Fs → Prop} :
    wp (brelse dev block) Q E (s.setUsers dev block (s.users dev block + 1)) ↔ Q ⟨⟩ s := by
  rw [brelse, wp_bind, wp_get, Fs.users_setUsers, if_neg (Nat.succ_ne_zero _), wp_set,
    Nat.add_sub_cancel, Fs.setUsers_setUsers]

variable {create : Bool}

/-- What is there is not created. -/
theorem not_create {z : Zone} (h : create = false ∨ z ≠ 0) : ¬ (create = true ∧ z = 0) := by
  rintro ⟨rfl, hz⟩
  exact h.elim nofun fun h => h hz

theorem wp_indirectZone_there {z : Zone} {k : Fin 512}
    (h : create = false ∨ s.indirect rd dev z k ≠ 0) :
    wp (indirectZone rd create dev (blockNr z) k) Q E s ↔ Q (s.indirect rd dev z k) s := by
  rw [indirectZone, wp_bind, wp_bread_iff]
  rw [Fs.indirect] at h ⊢
  by_cases hdisk : OnDisk rd dev (blockNr z)
  · rw [if_pos hdisk] at h ⊢
    rw [if_pos hdisk, if_pos rfl, wp_bind, wp_get]
    refine Iff.trans (Eq.to_iff (congrArg (wp · Q E _) (if_neg (not_create h)))) ?_
    rw [wp_bind, wp_brelse_bread, wp_pure]
    rfl
  · rw [if_neg hdisk, if_neg hdisk, if_neg Bool.false_ne_true, wp_pure]

theorem wp_inodeZone_there {k : Fin 9} (h : create = false ∨ (s.inode ip).zone k ≠ 0) :
    wp (inodeZone create ip k) Q E s ↔ Q ((s.inode ip).zone k) s := by
  rw [inodeZone, readInodeTable, wp_bind, wp_bind, wp_get, wp_pure, if_neg (not_create h), wp_pure]

/-- A block that is there, or that is not to be created. -/
theorem wp_bmapWith_there {b : ℕ} (hb : b < maxBlocks) (h : create = false ∨ s.zone rd ip b ≠ 0) :
    wp (bmapWith rd create ip b) Q E s ↔ Q (s.zone rd ip b) s := by
  have hnot : ¬ (maxBlocks : ℤ) ≤ b := by omega
  have hpos : ¬ (b : ℤ) < 0 := by omega
  rw [bmapWith, readInodeTable, wp_bind, wp_bind, wp_get, wp_pure, if_neg hpos, if_neg hnot]
  rw [Fs.zone] at h ⊢
  by_cases h7 : b < 7
  · rw [if_pos h7] at h ⊢
    rw [if_pos (by omega), Int.toNat_natCast, wp_inodeZone_there h]
  rw [if_neg h7] at h ⊢
  rw [if_neg (by omega)]
  by_cases h512 : b - 7 < 512
  · have hk : ((b : ℤ) - 7).toNat = b - 7 := by omega
    rw [if_pos h512] at h ⊢
    rw [if_pos (by omega), wp_bind, wp_inodeZone_there (h.imp_right fun h hz => h (if_pos hz)), hk]
    by_cases hz : (s.inode ip).zone 7 = 0
    · rw [if_pos hz, if_pos hz, wp_pure]
    · rw [if_neg hz] at h ⊢
      rw [if_neg hz, wp_indirectZone_there h]
  · have hk : ((b : ℤ) - 7 - 512).toNat = b - 7 - 512 := by omega
    rw [if_neg h512] at h ⊢
    rw [if_neg (by omega), wp_bind, wp_inodeZone_there (h.imp_right fun h hz => h (if_pos hz)), hk]
    by_cases hz : (s.inode ip).zone 8 = 0
    · rw [if_pos hz, if_pos hz, wp_pure]
    rw [if_neg hz] at h ⊢
    rw [if_neg hz, wp_bind, wp_indirectZone_there (h.imp_right fun h hz => h (if_pos hz))]
    by_cases hz' : s.indirect rd (s.inode ip).dev ((s.inode ip).zone 8)
        (Fin.ofNat 512 ((b - 7 - 512) / 512)) = 0
    · simp only [hz', if_true, wp_pure]
    · simp only [hz', if_false] at h ⊢
      exact wp_indirectZone_there h

theorem wp_bmap {b : ℕ} (hb : b < maxBlocks) :
    wp (bmap rd ip b) Q E s ↔ Q (s.zone rd ip b) s := wp_bmapWith_there hb (.inl rfl)

end

/-! ### Giving back an inode -/

/-- The block on the disk with the inode. -/
def Fs.inodeBlock (s : Fs) (ip : Ino) : Option BlockNr :=
  ((List.finRange nrSuper).find? fun i => (s.super i).dev = (s.inode ip).dev).map fun i =>
    blockOf (s.super i) (s.inode ip).num

/-- A linked inode of a mounted device that is no block device itself. -/
structure Fs.Puttable (rd : RamDisk) (s : Fs) (ip : Ino) : Prop where
  count : (s.inode ip).count ≠ 0
  pipe : (s.inode ip).pipe = false
  device : (s.inode ip).dev ≠ 0
  mode : isBlk (s.inode ip).mode = false
  nlinks : (s.inode ip).nlinks ≠ 0
  block : ∃ b, s.inodeBlock ip = some b ∧ OnDisk rd (s.inode ip).dev b

section

variable {rd : RamDisk} {s : Fs} {ip : Ino} {E : Halt → Fs → Prop}

theorem Fs.Puttable.wp_writeInode (h : s.Puttable rd ip) :
    wp (writeInode rd ip) (fun _ s' => s'.mm = s.mm) E s := by
  obtain ⟨b, hb, hdisk⟩ := h.block
  obtain ⟨i, hi, rfl⟩ := Option.map_eq_some_iff.mp hb
  rw [writeInode, readInodeTable, wp_bind, wp_bind, wp_get, wp_pure]
  refine wp_ite.mpr ⟨fun _ => wp_pure.mpr rfl, fun _ => ?_⟩
  rw [wp_bind, getSuper, wp_bind, wp_get, if_neg h.device, wp_pure, hi]
  simp only [wp_bind, wp_get, wp_bread_iff]
  rw [if_pos hdisk, if_pos trivial]
  simp only [wp_bind, updateData, updateInode, wp_modify, brelse, wp_get]
  rw [if_neg, wp_set]
  · rfl
  · simp [setUsers, setData, setInode]

/-- `iput` writes it back at most. -/
theorem Fs.Puttable.wp_iput (h : s.Puttable rd ip) :
    wp (iput rd (some ip)) (fun _ s' => s'.mm = s.mm) E s := by
  rw [iput, readInodeTable, wp_bind, wp_bind, wp_get, wp_pure, if_neg h.count, h.pipe,
    if_neg Bool.false_ne_true, if_neg h.device, h.mode, if_neg Bool.false_ne_true]
  refine wp_ite.mpr ⟨fun _ => wp_modify.mpr rfl, fun _ => ?_⟩
  rw [if_neg h.nlinks]
  exact h.wp_writeInode.next fun _ s' hmm => wp_modify.mpr hmm

end

end LinuxRv.Minix
