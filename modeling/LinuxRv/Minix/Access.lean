import LinuxRv.Minix.InodeKeys

/-!
`sys_access` (`fs/open.c`) against `permission` (`fs/namei.c`).

Both select the bits of the owner, of the group or of the others from a mode and
compare them with a mask. `sys_access` takes the bits of the owner for the group
as well.
-/

namespace LinuxRv.Minix

open ByteMemory Prog LinuxRv.Fs
open BitVec hiding or_self

/-- The bits `sys_access` looks at. -/
def accessBits (cur : Current) (n : MInode) (iMode : Word) : Word :=
  if cur.uid = n.uid then iMode >>> 6
  else if cur.gid = n.gid.setWidth 16 then iMode >>> 6
  else iMode

def sysAccess (rd : RamDisk) (cur : Current) (filename mode : Word) : FsM ℤ := do
  let mode := mode &&& 7
  match ← namei rd cur filename with
  | none => return -eacces
  | some ip =>
    let iMode := (← readInodeTable ip).mode.setWidth 32 &&& 0o777
    iput rd (some ip)
    -- the owner is read after the inode has been given back
    let res := accessBits cur (← readInodeTable ip) iMode
    if res &&& 7 &&& mode = mode then
      return 0
    else if cur.uid = 0 ∧ (mode &&& 1 = 0 ∨ iMode &&& 0o111 ≠ 0) then
      return 0
    else
      return -eacces

/-- `permission`, for a mask that is an `int`. -/
def permissionInt (cur : Current) (n : MInode) (mask : Word) : Bool :=
  if n.dev ≠ 0 ∧ n.nlinks = 0 then false
  else
    let mode :=
      if cur.euid = n.uid then n.mode >>> 6
      else if cur.egid = n.gid.setWidth 16 then n.mode >>> 3
      else n.mode
    mode.setWidth 32 &&& mask &&& 7 = mask ∨ cur.euid = 0

theorem permission_eq (cur : Current) (n : MInode) (mask : BitVec 16) :
    permission cur n mask = permissionInt cur n (mask.setWidth 32) := by
  have hmask (m : BitVec 16) : m &&& mask &&& 7 = mask ↔
      m.setWidth 32 &&& mask.setWidth 32 &&& 7 = mask.setWidth 32 := by
    have hwiden : m.setWidth 32 &&& mask.setWidth 32 &&& 7 = (m &&& mask &&& 7).setWidth 32 := by
      rw [setWidth_and, setWidth_and]
      rfl
    rw [hwiden]
    exact ⟨fun h => by rw [h], fun h => by simpa using congrArg (setWidth 16) h⟩
  unfold permission permissionInt
  simp only [hmask]

/-! ### Masks -/

section

variable {mask x : Word}

theorem and_seven (h : mask ≤ 7) : mask &&& 7 = mask := by
  apply eq_of_toNat_eq
  rw [toNat_and]
  exact (Nat.and_two_pow_sub_one_eq_mod _ 3).trans (Nat.mod_eq_of_lt (Nat.lt_succ_of_le
    (le_def.mp h)))

/-- A mask with other bits is never granted. -/
theorem and_ne_of_lt (h : 7 < mask) : x &&& mask &&& 7 ≠ mask := by
  intro heq
  have hle : (x &&& mask &&& 7).toNat ≤ 7 := by
    rw [toNat_and]
    exact Nat.and_le_right
  rw [heq] at hle
  exact absurd (lt_def.mp h) (Nat.not_lt.mpr hle)

/-- Each class has three of the nine bits of a mode. -/
theorem class_bits (mode : BitVec 16) {k : ℕ} (hk : k ≤ 6) :
    (mode.setWidth 32 &&& 0o777) >>> k &&& 7 = (mode >>> k).setWidth 32 &&& 7 := by
  apply eq_of_getLsbD_eq
  intro i hi
  by_cases h3 : i < 3
  · have hone : (0o777 : Word).getLsbD (k + i) = true := by
      interval_cases k <;> interval_cases i <;> rfl
    simp only [getLsbD_and, getLsbD_ushiftRight, getLsbD_setWidth, hone, Bool.and_true]
    simp [hi, show k + i < 32 by omega]
  · have hzero : (7 : Word).getLsbD i = false := by
      interval_cases i <;> first | omega | rfl
    simp only [getLsbD_and, hzero, Bool.and_false]

/-! ### The owner of an inode -/

variable {rd : RamDisk} {ip : Ino} {u : BitVec 16} {g : Byte} {s : Fs}

def HasOwner (ip : Ino) (u : BitVec 16) (g : Byte) (s : Fs) : Prop :=
  (s.inode ip).uid = u ∧ (s.inode ip).gid = g

theorem keeps_owner_updateInode {ip' : Ino} {f : MInode → MInode}
    (hf : ∀ n, (f n).uid = n.uid ∧ (f n).gid = n.gid) :
    Keeps (HasOwner ip u g) (fun _ _ => True) (updateInode ip' f) := by
  refine .modify fun s hs => ?_
  by_cases hip : ip = ip'
  · subst hip
    rw [HasOwner, inode_setInode_self]
    exact ⟨(hf _).1.trans hs.1, (hf _).2.trans hs.2⟩
  · rw [HasOwner, inode_setInode_of_ne s _ hip]
    exact hs

theorem keeps_owner_brelse {dev : Dev} {block : BlockNr} :
    Keeps (HasOwner ip u g) (fun _ _ => True) (brelse dev block) := by
  intro s hs
  rw [brelse, wp_bind, wp_get]
  exact wp_ite.mpr ⟨fun _ => wp_throw.mpr trivial, fun _ => wp_set.mpr hs⟩

theorem keeps_owner_writeInode {ip' : Ino} :
    Keeps (HasOwner ip u g) (fun _ _ => True) (writeInode rd ip') := by
  refine (Keeps.get.bind fun _ => Keeps.pure _).bind fun n => Keeps.ite (Keeps.pure _) ?_
  refine (Keeps.get.bind fun _ => Keeps.ite (Keeps.pure _) (Keeps.pure _)).bind fun o => ?_
  cases o with
  | none => exact Keeps.throw fun _ _ => trivial
  | some i =>
    refine Keeps.get.bind fun _ => (Keeps.ite ((Keeps.modify (by exact fun _ h => h)).bind fun _ =>
      Keeps.pure _) (Keeps.pure _)).bind fun _ => Keeps.ite ?_ (Keeps.throw fun _ _ => trivial)
    exact (Keeps.modify (by exact fun _ h => h)).bind fun _ =>
      (keeps_owner_updateInode (by exact fun _ => ⟨rfl, rfl⟩)).bind fun _ => keeps_owner_brelse

/-- An inode with links is not cleared. -/
theorem wp_iput_owner (hlinks : (s.inode ip).nlinks ≠ 0) (h : HasOwner ip u g s) :
    wp (iput rd (some ip)) (fun _ => HasOwner ip u g) (fun _ _ => True) s := by
  rw [iput, readInodeTable, wp_bind, wp_bind, wp_get, wp_pure]
  refine wp_ite.mpr ⟨fun _ => wp_throw.mpr trivial, fun _ => wp_ite.mpr ⟨fun _ => ?_, fun _ =>
    wp_ite.mpr ⟨fun _ => keeps_owner_updateInode (by exact fun _ => ⟨rfl, rfl⟩) s h, fun _ => ?_⟩⟩⟩
  · refine (keeps_owner_updateInode (by exact fun _ => ⟨rfl, rfl⟩)).bind (fun _ =>
      Keeps.ite (Keeps.pure _) (Keeps.bind (fun s hs => ?_) fun _ =>
        keeps_owner_updateInode (by exact fun _ => ⟨rfl, rfl⟩))) s h
    exact wp_liftMm.mpr (wp_of_forall (fun _ _ => hs) fun _ _ => trivial)
  · have hsync : Keeps (HasOwner ip u g) (fun _ _ => True) (syncDev rd) :=
      Keeps.forN fun _ => (Keeps.get.bind fun _ => Keeps.pure _).bind fun _ =>
        Keeps.ite keeps_owner_writeInode (Keeps.pure _)
    have hwrite : Keeps (HasOwner ip u g) (fun _ _ => True) (do
        writeInode rd ip
        updateInode ip fun n => { n with count := n.count - 1 }) :=
      keeps_owner_writeInode.bind fun _ => keeps_owner_updateInode (by exact fun _ => ⟨rfl, rfl⟩)
    simp only [if_neg hlinks]
    split
    · exact hsync.bind (fun _ => Keeps.ite (keeps_owner_updateInode (by exact fun _ => ⟨rfl, rfl⟩))
        hwrite) s h
    · exact Keeps.ite (keeps_owner_updateInode (by exact fun _ => ⟨rfl, rfl⟩)) hwrite s h

end

/-! ### Agreement -/

/-- The bits of the class `sys_access` takes the caller to be in. -/
def accessClass (cur : Current) (n : MInode) : Word :=
  (if cur.uid = n.uid ∨ cur.gid = n.gid.setWidth 16 then n.mode >>> 6 else n.mode).setWidth 32 &&& 7

/-- A caller of the group is to find the mask granted to the owner exactly if it is
granted to the group. `permission` refuses every mask with other bits than the
three of a class, which `sys_access` drops. -/
def MasksAgree (cur : Current) (n : MInode) (mask : Word) : Prop :=
  if mask ≤ 7 then
    cur.uid ≠ n.uid → cur.gid = n.gid.setWidth 16 →
      ((n.mode >>> 6).setWidth 32 &&& 7 &&& mask = mask ↔
        (n.mode >>> 3).setWidth 32 &&& 7 &&& mask = mask)
  else accessClass cur n &&& mask ≠ mask &&& 7

theorem accessBits_eq (cur : Current) (n : MInode) :
    accessBits cur n (n.mode.setWidth 32 &&& 0o777) &&& 7 = accessClass cur n := by
  have hothers := class_bits n.mode (Nat.zero_le 6)
  rw [ushiftRight_zero, ushiftRight_zero] at hothers
  unfold accessBits accessClass
  by_cases hu : cur.uid = n.uid
  · rw [if_pos hu, if_pos (.inl hu), class_bits n.mode le_rfl]
  by_cases hg : cur.gid = n.gid.setWidth 16
  · rw [if_neg hu, if_pos hg, if_pos (.inr hg), class_bits n.mode le_rfl]
  · rw [if_neg hu, if_neg hg, if_neg (not_or.mpr ⟨hu, hg⟩), hothers]

section

variable {rd : RamDisk} {cur : Current} {filename mask : Word} {n : MInode} {s s₁ s₂ : Fs} {ip : Ino}

theorem sysAccess_eq_zero_iff (hn : s₁.inode ip = n) (hlinks : n.nlinks ≠ 0) (huser : cur.uid ≠ 0)
    (hnamei : namei rd cur filename s = .ok (some ip) s₁)
    (hput : iput rd (some ip) s₁ = .ok ⟨⟩ s₂) :
    sysAccess rd cur filename mask s = .ok 0 s₂ ↔ accessClass cur n &&& mask = mask &&& 7 := by
  subst hn
  have howner := (@wp_iput_owner rd _ _ _ _ hlinks ⟨rfl, rfl⟩).of_ok hput
  have hbits (m : Word) : accessBits cur (s₂.inode ip) m = accessBits cur (s₁.inode ip) m := by
    rw [accessBits, accessBits, howner.1, howner.2]
  have hmask (x : Word) : x &&& 7 &&& (mask &&& 7) = x &&& 7 &&& mask := by
    rw [BitVec.and_comm mask, ← BitVec.and_assoc, BitVec.and_assoc x, BitVec.and_self]
  have hrun : sysAccess rd cur filename mask s =
      if accessClass cur (s₁.inode ip) &&& mask = mask &&& 7 then .ok 0 s₂ else .ok (-eacces) s₂ := by
    rw [sysAccess, bind_of_ok hnamei]
    change ((iput rd (some ip)) >>= fun _ => _) s₁ = _
    rw [bind_of_ok hput]
    change (ite _ _ _ : FsM ℤ) s₂ = _
    rw [hbits, hmask, accessBits_eq]
    split
    · rfl
    · rw [if_neg (fun h => huser h.1)]
      rfl
  rw [hrun]
  split
  · next h => exact iff_of_true rfl h
  · next h => exact iff_of_false (fun h0 => absurd (EStateM.Result.ok.inj h0).1 (by decide)) h

theorem permissionInt_iff (hlinks : n.nlinks ≠ 0) (huser : cur.euid ≠ 0) :
    permissionInt cur n mask = true ↔ (if cur.euid = n.uid then n.mode >>> 6
        else if cur.egid = n.gid.setWidth 16 then n.mode >>> 3
        else n.mode).setWidth 32 &&& mask &&& 7 = mask := by
  rw [permissionInt, if_neg (fun h => hlinks h.2)]
  exact decide_eq_true_iff.trans (or_iff_left huser)

theorem access_agrees_iff (hn : s₁.inode ip = n) (hlinks : n.nlinks ≠ 0) (huser : cur.uid ≠ 0)
    (huid : cur.euid = cur.uid) (hgid : cur.egid = cur.gid)
    (hnamei : namei rd cur filename s = .ok (some ip) s₁)
    (hput : iput rd (some ip) s₁ = .ok ⟨⟩ s₂) :
    (sysAccess rd cur filename mask s = .ok 0 s₂ ↔ permissionInt cur n mask = true) ↔
      MasksAgree cur n mask := by
  rw [sysAccess_eq_zero_iff hn hlinks huser hnamei hput, permissionInt_iff hlinks (huid ▸ huser),
    huid, hgid]
  unfold MasksAgree
  by_cases hmask : mask ≤ 7
  · rw [if_pos hmask, and_seven hmask, BitVec.and_assoc _ mask, BitVec.and_comm mask,
      ← BitVec.and_assoc, accessClass]
    by_cases hu : cur.uid = n.uid
    · simp only [hu, true_or, if_true, ne_eq, not_true_eq_false, false_imp_iff]
    by_cases hg : cur.gid = n.gid.setWidth 16
    · simp only [hu, hg, or_true, if_true, if_false, ne_eq, not_false_eq_true, true_imp_iff]
    · simp only [hu, hg, or_self, if_false, false_imp_iff, imp_true_iff]
  · rw [if_neg hmask, iff_false_right (and_ne_of_lt (BitVec.not_le.mp hmask))]

end

/-- The path `/` stands at `0x100`, and the group has fewer rights on the root than
its owner. -/
def groupFs : Fs :=
  { smallFs with
    mm := ⟨fun a => if a = 0x100 then 0x2f else 0, fun n => if n < 1024 then Mm.used else 0, false⟩
    inode := fun ip =>
      if ip = 0 then ⟨⟨0o40750, 0, 16, 0, 0, 2, fun i => if i = 0 then 5 else 0⟩, 0, 0, rdDev, 1, 2,
        false, false, false⟩
      else .cleared }

/-- A member of the group of the root. -/
def groupMember : Current := { smallCurrent with uid := 1, euid := 1, root := some 0, pwd := some 0 }

theorem groupFs_namei : ∃ s₁ s₂, namei smallDisk groupMember 0x100 groupFs = .ok (some 0) s₁ ∧
    iput smallDisk (some 0) s₁ = .ok ⟨⟩ s₂ ∧ (s₁.inode 0).mode = 0o40750 ∧
      (s₁.inode 0).uid = 0 ∧ (s₁.inode 0).gid = 0 ∧ (s₁.inode 0).nlinks = 2 := by
  obtain ⟨_, s₁, hnamei, rfl, hput, howner⟩ := exists_of_wp
    (show wp (namei smallDisk groupMember 0x100) (fun o s₁ => o = some 0 ∧
      returns (iput smallDisk (some 0)) s₁ = true ∧ (s₁.inode 0).mode = 0o40750 ∧
      (s₁.inode 0).uid = 0 ∧ (s₁.inode 0).gid = 0 ∧ (s₁.inode 0).nlinks = 2)
      (fun _ _ => False) groupFs by decide +kernel)
  obtain ⟨⟨⟩, hput⟩ := ok_after_of_returns hput
  exact ⟨s₁, _, hnamei, hput, howner⟩

/-- Searching is granted to the owner and to the group. -/
theorem access_agrees_search : ∃ s₁ s₂,
    namei smallDisk groupMember 0x100 groupFs = .ok (some 0) s₁ ∧
    MasksAgree groupMember (s₁.inode 0) 1 ∧ (sysAccess smallDisk groupMember 0x100 1 groupFs = .ok 0 s₂ ↔
      permissionInt groupMember (s₁.inode 0) 1 = true) := by
  obtain ⟨s₁, s₂, hnamei, hput, hmode, huid, hgid, hlinks⟩ := groupFs_namei
  have hagree : MasksAgree groupMember (s₁.inode 0) 1 := by
    rw [MasksAgree, hmode]
    exact fun _ _ => by decide
  exact ⟨s₁, s₂, hnamei, hagree, (access_agrees_iff rfl (by rw [hlinks]; decide) (by decide) rfl rfl hnamei
    hput).mpr hagree⟩

/-- Writing is granted to the owner only, and by `sys_access` to the group. -/
theorem access_grants_write : ∃ ip s₁ s₂,
    namei smallDisk groupMember 0x100 groupFs = .ok (some ip) s₁ ∧ (s₁.inode ip).nlinks ≠ 0 ∧
    sysAccess smallDisk groupMember 0x100 2 groupFs = .ok 0 s₂ ∧
    permissionInt groupMember (s₁.inode ip) 2 = false := by
  obtain ⟨s₁, s₂, hnamei, hput, hmode, huid, hgid, hlinks⟩ := groupFs_namei
  refine ⟨0, s₁, s₂, hnamei, by rw [hlinks]; decide, ?_, ?_⟩
  · refine (sysAccess_eq_zero_iff rfl (by rw [hlinks]; decide) (by decide) hnamei hput).mpr ?_
    rw [accessClass, hmode, huid, hgid]
    decide
  · rw [permissionInt, if_neg (by rw [hlinks]; exact fun h => absurd h.2 (by decide)), hmode, huid,
      hgid]
    rfl

end LinuxRv.Minix
