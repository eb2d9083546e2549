import LinuxRv.Lib.NameTable
import LinuxRv.Minix.InodeRefs

/-!
One inode in memory for each inode in use.

The inode table is a cache of the inodes on the disks, and the bitmaps say
which numbers are allocated. As long as `iget` is only asked for numbers that
are allocated, no inode is in the table twice and `new_inode` gives out numbers
that are neither allocated nor in the table. Apart from `new_inode` and
`free_inode` nothing changes the blocks of an inode bitmap.
-/

namespace LinuxRv.Minix

open ByteMemory Prog LinuxRv.Fs NameTable Function BitVec List Option

variable {dev : Dev} {i : Fin nrSuper}

/-! ### Names and bitmaps -/

/-- `get_super` -/
def Fs.superOf (s : Fs) (dev : Dev) : Option (Fin nrSuper) :=
  if dev = 0 then none else (finRange nrSuper).find? fun i => (s.super i).dev = dev

/-- The device and the number of an inode; an entry on no device has none. -/
def MInode.key (n : MInode) : Option (Dev × BitVec 16) :=
  if n.dev = 0 then none else some (n.dev, n.num)

/-- Whether the bit of an inode is set. -/
def Fs.allocated (s : Fs) (dev : Dev) (nr : BitVec 16) : Bool :=
  match s.superOf dev with
  | none => false
  | some i =>
    match (s.super i).imap (Fin.ofNat 8 (nr.toNat / 8192)) with
    | none => false
    | some map => bitAt (s.data dev map) (bitNr nr.toNat)

def Fs.names (s : Fs) : Set (Dev × BitVec 16) := {k | s.allocated k.1 k.2}

def Fs.keys (s : Fs) (ip : Ino) : Option (Dev × BitVec 16) := (s.inode ip).key

/-- The bitmaps where `read_super` finds them: the inode bitmap in the blocks
from 2 on, and behind it the zone bitmap and the data zones. -/
structure SuperBlock.Geometry (sb : SuperBlock) : Prop where
  imap : ∀ k b, sb.imap k = some b → b.toNat = 2 + k.1 ∧ k.1 < sb.imapBlocks.toNat
  zmap : ∀ k b, sb.zmap k = some b → 2 + sb.imapBlocks.toNat ≤ b.toNat
  data : sb.dev ≠ 0 → 2 + sb.imapBlocks.toNat ≤ sb.firstdatazone.toNat

/-- A block of an inode bitmap. -/
def Fs.IsMap (s : Fs) (dev : Dev) (block : BlockNr) : Prop :=
  ∃ i k, s.superOf dev = some i ∧ (s.super i).imap k = some block

/-- What of an inode only the operations on the table change. -/
def MInode.Alike (n m : MInode) : Prop :=
  n.dev = m.dev ∧ n.num = m.num ∧ n.count = m.count ∧ n.mount = m.mount

/-- Table and bitmaps have the names they had. -/
structure SameNames (s₀ s : Fs) : Prop where
  super : s.super = s₀.super
  inode : ∀ ip, (s.inode ip).Alike (s₀.inode ip)
  maps : ∀ dev block, s₀.IsMap dev block → s.data dev block = s₀.data dev block

theorem MInode.Alike.refl (n : MInode) : n.Alike n := ⟨rfl, rfl, rfl, rfl⟩

theorem MInode.Alike.trans {n m l : MInode} (h : n.Alike m) (h' : m.Alike l) : n.Alike l :=
  ⟨h.1.trans h'.1, h.2.1.trans h'.2.1, h.2.2.1.trans h'.2.2.1, h.2.2.2.trans h'.2.2.2⟩

theorem MInode.Alike.key {n m : MInode} (h : n.Alike m) : n.key = m.key := by
  unfold MInode.key
  rw [h.1, h.2.1]

theorem SameNames.refl (s : Fs) : SameNames s s := ⟨rfl, fun _ => .refl _, fun _ _ _ => rfl⟩

theorem SameNames.trans {s₀ s s' : Fs} (h : SameNames s₀ s) (h' : SameNames s s') :
    SameNames s₀ s' := by
  refine ⟨h'.super.trans h.super, fun ip => (h'.inode ip).trans (h.inode ip),
    fun dev block hmap => ?_⟩
  rw [← h.maps dev block hmap]
  apply h'.maps
  unfold Fs.IsMap Fs.superOf
  rw [h.super]
  exact hmap

theorem SameNames.keys {s₀ s : Fs} (h : SameNames s₀ s) : s.keys = s₀.keys :=
  funext fun ip => (h.inode ip).key

theorem SameNames.superOf {s₀ s : Fs} (h : SameNames s₀ s) (dev : Dev) :
    s.superOf dev = s₀.superOf dev := by
  unfold Fs.superOf
  rw [h.super]

theorem SameNames.names {s₀ s : Fs} (h : SameNames s₀ s) : s.names = s₀.names := by
  ext ⟨dev, nr⟩
  show s.allocated dev nr = true ↔ s₀.allocated dev nr = true
  unfold Fs.allocated
  rw [h.superOf, h.super]
  cases hsup : s₀.superOf dev with
  | none => rfl
  | some i =>
    dsimp only
    cases hmap : (s₀.super i).imap (Fin.ofNat 8 (nr.toNat / 8192)) with
    | none => rfl
    | some map =>
      dsimp only
      rw [h.maps dev map ⟨i, _, hsup, hmap⟩]

theorem dev_ne_of_superOf {s : Fs} (h : s.superOf dev = some i) : (s.super i).dev ≠ 0 := by
  unfold Fs.superOf at h
  split at h
  · cases h
  · rename_i hdev
    have hi : (s.super i).dev = dev := by simpa using find?_some h
    rwa [hi]

/-- Blocks from the zone bitmap on are no blocks of the inode bitmap. -/
theorem not_isMap {s : Fs} (hgeo : ∀ i, (s.super i).Geometry)
    {block : BlockNr} (hi : s.superOf dev = some i)
    (hle : 2 + (s.super i).imapBlocks.toNat ≤ block.toNat) : ¬ s.IsMap dev block := by
  rintro ⟨j, k, hj, hmap⟩
  rw [hi] at hj
  cases hj
  obtain ⟨hplace, hlt⟩ := (hgeo i).imap k block hmap
  omega

/-! ### What leaves the names alone -/

/-- A stop is not looked at. -/
def AnyStop (_ : Halt) (_ : Fs) : Prop := True

section

variable {block : BlockNr} {dev : Dev} {ip : Ino} {s : Fs} {rd : RamDisk} {s₀ : Fs} {α : Type}

theorem same_throw {e : Halt} : Keeps (SameNames s₀) AnyStop (throw e : FsM α) :=
  .throw fun _ _ => trivial

theorem inode_setInode_self (s : Fs) (ip : Ino) (n : MInode) : (s.setInode ip n).inode ip = n :=
  update_self ..

theorem inode_setInode_of_ne (s : Fs) {ip' : Ino} (n : MInode) (h : ip' ≠ ip) :
    (s.setInode ip n).inode ip' = s.inode ip' :=
  update_of_ne h ..

instance (s₀ : Fs) : IgnoresUsers (SameNames s₀) AnyStop where
  users _ hs := ⟨hs.super, hs.inode, hs.maps⟩
  setBody {_ ip _} hs hcount _ hdev hnum hmount := ⟨hs.super, fun ip' => by
    rcases eq_or_ne ip' ip with rfl | hne
    · rw [inode_setInode_self]
      exact .trans ⟨hdev, hnum, hcount, hmount⟩ (hs.inode ip')
    · rw [inode_setInode_of_ne _ _ hne]
      exact hs.inode ip', hs.maps⟩
  stop _ _ := trivial

theorem wp_getSuper_iff {Q : Option (Fin nrSuper) → Fs → Prop}
    {E : Halt → Fs → Prop} : wp (getSuper dev) Q E s ↔ Q (s.superOf dev) s := by
  unfold getSuper Fs.superOf
  rw [wp_bind, wp_get]
  split
  · rw [wp_pure]
  · rw [wp_pure]

theorem keys_setInode (s : Fs) (ip : Ino) (n : MInode) :
    (s.setInode ip n).keys = update s.keys ip n.key := by
  funext ip'
  unfold Fs.keys
  rcases eq_or_ne ip' ip with rfl | hne
  · rw [inode_setInode_self, update_self]
  · rw [inode_setInode_of_ne s n hne, update_of_ne hne]

theorem SameNames.setInode (hs : SameNames s₀ s) {n m : MInode}
    (h : n.Alike m) : SameNames (s₀.setInode ip m) (s.setInode ip n) := by
  refine ⟨hs.super, fun ip' => ?_, hs.maps⟩
  rcases eq_or_ne ip' ip with rfl | hne
  · rwa [inode_setInode_self, inode_setInode_self]
  · rw [inode_setInode_of_ne s n hne, inode_setInode_of_ne s₀ m hne]
    exact hs.inode ip'

theorem SameNames.setData (hs : SameNames s₀ s) (b : Block)
    (h : ¬ s₀.IsMap dev block) : SameNames s₀ (s.setData dev block b) := by
  refine ⟨hs.super, hs.inode, fun dev' block' hmap => ?_⟩
  rw [← hs.maps dev' block' hmap]
  rcases eq_or_ne dev' dev with rfl | hne
  · rcases eq_or_ne block' block with rfl | hne
    · exact absurd hmap h
    · simp [Fs.setData, hne]
  · simp [Fs.setData, hne]

theorem same_updateData {f : Block → Block}
    (h : ¬ s₀.IsMap dev block) : Keeps (SameNames s₀) AnyStop (updateData dev block f) :=
  .modify fun _ hs => hs.setData _ h

theorem same_liftMm {c : Mm.M α} : Keeps (SameNames s₀) AnyStop (liftMm c) := by
  intro s hs
  exact wp_liftMm.mpr (wp_of_forall (fun _ _ => ⟨hs.super, hs.inode, hs.maps⟩) fun _ _ => trivial)

variable (hgeo : ∀ i, (s₀.super i).Geometry)

include hgeo

/-- The inode blocks come after the bitmaps. -/
theorem not_isMap_blockOf {i : Fin nrSuper} (hi : s₀.superOf dev = some i)
    (num : BitVec 16) : ¬ s₀.IsMap dev (blockOf (s₀.super i) num) := by
  apply not_isMap hgeo hi
  have himap := (s₀.super i).imapBlocks.isLt
  have hzmap := (s₀.super i).zmapBlocks.isLt
  have hquot : ((num.setWidth 32 - 1) / 32 : BitVec 32).toNat < 2 ^ 27 := by
    rw [toNat_udiv]
    have hlt := (num.setWidth 32 - 1 : BitVec 32).isLt
    show _ / 32 < _
    omega
  unfold blockOf
  rw [toNat_add, toNat_add, toNat_add, toNat_setWidth,
    toNat_setWidth, show BitVec.toNat (2 : BitVec 32) = 2 from rfl]
  omega

theorem same_writeInode : Keeps (SameNames s₀) AnyStop (writeInode rd ip) := by
  refine keeps_readInodeTable.bind fun n => .ite (.pure _) ?_
  intro s hs
  rw [wp_bind, wp_getSuper_iff]
  split
  · exact same_throw s hs
  · rename_i i hi
    have hblock : ¬ s₀.IsMap n.dev (blockOf (s.super i) n.num) := by
      rw [hs.super]
      rw [hs.superOf] at hi
      exact not_isMap_blockOf hgeo hi n.num
    rw [wp_bind, wp_get]
    refine keeps_bread.bind (fun b => .ite ?_ same_throw) s hs
    exact (same_updateData hblock).bind fun _ => (keeps_updateBody (by simp)).bind fun _ => keeps_brelse

theorem same_syncDev : Keeps (SameNames s₀) AnyStop (syncDev rd) :=
  .forN fun _ => keeps_readInodeTable.bind fun _ => .ite (same_writeInode hgeo) (.pure _)

theorem same_freeBlock : Keeps (SameNames s₀) AnyStop (freeBlock dev block) := by
  intro s hs
  rw [freeBlock, wp_bind, wp_getSuper_iff]
  split
  · exact same_throw s hs
  · rename_i i hi
    rw [hs.superOf] at hi
    rw [wp_bind, wp_get]
    refine wp_ite.mpr ⟨fun _ => same_throw s hs, fun hin => wp_ite.mpr
      ⟨fun _ => wp_set.mpr ⟨hs.super, hs.inode, hs.maps⟩, fun _ => ?_⟩⟩
    have hgeo' := hgeo i
    rw [hs.super] at hin ⊢
    -- a data zone
    have hblock : ¬ s₀.IsMap dev block := by
      apply not_isMap hgeo hi
      have hdata := hgeo'.data (dev_ne_of_superOf hi)
      have hfirst := not_lt.mp (not_or.mp hin).1
      have hnat : block.toInt = block.toNat := by
        rw [toInt_eq_toNat_cond] at hfirst ⊢
        split at hfirst
        · rw [if_pos (by assumption)]
        · have hlt := block.isLt
          omega
      omega
    have hset := hs.setData (s.stale dev block) hblock
    rw [wp_bind, wp_set]
    dsimp only
    split
    · split
      · exact same_throw _ hset
      · rename_i map hmap
        have hzmap : ¬ s₀.IsMap dev map := not_isMap hgeo hi (hgeo'.zmap _ _ hmap)
        exact Keeps.get.bind (fun _ => .ite (same_updateData hzmap) same_throw) _ hset
    · exact same_throw _ hset

end

/-! ### What changes the names -/

/-- The numbers that share a bit of a bitmap are equal. -/
theorem eq_of_bit {nr nr' : BitVec 16}
    (hblock : (Fin.ofNat 8 (nr'.toNat / 8192)).1 = (Fin.ofNat 8 (nr.toNat / 8192)).1)
    (hbit : bitNr nr'.toNat = bitNr nr.toNat) : nr' = nr := by
  have hlt := nr.isLt
  have hlt' := nr'.isLt
  have hmod : nr'.toNat % 8192 = nr.toNat % 8192 := congrArg Fin.val hbit
  have hdiv : nr'.toNat / 8192 % 8 = nr.toNat / 8192 % 8 := hblock
  apply eq_of_toNat_eq
  omega

/-- The bit of one inode is changed. -/
theorem allocated_setBit {s : Fs} {nr : BitVec 16} {map : BlockNr}
    (hgeo : (s.super i).Geometry) (hi : s.superOf dev = some i)
    (hmap : (s.super i).imap (Fin.ofNat 8 (nr.toNat / 8192)) = some map) (v : Bool) (dev' : Dev)
    (nr' : BitVec 16) :
    (s.setData dev map (setBitAt (s.data dev map) (bitNr nr.toNat) v)).allocated dev' nr' =
      if (dev', nr') = (dev, nr) then v else s.allocated dev' nr' := by
  have hsup : (s.setData dev map (setBitAt (s.data dev map) (bitNr nr.toNat) v)).superOf dev' =
      s.superOf dev' := rfl
  rcases eq_or_ne dev' dev with rfl | hdev
  · unfold Fs.allocated
    rw [hsup, hi]
    dsimp only [Fs.setData]
    rw [update_self]
    rcases eq_or_ne nr' nr with rfl | hnr
    · rw [hmap, if_pos rfl]
      dsimp only
      rw [update_self, bitAt_setBitAt, if_pos rfl]
    · rw [if_neg (by simp [hnr])]
      cases hmap' : (s.super i).imap (Fin.ofNat 8 (nr'.toNat / 8192)) with
      | none => rfl
      | some map' =>
        dsimp only
        rcases eq_or_ne map' map with rfl | hne
        · have hblock := (hgeo.imap _ _ hmap').1.symm.trans (hgeo.imap _ _ hmap).1
          have hbit : bitNr nr'.toNat ≠ bitNr nr.toNat := fun hbit =>
            hnr (eq_of_bit (Nat.add_left_cancel hblock) hbit)
          rw [update_self, bitAt_setBitAt, if_neg hbit]
        · rw [update_of_ne hne]
  · rw [if_neg (by simp [hdev])]
    unfold Fs.allocated
    rw [hsup]
    dsimp only [Fs.setData]
    rw [update_of_ne hdev]

/-- The name of an entry was given up. -/
structure Freed (s₀ : Fs) (ip : Ino) (s : Fs) : Prop where
  super : s.super = s₀.super
  keys : s.keys = update s₀.keys ip none
  names : s.names = {k | k ∈ s₀.names ∧ s₀.keys ip ≠ some k}

section

variable {rd : RamDisk} {s₀ s : Fs} {ip : Ino}

theorem keys_eq_none (h : (s.inode ip).dev = 0) : s.keys ip = none := if_pos h

theorem keys_eq_some (h : (s.inode ip).dev ≠ 0) :
    s.keys ip = some ((s.inode ip).dev, (s.inode ip).num) := if_neg h

theorem key_cleared : MInode.cleared.key = none := rfl

theorem SameNames.wp_freeInode (hgeo : ∀ i, (s₀.super i).Geometry) (hs : SameNames s₀ s) :
    wp (freeInode ip) (fun _ => Freed s₀ ip) AnyStop s := by
  rw [freeInode, wp_bind, readInodeTable, wp_bind, wp_get, wp_pure]
  refine wp_ite.mpr ⟨fun hdev => ?_, fun hdev => wp_ite.mpr ⟨fun _ => wp_throw.mpr trivial,
    fun _ => wp_ite.mpr ⟨fun _ => wp_throw.mpr trivial, fun _ => ?_⟩⟩⟩
  · have hnone : s₀.keys ip = none := by
      rw [← hs.keys]
      exact keys_eq_none hdev
    refine wp_modify.mpr ⟨hs.super, ?_, ?_⟩
    · rw [keys_setInode, hs.keys, key_cleared]
    · show s.names = _
      rw [hs.names, hnone]
      ext k
      simp
  · rw [wp_bind, wp_getSuper_iff]
    split
    · exact wp_throw.mpr trivial
    · rename_i i hi
      rw [wp_bind, wp_get]
      refine wp_ite.mpr ⟨fun _ => wp_throw.mpr trivial, fun _ => ?_⟩
      split
      · exact wp_throw.mpr trivial
      · rename_i map hmap
        have hgeo' : (s.super i).Geometry := by
          rw [hs.super]
          exact hgeo i
        have hkey : s₀.keys ip = some ((s.inode ip).dev, (s.inode ip).num) := by
          rw [← hs.keys]
          exact keys_eq_some hdev
        rw [wp_bind, updateData, wp_modify, updateInode, wp_modify]
        refine ⟨hs.super, ?_, ?_⟩
        · rw [keys_setInode, key_cleared, ← hs.keys]
          rfl
        · rw [← hs.names, hkey]
          ext ⟨dev, nr⟩
          show Fs.allocated (s.setData _ _ _) dev nr = true ↔ s.allocated dev nr = true ∧ _
          rw [allocated_setBit hgeo' hi hmap false dev nr]
          split
          · rename_i heq
            simp [heq]
          · rename_i hne
            simp [Ne.symm hne]

/-- A reference less to an entry. -/
def Fs.drop (s : Fs) (ip : Ino) : Fs :=
  s.setInode ip { s.inode ip with count := (s.inode ip).count - 1 }

theorem SameNames.drop (hs : SameNames s₀ s) : SameNames (s₀.drop ip) (s.drop ip) := by
  obtain ⟨hdev, hnum, hcount, hmount⟩ := hs.inode ip
  exact hs.setInode ⟨hdev, hnum, by rw [hcount], hmount⟩

/-- `iput` takes a reference away, and the last one to an inode without links
takes its name. -/
theorem wp_iput_names (hgeo : ∀ i, (s.super i).Geometry) :
    wp (iput rd (some ip)) (fun _ s' => SameNames (s.drop ip) s' ∨
      (s.inode ip).dev ≠ 0 ∧ (s.inode ip).count = 1 ∧ Freed s ip s') AnyStop s := by
  have hdrop {s' : Fs} (hs' : SameNames s s') :
      wp (updateInode ip fun n => { n with count := n.count - 1 })
        (fun _ => SameNames (s.drop ip)) AnyStop s' := wp_modify.mpr hs'.drop
  rw [iput, wp_bind, readInodeTable, wp_bind, wp_get, wp_pure]
  refine wp_ite.mpr ⟨fun _ => wp_throw.mpr trivial, fun hzero => wp_ite.mpr ⟨fun _ => ?_, fun _ =>
    wp_ite.mpr ⟨fun _ => (hdrop (.refl s)).imp fun _ _ => Or.inl, fun hdev => ?_⟩⟩⟩
  · refine (hdrop (.refl s)).next fun _ s' hs' => wp_ite.mpr
      ⟨fun _ => wp_pure.mpr (Or.inl hs'), fun hlast => ?_⟩
    refine (same_liftMm s' hs').next fun _ s'' hs'' => wp_modify.mpr (Or.inl ?_)
    -- the count is 0 already
    refine ⟨hs''.super, fun ip' => ?_, hs''.maps⟩
    have hthis := hs''.inode ip'
    rcases eq_or_ne ip' ip with rfl | hne
    · have hcount : ((s.drop ip').inode ip').count = 0 := by
        rw [Fs.drop, inode_setInode_self]
        exact not_not.mp hlast
      rw [inode_setInode_self]
      exact ⟨hthis.1, hthis.2.1, hcount.symm, hthis.2.2.2⟩
    · rwa [inode_setInode_of_ne s'' _ hne]
  · have hrest {s' : Fs} (hs' : SameNames s s') : wp (do
        if 1 < (s.inode ip).count then
          updateInode ip fun n => { n with count := n.count - 1 }
        else if (s.inode ip).nlinks = 0 then
          truncate rd ip
          freeInode ip
        else
          writeInode rd ip
          updateInode ip fun n => { n with count := n.count - 1 })
        (fun _ s' => SameNames (s.drop ip) s' ∨
          (s.inode ip).dev ≠ 0 ∧ (s.inode ip).count = 1 ∧ Freed s ip s') AnyStop s' := by
      refine wp_ite.mpr ⟨fun _ => (hdrop hs').imp fun _ _ => Or.inl, fun hone => wp_ite.mpr
        ⟨fun _ => wp_bind.mpr ?_, fun _ => wp_bind.mpr ?_⟩⟩
      · have hcount : (s.inode ip).count = 1 := by
          have hle : (s.inode ip).count.toNat ≤ 1 := le_def.mp (BitVec.not_lt.mp hone)
          have hpos : (s.inode ip).count.toNat ≠ 0 := fun h0 =>
            hzero (eq_of_toNat_eq h0)
          exact eq_of_toNat_eq (show _ = 1 by omega)
        refine (keeps_truncate_of (fun _ _ => same_freeBlock hgeo) s' hs').imp fun _ s'' hs'' => ?_
        exact (hs''.wp_freeInode hgeo).imp fun _ _ hfreed => Or.inr ⟨hdev, hcount, hfreed⟩
      · exact (same_writeInode hgeo s' hs').imp fun _ s'' hs'' => (hdrop hs'').imp fun _ _ => Or.inl
    refine wp_ite.mpr ⟨fun _ => wp_bind.mpr ?_, fun _ => hrest (.refl s)⟩
    exact (same_syncDev hgeo s (.refl s)).imp fun _ s' hs' => hrest hs'

/-- An entry was taken for an inode to come. -/
structure Taken (s₀ : Fs) (ip : Ino) (s : Fs) : Prop where
  free : (s₀.inode ip).count = 0
  same : SameNames (s₀.setInode ip { MInode.cleared with count := 1 }) s

theorem wp_getEmptyInode_names (hgeo : ∀ i, (s.super i).Geometry) :
    wp (getEmptyInode rd) (fun ip s' => Taken s ip s') AnyStop s := by
  rw [getEmptyInode, wp_bind, wp_get]
  dsimp only
  split
  · rename_i ip hfind
    have hfree : (s.inode ip).count = 0 := (by simpa using find?_some hfind : _ ∧ _).1
    rw [wp_bind, wp_set, wp_bind, updateInode, wp_modify, wp_pure]
    exact ⟨hfree, rfl, fun ip' => .refl _, fun _ _ _ => rfl⟩
  · split
    · exact wp_throw.mpr trivial
    · rename_i ip hfind
      have hfree : (s.inode ip).count = 0 := by simpa using find?_some hfind
      refine (same_writeInode hgeo s (.refl s)).next fun _ s' hs' => ?_
      rw [wp_bind, wp_get]
      refine wp_ite.mpr ⟨fun _ => wp_throw.mpr trivial, fun _ => ?_⟩
      rw [wp_bind, updateInode, wp_modify, wp_pure]
      exact ⟨hfree, hs'.setInode (.refl _)⟩

theorem Taken.keys (h : Taken s₀ ip s) : s.keys = update s₀.keys ip none := by
  rw [h.same.keys, keys_setInode]
  rfl

theorem Taken.names (h : Taken s₀ ip s) : s.names = s₀.names := h.same.names

theorem Taken.super (h : Taken s₀ ip s) : s.super = s₀.super := h.same.super

end

/-! ### One copy -/

/-- No inode is in the table twice, and those in the table are allocated. -/
structure Fs.OneCopy (s : Fs) : Prop where
  geometry : ∀ i, (s.super i).Geometry
  consistent : Consistent s.keys s.names

/-- What `iget` may be asked for: an inode that is allocated. It goes on from a
mount point, which is in use, to the root of what is mounted. -/
structure Fs.Named (s : Fs) (dev : Dev) (nr : BitVec 16) : Prop where
  name : (dev, nr) ∈ s.names
  inUse : ∀ ip, (s.inode ip).mount → (s.inode ip).count ≠ 0
  roots : ∀ ip i, (s.inode ip).mount → (s.super i).imount = some ip →
    ((s.super i).dev, rootIno) ∈ s.names

section

variable {dev : Dev} {nr : BitVec 16} {rd : RamDisk} {s₀ s : Fs} {ip : Ino}

theorem Fs.OneCopy.of_same (h : s₀.OneCopy) (hs : SameNames s₀ s) : s.OneCopy where
  geometry := by
    rw [hs.super]
    exact h.geometry
  consistent := by
    rw [hs.keys, hs.names]
    exact h.consistent

theorem Fs.OneCopy.freed (h : s₀.OneCopy) (hs : Freed s₀ ip s) : s.OneCopy where
  geometry := by
    rw [hs.super]
    exact h.geometry
  consistent := by
    rw [hs.keys, hs.names]
    exact h.consistent.free ip

theorem Fs.OneCopy.taken (h : s₀.OneCopy) (hs : Taken s₀ ip s) : s.OneCopy where
  geometry := by
    rw [hs.super]
    exact h.geometry
  consistent := by
    rw [hs.keys, hs.names]
    exact h.consistent.evict ip

/-- An entry changes in other things than its name. -/
theorem Fs.OneCopy.setInode (h : s.OneCopy) {n : MInode} (hn : n.key = (s.inode ip).key) :
    (s.setInode ip n).OneCopy := by
  have hkeys : (s.setInode ip n).keys = s.keys := by
    rw [keys_setInode, hn]
    exact update_eq_self ip s.keys
  refine ⟨h.geometry, ?_⟩
  rw [hkeys]
  exact h.consistent

theorem Fs.OneCopy.wp_iput (h : s.OneCopy) :
    wp (iput rd (some ip)) (fun _ s' => s'.OneCopy) AnyStop s := by
  refine (wp_iput_names h.geometry).imp fun _ s' hs' => ?_
  rcases hs' with hsame | ⟨_, _, hfreed⟩
  · have hdrop : (s.drop ip).OneCopy := h.setInode rfl
    exact hdrop.of_same hsame
  · exact h.freed hfreed

theorem dev_ne_of_mem_names (h : (dev, nr) ∈ s.names) : dev ≠ 0 := by
  rintro rfl
  have hnone : s.superOf 0 = none := if_pos rfl
  have hfalse : s.allocated 0 nr = false := by
    unfold Fs.allocated
    rw [hnone]
  have htrue : s.allocated 0 nr = true := h
  rw [hfalse] at htrue
  cases htrue

theorem keys_eq_some_iff (hdev : dev ≠ 0) :
    s.keys ip = some (dev, nr) ↔ (s.inode ip).dev = dev ∧ (s.inode ip).num = nr := by
  unfold Fs.keys MInode.key
  split
  · rename_i h0
    exact ⟨nofun, fun h => absurd (h.1.symm.trans h0) hdev⟩
  · simp

/-- What `iget` gives for the name `k`: the entry that has it, unless that is a
mount point, and the empty one if there is none. -/
structure Got (s : Fs) (empty : Ino) (k : Dev × BitVec 16) (ip : Ino) (s' : Fs) : Prop where
  oneCopy : s'.OneCopy
  found : ∀ jp, s.keys jp = some k → (s.inode jp).mount = false → ip = jp
  fresh : (∀ jp, s.keys jp ≠ some k) → ip = empty

/-- A reference taken and given back. -/
theorem same_take_drop (s : Fs) (ip : Ino) : SameNames s
    ((s.setInode ip { s.inode ip with count := (s.inode ip).count + 1 }).drop ip) := by
  refine ⟨rfl, fun jp => ?_, fun _ _ _ => rfl⟩
  unfold Fs.drop
  rcases eq_or_ne jp ip with rfl | hne
  · rw [inode_setInode_self, inode_setInode_self]
    exact ⟨rfl, rfl, add_sub_cancel_right _ _, rfl⟩
  · rw [inode_setInode_of_ne _ _ hne, inode_setInode_of_ne _ _ hne]
    exact .refl _

theorem Fs.OneCopy.wp_igetFrom {s₁ : Fs} {empty : Ino} {fuel : ℕ}
    (h : s₁.OneCopy) (hnamed : s₁.Named dev nr) (hs : SameNames s₁ s) :
    wp (igetFrom rd empty fuel dev nr) (Got s₁ empty (dev, nr)) AnyStop s := by
  induction fuel generalizing s dev nr with
  | zero => exact wp_throw.mpr trivial
  | succ fuel ih =>
    have hdev : dev ≠ 0 := dev_ne_of_mem_names hnamed.name
    have hcopy : s.OneCopy := h.of_same hs
    rw [igetFrom, wp_bind, wp_get]
    split
    · rename_i hnone
      have hnew (jp : Ino) : s.keys jp ≠ some (dev, nr) := by
        have hjp := find?_eq_none.mp hnone jp (mem_finRange jp)
        rw [Ne, keys_eq_some_iff hdev]
        simpa using hjp
      -- the empty entry gets the name, and the inode is read
      have hset : (s.setInode empty { s.inode empty with dev := dev, num := nr }).OneCopy := by
        refine ⟨hcopy.geometry, ?_⟩
        rw [keys_setInode, show MInode.key { s.inode empty with dev := dev, num := nr } =
          some (dev, nr) from if_neg hdev]
        refine hcopy.consistent.enter empty ?_ hnew
        rw [hs.names]
        exact hnamed.name
      rw [wp_bind, updateInode, wp_modify]
      refine (keeps_readInode _ (.refl _)).next fun _ s' hs' => wp_pure.mpr ⟨hset.of_same hs', ?_, ?_⟩
      · intro jp hjp
        rw [← hs.keys] at hjp
        exact absurd hjp (hnew jp)
      · exact fun _ => rfl
    · rename_i ip hfind
      have hkey : s.keys ip = some (dev, nr) := by
        rw [keys_eq_some_iff hdev]
        simpa using find?_some hfind
      have hfound {s' : Fs} (hone : s'.OneCopy) : Got s₁ empty (dev, nr) ip s' := by
        rw [hs.keys] at hkey
        refine ⟨hone, fun jp hjp _ => h.consistent.unique ip jp _ hkey hjp, fun hno => ?_⟩
        exact absurd hkey (hno ip)
      have hmore : (s.setInode ip { s.inode ip with count := (s.inode ip).count + 1 }).OneCopy :=
        hcopy.setInode rfl
      have hdone : wp (do iput rd (some empty); return ip) (Got s₁ empty (dev, nr)) AnyStop
          (s.setInode ip { s.inode ip with count := (s.inode ip).count + 1 }) :=
        hmore.wp_iput.next fun _ s' hs' => wp_pure.mpr (hfound hs')
      rw [wp_bind, updateInode, wp_modify]
      refine wp_ite.mpr ⟨fun hmount => ?_, fun _ => hdone⟩
      split
      · exact hdone
      · rename_i i hsuper
        have himount : (s.super i).imount = some ip := by simpa using find?_some hsuper
        rw [hs.super] at himount ⊢
        obtain ⟨_, _, hcount, hmount'⟩ := hs.inode ip
        rw [hmount'] at hmount
        -- the mount point keeps the references it has
        refine (wp_iput_names hmore.geometry).next fun _ s' hs' => ?_
        rcases hs' with hsame | ⟨_, hone, _⟩
        · have hback : SameNames s s' := (same_take_drop s ip).trans hsame
          have hroot : s₁.Named (s₁.super i).dev rootIno :=
            ⟨hnamed.roots ip i hmount himount, hnamed.inUse, hnamed.roots⟩
          refine (ih hroot (hs.trans hback)).imp fun jp s'' hgot => ?_
          rw [hs.keys] at hkey
          refine ⟨hgot.oneCopy, fun jp' hjp' hplain => ?_, fun hno => absurd hkey (hno ip)⟩
          rw [← h.consistent.unique ip jp' _ hkey hjp', hmount] at hplain
          cases hplain
        · rw [inode_setInode_self] at hone
          have hzero : (s.inode ip).count = 0 := by
            have hsub := congrArg (· - 1) hone
            simpa using hsub
          exact absurd (hcount.symm.trans hzero) (hnamed.inUse ip hmount)

theorem Fs.OneCopy.wp_iget (h : s.OneCopy) (hnamed : s.Named dev nr) :
    wp (iget rd dev nr) (fun ip s' => s'.OneCopy ∧
      ∀ jp, s.keys jp = some (dev, nr) → (s.inode jp).mount = false → ip = jp) AnyStop s := by
  refine wp_ite.mpr ⟨fun _ => wp_throw.mpr trivial, fun _ => ?_⟩
  refine (wp_getEmptyInode_names h.geometry).next fun empty s₁ htaken => ?_
  have hother {jp : Ino} (hne : jp ≠ empty) : (s₁.inode jp).Alike (s.inode jp) := by
    have hjp := htaken.same.inode jp
    rwa [inode_setInode_of_ne s _ hne] at hjp
  have hplain : (s₁.inode empty).mount = false := by
    rw [(htaken.same.inode empty).2.2.2, inode_setInode_self]
    rfl
  have hne {jp : Ino} (hmount : (s₁.inode jp).mount = true) : jp ≠ empty := by
    rintro rfl
    rw [hplain] at hmount
    cases hmount
  have hnamed₁ : s₁.Named dev nr := by
    refine ⟨by rw [htaken.names]; exact hnamed.name, fun jp hmount => ?_, fun jp i hmount hi => ?_⟩
    · obtain ⟨_, _, hcount, hmount'⟩ := hother (hne hmount)
      rw [hcount]
      exact hnamed.inUse jp (hmount'.symm.trans hmount)
    · obtain ⟨_, _, _, hmount'⟩ := hother (hne hmount)
      rw [htaken.super] at hi ⊢
      rw [htaken.names]
      exact hnamed.roots jp i (hmount'.symm.trans hmount) hi
  refine ((h.taken htaken).wp_igetFrom hnamed₁ (.refl s₁)).imp fun ip s' hgot => ?_
  refine ⟨hgot.oneCopy, fun jp hjp hmount => ?_⟩
  rcases eq_or_ne jp empty with rfl | hjpne
  · -- the entry itself was emptied, and it is the one that is filled again
    apply hgot.fresh
    intro jp' hjp'
    rw [htaken.keys] at hjp'
    obtain ⟨hne', hkey⟩ := update_none_eq_some.mp hjp'
    exact hne' (h.consistent.unique jp' jp _ hkey hjp)
  · apply hgot.found jp
    · rw [htaken.keys, update_of_ne hjpne]
      exact hjp
    · rw [(hother hjpne).2.2.2]
      exact hmount

/-- The bit `new_inode` finds belongs to a number that is not allocated. -/
theorem freeBit_imap {i : Fin nrSuper} {k : Fin 8} {map : BlockNr} {j : ℕ}
    (hi : s.superOf dev = some i) (h : freeBit s dev (s.super i).imap = some (k, map, j)) :
    (BitVec.ofNat 16 (j + k * 8192)).toNat % 8192 = j ∧
      (s.super i).imap (Fin.ofNat 8 ((BitVec.ofNat 16 (j + k * 8192)).toNat / 8192)) = some map ∧
      (dev, .ofNat 16 (j + k * 8192)) ∉ s.names := by
  obtain ⟨k', _, hk'⟩ := exists_of_findSome?_eq_some h
  obtain ⟨map', hmap', hbit⟩ := bind_eq_some_iff.mp hk'
  rw [ite_none_right_eq_some] at hbit
  obtain ⟨hlt, heq⟩ := hbit
  simp only [some.injEq, Prod.mk.injEq] at heq
  obtain ⟨rfl, rfl, rfl⟩ := heq
  have hk := k'.isLt
  have hnat : (BitVec.ofNat 16 (findFirstZero (s.data dev map') + k' * 8192)).toNat =
      findFirstZero (s.data dev map') + k' * 8192 := by
    rw [toNat_ofNat]
    omega
  have hblock : Fin.ofNat 8 ((findFirstZero (s.data dev map') + k' * 8192) / 8192) = k' := by
    apply Fin.ext
    show (findFirstZero (s.data dev map') + k' * 8192) / 8192 % 8 = k'.1
    omega
  have hclear : bitAt (s.data dev map')
      (bitNr (findFirstZero (s.data dev map') + k' * 8192)) = false := by
    have hnr : bitNr (findFirstZero (s.data dev map') + k' * 8192) =
        ⟨findFirstZero (s.data dev map'), hlt⟩ := by
      generalize findFirstZero (s.data dev map') = z at hlt
      apply Fin.ext
      show (z + k' * 8192) % 8192 = z
      omega
    rw [hnr]
    exact firstFalse_lt hlt
  rw [hnat, hblock]
  refine ⟨by omega, hmap', ?_⟩
  show ¬ s.allocated dev _ = true
  unfold Fs.allocated
  rw [hi, hnat, hblock]
  dsimp only
  rw [hmap']
  dsimp only
  rw [hclear]
  exact Bool.false_ne_true

theorem Fs.OneCopy.wp_newInode {cur : Current} (h : s.OneCopy) :
    wp (newInode rd cur dev) (fun o s' => s'.OneCopy ∧ ∀ ip ∈ o, dev ≠ 0 ∧
      (dev, (s'.inode ip).num) ∉ s.names ∧ ∀ jp, s.keys jp ≠ some (dev, (s'.inode ip).num))
      AnyStop s := by
  rw [newInode]
  refine (wp_getEmptyInode_names h.geometry).next fun ip s₁ htaken => ?_
  have h₁ := h.taken htaken
  have hgiveUp : wp (do iput rd (some ip); return none)
      (fun (o : Option Ino) s' => s'.OneCopy ∧ ∀ ip ∈ o, dev ≠ 0 ∧
        (dev, (s'.inode ip).num) ∉ s.names ∧ ∀ jp, s.keys jp ≠ some (dev, (s'.inode ip).num))
      AnyStop s₁ :=
    h₁.wp_iput.next fun _ s' hs' => wp_pure.mpr ⟨hs', nofun⟩
  rw [wp_bind, wp_getSuper_iff]
  split
  · exact wp_throw.mpr trivial
  · rename_i i hi
    rw [wp_bind, wp_get]
    dsimp only
    split
    · exact hgiveUp
    · rename_i k map j hbit
      refine wp_ite.mpr ⟨fun _ => hgiveUp, fun _ => ?_⟩
      obtain ⟨hj, hmap, hnew⟩ := freeBit_imap hi hbit
      have hdev : dev ≠ 0 := by
        rintro rfl
        rw [superOf, if_pos rfl] at hi
        cases hi
      have hbitNr : bitNr j = bitNr (BitVec.ofNat 16 (j + k * 8192)).toNat := by
        apply Fin.ext
        show j % 8192 = _ % 8192
        omega
      rw [hbitNr, wp_bind, updateData, wp_modify, wp_bind, updateInode, wp_modify, wp_pure]
      have hnames : (s₁.setData dev map (setBitAt (s₁.data dev map)
          (bitNr (BitVec.ofNat 16 (j + k * 8192)).toNat) true)).names =
          insert (dev, .ofNat 16 (j + k * 8192)) s₁.names := by
        ext ⟨dev', nr'⟩
        show allocated _ dev' nr' = true ↔ _
        rw [allocated_setBit (h₁.geometry i) hi hmap true dev' nr', Set.mem_insert_iff]
        split
        · rename_i heq
          simp [heq]
        · rename_i hne
          simp only [hne, false_or]
          rfl
      refine ⟨⟨h₁.geometry, ?_⟩, fun ip' hip' => ?_⟩
      · rw [keys_setInode]
        show Consistent _ (names (s₁.setData _ _ _))
        rw [hnames, MInode.key, if_neg hdev]
        exact h₁.consistent.create ip hnew
      · obtain rfl := mem_some_iff.mp hip'
        rw [inode_setInode_self]
        rw [htaken.names] at hnew
        exact ⟨hdev, hnew, fun jp hjp => hnew (h.consistent.allocated jp _ hjp)⟩

theorem Fs.OneCopy.wp_getPipeInode (h : s.OneCopy) :
    wp (getPipeInode rd) (fun _ s' => s'.OneCopy) AnyStop s := by
  rw [getPipeInode]
  refine (wp_getEmptyInode_names h.geometry).next fun ip s₁ htaken => ?_
  refine (same_liftMm s₁ (.refl s₁)).next fun page s₂ hs₂ => ?_
  have h₂ := (h.taken htaken).of_same hs₂
  rw [wp_bind, updateInode, wp_modify]
  have h₃ : (s₂.setInode ip { s₂.inode ip with size := page }).OneCopy := h₂.setInode rfl
  refine wp_ite.mpr ⟨fun _ => ?_, fun _ => ?_⟩
  · rw [wp_bind, updateInode, wp_modify, wp_pure]
    exact h₃.setInode rfl
  · rw [wp_bind, updateInode, wp_modify, wp_pure]
    exact h₃.setInode rfl

/-! ### Runs -/

/-- The calls on the inode table. -/
inductive TableCall
  | iget (dev : Dev) (nr : BitVec 16)
  | newInode (cur : Current) (dev : Dev)
  | getPipeInode
  | iput (ip : Ino)
  | freeInode (ip : Ino)

def TableCall.run (rd : RamDisk) : TableCall → FsM (Option Ino)
  | .iget dev nr => some <$> Minix.iget rd dev nr
  | .newInode cur dev => Minix.newInode rd cur dev
  | .getPipeInode => Minix.getPipeInode rd
  | .iput ip => do Minix.iput rd (some ip); return none
  | .freeInode ip => do Minix.freeInode ip; return none

/-- `iget` is asked for an inode that is allocated. -/
def TableCall.Sound (s : Fs) : TableCall → Prop
  | .iget dev nr => s.Named dev nr
  | _ => True

/-- The states that calls of `ok` lead to, as long as they return. -/
inductive TableReach (rd : RamDisk) (ok : Fs → TableCall → Prop) (s₀ : Fs) : Fs → Prop
  | start : TableReach rd ok s₀ s₀
  | step {s s' : Fs} {o : Option Ino} (c : TableCall) : TableReach rd ok s₀ s → ok s c →
    c.run rd s = .ok o s' → TableReach rd ok s₀ s'

theorem Fs.OneCopy.wp_run (h : s.OneCopy) {c : TableCall} (hc : c.Sound s) :
    wp (c.run rd) (fun _ s' => s'.OneCopy) AnyStop s := by
  cases c with
  | iget dev nr => exact wp_map.mpr ((h.wp_iget hc).imp fun _ _ hs' => hs'.1)
  | newInode cur dev => exact h.wp_newInode.imp fun _ _ hs' => hs'.1
  | getPipeInode => exact h.wp_getPipeInode
  | iput ip => exact h.wp_iput.next fun _ _ hs' => wp_pure.mpr hs'
  | freeInode ip =>
    refine ((SameNames.refl s).wp_freeInode h.geometry).next fun _ _ hs' => ?_
    exact wp_pure.mpr (h.freed hs')

/-- The table when nothing has been read. -/
structure Fs.NoInodes (s : Fs) : Prop where
  geometry : ∀ i, (s.super i).Geometry
  empty : ∀ ip, (s.inode ip).dev = 0

theorem Fs.NoInodes.reach (h₀ : s₀.NoInodes) (h : TableReach rd TableCall.Sound s₀ s) :
    s.OneCopy := by
  induction h with
  | start =>
    refine ⟨h₀.geometry, fun ip jp k hip => ?_, fun ip k hip => ?_⟩
    · rw [keys_eq_none (h₀.empty ip)] at hip
      cases hip
    · rw [keys_eq_none (h₀.empty ip)] at hip
      cases hip
  | step c _ hc hrun ih => exact (ih.wp_run hc).of_ok hrun

end

/-- One copy of each inode, as long as `iget` is only asked for inodes that are
allocated: `iget` finds the entry there is, and `new_inode` gives a number that
no inode has. -/
theorem inode_table_unique {rd : RamDisk} {s₀ s : Fs} (h₀ : s₀.NoInodes)
    (h : TableReach rd TableCall.Sound s₀ s) :
    (∀ ip jp, (s.inode ip).dev ≠ 0 → (s.inode jp).dev = (s.inode ip).dev →
      (s.inode jp).num = (s.inode ip).num → ip = jp) ∧
    (∀ dev nr ip jp s', s.Named dev nr → (s.inode jp).dev = dev → (s.inode jp).num = nr →
      (s.inode jp).mount = false → iget rd dev nr s = .ok ip s' → ip = jp) ∧
    ∀ cur dev ip s', newInode rd cur dev s = .ok (some ip) s' →
      s.allocated dev (s'.inode ip).num = false ∧
      ∀ jp, ¬ ((s.inode jp).dev = dev ∧ (s.inode jp).num = (s'.inode ip).num) := by
  have hcopy := h₀.reach h
  refine ⟨fun ip jp hdev hdev' hnum => ?_, fun dev nr ip jp s' hnamed hdev hnum hmount hrun => ?_,
    fun cur dev ip s' hrun => ?_⟩
  · apply hcopy.consistent.unique ip jp _ (keys_eq_some hdev)
    exact (keys_eq_some_iff hdev).mpr ⟨hdev', hnum⟩
  · apply ((hcopy.wp_iget hnamed).of_ok hrun).2 jp _ hmount
    exact (keys_eq_some_iff (dev_ne_of_mem_names hnamed.name)).mpr ⟨hdev, hnum⟩
  · obtain ⟨hdev, hnew, hno⟩ := (hcopy.wp_newInode.of_ok hrun).2 ip rfl
    exact ⟨Bool.eq_false_iff.mpr hnew, fun jp hjp => hno jp ((keys_eq_some_iff hdev).mpr hjp)⟩

/-- A mounted ramdisk: inodes 0 and 1 are allocated, nothing is in memory. -/
def smallFs : Fs where
  mm := ⟨fun _ => 0, fun _ => 0, false⟩
  data _ block o := if block = 2 ∧ o = 0 then 3 else 0
  users _ _ := 0
  inode _ := .cleared
  lastInode := 0
  super i :=
    if i = 0 then ⟨32, 100, 1, 1, 5, 0x137f, fun k => if k = 0 then some 2 else none,
      fun k => if k = 0 then some 3 else none, rdDev, none, none⟩
    else ⟨0, 0, 0, 0, 0, 0, fun _ => none, fun _ => none, 0, none, none⟩
  now := 0
  stale _ _ _ := 0

def smallDisk : RamDisk := ⟨0, 0x10000, by decide⟩

def smallCurrent : Current := ⟨0, 0, 0, 0, 0, 0, none, none⟩

theorem smallFs_noInodes : smallFs.NoInodes := by
  refine ⟨fun i => ?_, fun _ => rfl⟩
  by_cases hi : i = 0
  · subst hi
    refine ⟨fun k b hb => ?_, fun k b hb => ?_, fun _ => by decide⟩
    · obtain ⟨rfl, hb⟩ := ite_none_right_eq_some.mp hb
      obtain rfl := some.inj hb
      decide
    · obtain ⟨rfl, hb⟩ := ite_none_right_eq_some.mp hb
      obtain rfl := some.inj hb
      decide
  · have hsuper : smallFs.super i = _ := if_neg hi
    rw [hsuper]
    exact ⟨nofun, nofun, fun h => absurd rfl h⟩

/-- An inode was found. -/
def found : EStateM.Result Halt Fs (Option Ino) → Bool
  | .ok (some _) _ => true
  | _ => false

theorem eq_of_found {r : EStateM.Result Halt Fs (Option Ino)} (h : found r = true) :
    ∃ ip s, r = .ok (some ip) s := by
  unfold found at h
  split at h
  · exact ⟨_, _, rfl⟩
  · cases h

/-- The root is read, and a new inode gets another number. -/
theorem inode_table_unique_after_root : ∃ s ip s', TableReach smallDisk TableCall.Sound smallFs s ∧
      newInode smallDisk smallCurrent rdDev s = .ok (some ip) s' ∧
      s.allocated rdDev (s'.inode ip).num = false := by
  have hnamed : smallFs.Named rdDev rootIno := by
    refine ⟨?_, by decide, fun _ _ h => by cases h⟩
    show smallFs.allocated rdDev rootIno = true
    decide +kernel
  obtain ⟨o, hroot⟩ := ok_after_of_returns
    (show returns ((TableCall.iget rdDev rootIno).run smallDisk) smallFs = true by decide +kernel)
  have hreach : TableReach smallDisk TableCall.Sound smallFs _ :=
    .step (.iget rdDev rootIno) .start hnamed hroot
  have hsome : found (newInode smallDisk smallCurrent rdDev
      (after ((TableCall.iget rdDev rootIno).run smallDisk) smallFs)) = true := by decide +kernel
  obtain ⟨ip, s', hnew⟩ := eq_of_found hsome
  exact ⟨_, ip, s', hreach, hnew, ((inode_table_unique smallFs_noInodes hreach).2.2 _ _ _ _ hnew).1⟩

/-- A number that is not allocated is read and then given out: two entries have
it. -/
theorem inode_table_twice : ∃ s ip jp, TableReach smallDisk (fun _ _ => True) smallFs s ∧
    ip ≠ jp ∧ (s.inode ip).dev ≠ 0 ∧ (s.inode jp).dev = (s.inode ip).dev ∧
    (s.inode jp).num = (s.inode ip).num := by
  obtain ⟨_, hget⟩ := ok_after_of_returns
    (show returns ((TableCall.iget rdDev 2).run smallDisk) smallFs = true by decide +kernel)
  obtain ⟨_, hnew⟩ := ok_after_of_returns
    (show returns ((TableCall.newInode smallCurrent rdDev).run smallDisk)
      (after ((TableCall.iget rdDev 2).run smallDisk) smallFs) = true by decide +kernel)
  refine ⟨_, 1, 2, .step _ (.step _ .start trivial hget) trivial hnew, ?_⟩
  decide +kernel

end LinuxRv.Minix
