import LinuxRv.Minix.InodeKeys
import LinuxRv.Proc.Files
import LinuxRv.Proc.Fork

/-!
An inode table without a free entry: `get_empty_inode` of `fs/inode.c` panics
before one of its callers can see that there is none.
-/

namespace LinuxRv.Minix

open ByteMemory Prog LinuxRv.Fs

/-- The stop is not that of `get_empty_inode`. -/
def InodesLeft (e : Halt) (_ : Fs) : Prop := e ≠ .panic "No free inodes in mem"

section

variable {rd : RamDisk} {s : Fs} {dev : Dev} {nr : BitVec 16}

instance : IgnoresInodes (fun _ => True) InodesLeft where
  congr _ _ _ _ := trivial
  setInode _ _ _ _ := trivial
  stop _ h := h.ne (by decide)
  update _ _ _ := trivial
  freed _ := by simp [InodesLeft]
  page _ := keeps_liftMm_stops (Mm.stops_freePage (by decide))

theorem mem_fromNext (last ip : Ino) : ip ∈ fromNext last :=
  List.mem_map.mpr ⟨ip - (last + 1), List.mem_finRange _, add_sub_cancel _ _⟩

/-- Without a free entry the search finds none. -/
theorem getEmptyInode_full (h : ∀ ip, (s.inode ip).count ≠ 0) :
    getEmptyInode rd s = .error (.panic "No free inodes in mem") s := by
  have hclean : (fromNext s.lastInode).find? (fun ip =>
      (s.inode ip).count = 0 ∧ !(s.inode ip).dirt) = none :=
    List.find?_eq_none.mpr fun ip _ hip => h ip (of_decide_eq_true hip).1
  have hany : (fromNext s.lastInode).reverse.find? (fun ip => (s.inode ip).count = 0) = none :=
    List.find?_eq_none.mpr fun ip _ hip => h ip (of_decide_eq_true hip)
  rw [getEmptyInode]
  refine (bind_of_ok rfl).trans ?_
  rw [hclean, hany]
  rfl

theorem wp_getEmptyInode_left (h : ∃ ip, (s.inode ip).count = 0) :
    wp (getEmptyInode rd) (fun _ _ => True) InodesLeft s := by
  obtain ⟨ip, hip⟩ := h
  rw [getEmptyInode, wp_bind, wp_get]
  dsimp only
  split
  · exact wp_bind.mpr (wp_set.mpr (wp_bind.mpr (wp_modify.mpr (wp_pure.mpr trivial))))
  · split
    · next hnone =>
      exact absurd hip (by simpa using List.find?_eq_none.mp hnone ip (by simp [mem_fromNext]))
    · refine keeps_writeInode.bind (fun _ => Keeps.get.bind fun s' => ?_) s trivial
      exact .ite keeps_hang (keeps_updateInode_any.bind fun _ => .pure _)

theorem keeps_left_igetFrom {empty : Ino} {fuel : ℕ} :
    Keeps (fun _ => True) InodesLeft (igetFrom rd empty fuel dev nr) := by
  induction fuel generalizing dev nr with
  | zero => exact keeps_hang
  | succ fuel ih =>
    refine Keeps.get.bind fun s => ?_
    split
    · exact keeps_updateInode_any.bind fun _ => keeps_readInode.bind fun _ => .pure _
    · refine keeps_updateInode_any.bind fun _ => .ite ?_ ((keeps_iput _).bind fun _ => .pure _)
      split
      · exact (keeps_iput _).bind fun _ => .pure _
      · exact (keeps_iput _).bind fun _ => ih

/-- What follows the search for an entry does not stop for the lack of one. -/
theorem wp_left_of_empty {α : Type} {f : Ino → FsM α} (h : ∃ ip, (s.inode ip).count = 0)
    (hf : ∀ ip, Keeps (fun _ => True) InodesLeft (f ip)) :
    wp (getEmptyInode rd >>= f) (fun _ _ => True) InodesLeft s :=
  (wp_getEmptyInode_left h).next fun ip s' _ => hf ip s' trivial

theorem wp_iget_left (h : ∃ ip, (s.inode ip).count = 0) :
    wp (iget rd dev nr) (fun _ _ => True) InodesLeft s :=
  wp_ite.mpr ⟨fun _ => keeps_panic (by decide) s trivial,
    fun _ => wp_left_of_empty h fun _ => keeps_left_igetFrom⟩

theorem wp_newInode_left {cur : Current} (h : ∃ ip, (s.inode ip).count = 0) :
    wp (newInode rd cur dev) (fun _ _ => True) InodesLeft s := by
  refine wp_left_of_empty h fun ip => keeps_getSuper.bind fun o => ?_
  have hnone : Keeps (fun _ => True) InodesLeft
      (do iput rd (some ip); return none : FsM (Option Ino)) :=
    (keeps_iput _).bind fun _ => .pure _
  cases o with
  | none => exact keeps_panic (by decide)
  | some i =>
    refine Keeps.get.bind fun s' => ?_
    dsimp only
    split
    · exact hnone
    · exact .ite hnone (keeps_updateData.bind fun _ => keeps_updateInode_any.bind fun _ => .pure _)

theorem wp_getPipeInode_left (h : ∃ ip, (s.inode ip).count = 0) :
    wp (getPipeInode rd) (fun _ _ => True) InodesLeft s := by
  have hpage : Keeps (fun _ => True) InodesLeft (liftMm Mm.getFreePage) :=
    keeps_liftMm_stops Mm.stops_getFreePage
  refine wp_left_of_empty h fun _ => hpage.bind fun _ => keeps_updateInode_any.bind fun _ => ?_
  exact .ite (keeps_updateInode_any.bind fun _ => .pure _)
    (keeps_updateInode_any.bind fun _ => .pure _)

end

end LinuxRv.Minix

namespace LinuxRv.Proc

open ByteMemory Prog Fs Minix

/-- A task of an ordinary user; every inode but the last is in use. -/
def oneInodeLeft : Kernel :=
  let k := Kernel.single ⟨fun _ => 0, fun _ => 0, false⟩ 0
  { k with
    fs := { k.fs with inode := fun ip =>
      if ip = 31 then .cleared
      else { MInode.cleared with dev := rdDev, num := .ofNat 16 (ip + 1), count := 1 } }
    task := fun i => (k.task i).map fun t => { t with uid := 1000, euid := 1000 } }

end LinuxRv.Proc
