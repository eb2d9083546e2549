import LinuxRv.Fs.BufferCache
import Mathlib.Tactic.FinCases

/-!
What the file system keeps in its blocks (`include/linux/fs.h`): arrays of
zone numbers, bitmaps, directory entries and inodes, each read and written in
place in the 1024 bytes.
-/

namespace LinuxRv.Minix

open ByteMemory LinuxRv.Fs BitVec List

abbrev Zone := BitVec 16

/-! ### Zone numbers -/

/-- `((unsigned short *) b_data)[i]` -/
def zoneAt (b : Block) (i : Fin 512) : Zone :=
  b ⟨2 * i + 1, by omega⟩ ++ b ⟨2 * i, by omega⟩

def setZoneAt (b : Block) (i : Fin 512) (z : Zone) : Block := fun o =>
  if o.1 = 2 * i then z.extractLsb' 0 8
  else if o.1 = 2 * i + 1 then z.extractLsb' 8 8
  else b o

theorem append_extractLsb' (z : Zone) : z.extractLsb' 8 8 ++ z.extractLsb' 0 8 = z := by
  rw [extractLsb'_append_extractLsb'_eq_extractLsb' (show 8 = 0 + 8 from rfl)]
  simp

@[simp] theorem zoneAt_setZoneAt_self (b : Block) (i : Fin 512) (z : Zone) :
    zoneAt (setZoneAt b i z) i = z := by
  simp only [zoneAt, setZoneAt, if_true, show ¬ 2 * i.1 + 1 = 2 * i.1 by omega, if_false]
  exact append_extractLsb' z

theorem zoneAt_congr {b b' : Block} {i : Fin 512} (h : ∀ o : Fin 1024, o.1 / 2 = i → b' o = b o) :
    zoneAt b' i = zoneAt b i := by
  rw [zoneAt, zoneAt, h _ (by simp; omega), h _ (by simp)]

theorem zoneAt_setZoneAt_of_ne {b : Block} {i j : Fin 512} (z : Zone) (h : j ≠ i) :
    zoneAt (setZoneAt b i z) j = zoneAt b j := by
  refine zoneAt_congr fun o ho => ?_
  have hne : j.1 ≠ i.1 := Fin.val_ne_of_ne h
  rw [setZoneAt, if_neg (by omega), if_neg (by omega)]

/-! ### Bitmaps -/

/-- Bit `nr` of a bitmap. -/
def bitAt (b : Block) (nr : Fin 8192) : Bool := (b ⟨nr / 8, by omega⟩).getLsbD (nr % 8)

/-- `set_bit` and `clear_bit`. -/
def setBitAt (b : Block) (nr : Fin 8192) (on : Bool) : Block := fun o =>
  if o.1 = nr / 8 then
    if on then b o ||| twoPow 8 (nr % 8) else b o &&& ~~~twoPow 8 (nr % 8)
  else b o

theorem bitAt_setBitAt (b : Block) (nr nr' : Fin 8192) (on : Bool) :
    bitAt (setBitAt b nr on) nr' = if nr' = nr then on else bitAt b nr' := by
  have hlt : nr'.1 % 8 < 8 := Nat.mod_lt _ (by decide)
  by_cases hbyte : nr'.1 / 8 = nr.1 / 8
  · have hbit : nr'.1 % 8 = nr.1 % 8 ↔ nr' = nr := by
      rw [Fin.ext_iff]
      omega
    by_cases h : nr' = nr
    · cases on <;> simp [bitAt, setBitAt, h, Nat.mod_lt nr.1 (by decide : 0 < 8)]
    · cases on <;> simp [bitAt, setBitAt, hbyte, h, hlt, mt hbit.mp h]
  · have h : nr' ≠ nr := fun h => hbyte (by rw [h])
    simp [bitAt, setBitAt, hbyte, h]

/-- The first place where `f` is false, `n` if there is none. -/
def firstFalse {n : ℕ} (f : Fin n → Bool) : ℕ :=
  ((finRange n).find? fun i => !f i).elim n Fin.val

theorem firstFalse_lt {n : ℕ} {f : Fin n → Bool} (h : firstFalse f < n) :
    f ⟨firstFalse f, h⟩ = false := by
  unfold firstFalse at h
  cases hfind : (finRange n).find? fun i => !f i with
  | none =>
    rw [hfind] at h
    exact absurd h (lt_irrefl _)
  | some i =>
    have hbit := find?_some hfind
    simp only [firstFalse, hfind, Option.elim_some]
    simpa using hbit

/-- `find_first_zero`, 8192 if there is none. -/
def findFirstZero (b : Block) : ℕ := firstFalse (bitAt b)

/-! ### Directories -/

/-- `de->inode` of entry `i`. -/
def dirInode (b : Block) (i : Fin 64) : BitVec 16 := zoneAt b ⟨8 * i, by omega⟩

/-- `de->name[k]` -/
def dirName (b : Block) (i : Fin 64) (k : Fin 14) : Byte :=
  b ⟨16 * i + 2 + k, by omega⟩

def setDirInode (b : Block) (i : Fin 64) (num : BitVec 16) : Block :=
  setZoneAt b ⟨8 * i, by omega⟩ num

def setDirName (b : Block) (i : Fin 64) (name : Fin 14 → Byte) : Block :=
  fun o => if h : 16 * i.1 + 2 ≤ o.1 ∧ o.1 < 16 * i.1 + 16 then name ⟨o.1 - (16 * i.1 + 2), by omega⟩
    else b o

section

variable (b : Block) (i j : Fin 64) (num : BitVec 16) (name : Fin 14 → Byte)

theorem dirInode_setDirInode :
    dirInode (setDirInode b i num) j = if j = i then num else dirInode b j := by
  by_cases h : j = i
  · rw [if_pos h, h]
    exact zoneAt_setZoneAt_self _ _ _
  · rw [if_neg h]
    refine zoneAt_setZoneAt_of_ne num fun he => h (Fin.ext ?_)
    have := Fin.mk.inj_iff.mp he
    omega

@[simp] theorem dirName_setDirInode : dirName (setDirInode b i num) j = dirName b j := by
  funext k
  have := k.isLt
  rw [dirName, setDirInode, setZoneAt, if_neg (by simp; omega), if_neg (by simp; omega), dirName]

@[simp] theorem dirInode_setDirName : dirInode (setDirName b i name) j = dirInode b j := by
  refine zoneAt_congr fun o ho => dif_neg ?_
  simp only at ho
  omega

theorem dirName_setDirName :
    dirName (setDirName b i name) j = if j = i then name else dirName b j := by
  funext k
  have hk := k.isLt
  by_cases h : j = i
  · rw [if_pos h, h, dirName, setDirName, dif_pos (by simp; omega)]
    congr 1
    exact Fin.ext (by simp)
  · have hne := Fin.val_ne_of_ne h
    rw [if_neg h, dirName, setDirName, dif_neg (by simp; omega), dirName]

end

/-! ### Inodes -/

/-- `struct d_inode`, which is also how a `struct m_inode` begins; there
`i_time` is called `i_mtime`. -/
@[ext] structure DInode where
  mode : BitVec 16
  uid : BitVec 16
  size : Word
  mtime : Word
  gid : Byte
  nlinks : Byte
  zone : Fin 9 → Zone

def DInode.bytes (d : DInode) : Fin 32 → Byte := fun o =>
  if o.1 < 2 then d.mode.extractLsb' (8 * o.1) 8
  else if o.1 < 4 then d.uid.extractLsb' (8 * (o.1 - 2)) 8
  else if o.1 < 8 then d.size.extractLsb' (8 * (o.1 - 4)) 8
  else if o.1 < 12 then d.mtime.extractLsb' (8 * (o.1 - 8)) 8
  else if o.1 = 12 then d.gid
  else if o.1 = 13 then d.nlinks
  else (d.zone ⟨(o.1 - 14) / 2, by omega⟩).extractLsb' (8 * ((o.1 - 14) % 2)) 8

def DInode.ofBytes (b : Fin 32 → Byte) : DInode where
  mode := b 1 ++ b 0
  uid := b 3 ++ b 2
  size := b 7 ++ b 6 ++ b 5 ++ b 4
  mtime := b 11 ++ b 10 ++ b 9 ++ b 8
  gid := b 12
  nlinks := b 13
  zone i := b ⟨15 + 2 * i, by omega⟩ ++ b ⟨14 + 2 * i, by omega⟩

theorem append_extractLsb'_word (v : Word) :
    v.extractLsb' 24 8 ++ v.extractLsb' 16 8 ++ v.extractLsb' 8 8 ++ v.extractLsb' 0 8 = v := by
  rw [extractLsb'_append_extractLsb'_eq_extractLsb' (show 24 = 16 + 8 from rfl),
    extractLsb'_append_extractLsb'_eq_extractLsb' (show 16 = 8 + 8 from rfl),
    extractLsb'_append_extractLsb'_eq_extractLsb' (show 8 = 0 + 8 from rfl)]
  simp

theorem DInode.ofBytes_bytes (d : DInode) : DInode.ofBytes d.bytes = d := by
  refine DInode.ext (append_extractLsb' d.mode) (append_extractLsb' d.uid)
    (append_extractLsb'_word d.size) (append_extractLsb'_word d.mtime) rfl rfl (funext fun i => ?_)
  fin_cases i
  all_goals exact append_extractLsb' (d.zone _)

/-- `((struct d_inode *) b_data)[slot]` -/
def inodeBytes (data : Block) (slot : Fin 32) : Fin 32 → Byte := fun o =>
  data ⟨32 * slot + o, by omega⟩

theorem inodeBytes_putInode (data : Block) (slot slot' : Fin 32) (d : Fin 32 → Byte) :
    inodeBytes (putInode data slot d) slot' = if slot' = slot then d else inodeBytes data slot' := by
  funext o
  have hdiv : (32 * slot'.1 + o.1) / 32 = slot' := by omega
  simp only [inodeBytes, putInode, hdiv, Fin.val_inj]
  by_cases h : slot' = slot
  · rw [if_pos h, if_pos h]
    exact congrArg d (Fin.ext (by simp))
  · rw [if_neg h, if_neg h]
    rfl

end LinuxRv.Minix
