import LinuxRv.Minix.NameiCalls

/-!
Super blocks (`fs/super.c`) and what a changed disk drops
(`check_disk_change` of `fs/buffer.c`).

`s_time`, `s_rd_only` and `s_dirt` are never read and are left out, as are the
locks: nothing sleeps while a super block is locked.
-/

namespace LinuxRv.Minix

open ByteMemory Prog LinuxRv.Fs

variable (rd : RamDisk) (rootDev : Dev)

def enotblk : ℤ := 15
def ebusy : ℤ := 16

/-- `SUPER_MAGIC` -/
def superMagic : BitVec 16 := 0x137f

def updateSuper (i : Fin nrSuper) (f : SuperBlock → SuperBlock) : FsM PUnit :=
  modify fun s => { s with super := Function.update s.super i (f (s.super i)) }

/-- `brelse` of the buffers of a bitmap; `brelse(NULL)` does nothing. -/
def brelseMap (dev : Dev) (map : Fin 8 → Option BlockNr) : FsM PUnit :=
  forN 8 fun i =>
    match map i with
    | none => return ()
    | some block => brelse dev block

def putSuper (rootDev dev : Dev) : FsM PUnit := do
  if dev = rootDev then
    return ()
  else
    match ← getSuper dev with
    | none => return ()
    | some i =>
      let sb := (← get).super i
      if sb.imount ≠ none then
        return ()
      else
        updateSuper i fun sb => { sb with dev := 0 }
        brelseMap dev sb.imap
        brelseMap dev sb.zmap

def invalidateInodes (dev : Dev) : FsM PUnit :=
  forN nrInode fun ip => do
    if (← readInodeTable ip).dev = dev then
      updateInode ip fun n => { n with dev := 0, dirt := false }

/-- `check_disk_change`; the buffers it invalidates are not of the ramdisk. -/
def checkDiskChange (rootDev dev : Dev) : FsM PUnit := do
  if dev >>> 8 ≠ 2 then
    return ()
  else
    forN nrSuper fun i => do
      if ((← get).super i).dev = dev then
        putSuper rootDev dev
    invalidateInodes dev

/-- The loops that read a bitmap of `count` blocks, the last `n` of them from
`block` on, and stop at the first that cannot be read. -/
def readMap (rd : RamDisk) (dev : Dev) (count : ℕ) : ℕ → BlockNr → FsM (List BlockNr)
  | 0, _ => return []
  | n + 1, block => do
      -- there is room for eight
      if 8 < count - n then
        throw .wild
      else if ← bread rd dev block then
        return block :: (← readMap rd dev count n (block + 1))
      else
        return []

def mapOf (l : List BlockNr) (i : Fin 8) : Option BlockNr := l[i.1]?

/-- The record in block 1. -/
def SuperBlock.ofBlock (b : Block) (sb : SuperBlock) : SuperBlock :=
  { sb with
    ninodes := zoneAt b 0
    nzones := zoneAt b 1
    imapBlocks := zoneAt b 2
    zmapBlocks := zoneAt b 3
    firstdatazone := zoneAt b 4
    magic := zoneAt b 8 }

/-- `read_super` from the reading of the bitmaps on. -/
def readMaps (dev : Dev) (i : Fin nrSuper) : FsM (Option (Fin nrSuper)) := do
  let sb := (← get).super i
  let imap ← readMap rd dev sb.imapBlocks.toNat sb.imapBlocks.toNat 2
  let zmap ← readMap rd dev sb.zmapBlocks.toNat sb.zmapBlocks.toNat (2 + .ofNat 32 imap.length)
  updateSuper i fun sb => { sb with imap := mapOf imap, zmap := mapOf zmap }
  if imap.length + zmap.length ≠ sb.imapBlocks.toNat + sb.zmapBlocks.toNat then
    brelseMap dev (mapOf imap)
    brelseMap dev (mapOf zmap)
    updateSuper i fun sb => { sb with dev := 0 }
    return none
  else
    match mapOf imap 0, mapOf zmap 0 with
    | some ib, some zb =>
      updateData dev ib fun b => setBitAt b 0 true
      updateData dev zb fun b => setBitAt b 0 true
      return some i
    | _, _ => throw nullPointer

def readSuper (rootDev dev : Dev) : FsM (Option (Fin nrSuper)) := do
  if dev = 0 then
    return none
  else
    checkDiskChange rootDev dev
    match ← getSuper dev with
    | some i => return some i
    | none =>
      let s ← get
      match (List.finRange nrSuper).find? fun i => (s.super i).dev = 0 with
      | none => return none
      | some i =>
        updateSuper i fun sb => { sb with dev := dev, isup := none, imount := none }
        if ← bread rd dev 1 then
          let b := (← get).data dev 1
          updateSuper i (SuperBlock.ofBlock b)
          brelse dev 1
          if zoneAt b 8 ≠ superMagic then
            updateSuper i fun sb => { sb with dev := 0 }
            return none
          else
            readMaps rd dev i
        else
          updateSuper i fun sb => { sb with dev := 0 }
          return none

/-- The first `n` bits of a bitmap can be read. -/
def hasBits (map : Fin 8 → Option BlockNr) (n : ℕ) : Bool :=
  (List.finRange 8).all fun i => i * 8192 < n → (map i).isSome

/-- `mount_root` without the file table and the task: the root inode, with four
references. The numbers of free blocks and inodes are only printed. -/
def mountRoot : FsM Ino := do
  modify fun s => { s with super := fun i => { s.super i with dev := 0 } }
  match ← readSuper rd rootDev rootDev with
  | none => throw (.panic "Unable to mount root")
  | some i =>
    let mi ← iget rd rootDev rootIno
    updateInode mi fun n => { n with count := n.count + 3 }
    updateSuper i fun sb => { sb with isup := some mi, imount := some mi }
    let sb := (← get).super i
    if hasBits sb.zmap sb.nzones.toNat ∧ hasBits sb.imap (sb.ninodes.toNat + 1) then
      return mi
    else
      throw nullPointer

/-- The first half of `sys_mount` and `sys_umount`: the number of a block
device. -/
def blockDevice (cur : Current) (devName : Word) (err : ℤ) : FsM (Except ℤ Dev) := do
  match ← namei rd cur devName with
  | none => return .error (-enoent)
  | some ip =>
    let n ← readInodeTable ip
    iput rd (some ip)
    return if isBlk n.mode then .ok (n.zone 0) else .error (-err)

def sysUmount (cur : Current) (devName : Word) : FsM ℤ := do
  match ← blockDevice rd cur devName enotblk with
  | .error e => return e
  | .ok dev =>
    if dev = rootDev then
      return -ebusy
    else
      match ← getSuper dev with
      | none => return -enoent
      | some i =>
        let s ← get
        match (s.super i).imount with
        | none => return -enoent
        | some mounted =>
          if (List.finRange nrInode).any fun ip =>
              (s.inode ip).dev = dev ∧ (s.inode ip).count ≠ 0 then
            return -ebusy
          else
            updateInode mounted fun n => { n with mount := false }
            iput rd (some mounted)
            updateSuper i fun sb => { sb with imount := none }
            iput rd (s.super i).isup
            updateSuper i fun sb => { sb with isup := none }
            putSuper rootDev dev
            syncDev rd
            return 0

/-- `sys_mount`, once the directory is known. -/
def mountOn (rootDev dev : Dev) (dir : Ino) : FsM ℤ := do
  let n ← readInodeTable dir
  if n.count ≠ 1 ∨ n.num = rootIno then
    iput rd (some dir)
    return -ebusy
  else if !isDir n.mode then
    iput rd (some dir)
    return -eperm
  else
    match ← readSuper rd rootDev dev with
    | none =>
      iput rd (some dir)
      return -ebusy
    | some i =>
      if ((← get).super i).imount ≠ none then
        iput rd (some dir)
        return -ebusy
      else if (← readInodeTable dir).mount then
        iput rd (some dir)
        return -eperm
      else
        updateSuper i fun sb => { sb with imount := some dir }
        updateInode dir fun n => { n with mount := true, dirt := true }
        return 0

def sysMount (cur : Current) (devName dirName : Word) : FsM ℤ := do
  match ← blockDevice rd cur devName eperm with
  | .error e => return e
  | .ok dev =>
    match ← namei rd cur dirName with
    | none => return -enoent
    | some dir => mountOn rd rootDev dev dir

end LinuxRv.Minix
