import LinuxRv.Minix.Layout
import LinuxRv.Mm.UserAccess

/-!
Inodes, blocks and bitmaps (`fs/inode.c`, `fs/bitmap.c`, `fs/truncate.c`, and
`get_super` of `fs/super.c`).

The file system is taken above the buffer cache: a block has the data last
stored in it, and of its buffer only the number of users (`b_count`) is kept.
`bread` fails for what is not a block of the ramdisk. The kernel is not
preempted and the ramdisk answers at once, so that no inode is found locked:
`i_lock` and `i_wait` are left out. An inode is named by its place in
`inode_table`.
-/

namespace LinuxRv.Minix

open ByteMemory Prog LinuxRv.Fs Function

variable (rd : RamDisk)

/-! ### State -/

abbrev Ino := Fin nrInode

/-- `struct m_inode` -/
@[ext] structure MInode extends DInode where
  atime : Word
  ctime : Word
  dev : Dev
  num : BitVec 16
  count : BitVec 16
  dirt : Bool
  pipe : Bool
  mount : Bool

/-- `memset(inode, 0, sizeof(*inode))` -/
def MInode.cleared : MInode :=
  ⟨⟨0, 0, 0, 0, 0, 0, fun _ => 0⟩, 0, 0, 0, 0, 0, false, false, false⟩

/-- `struct super_block`; of the bitmaps' buffers the block they hold. -/
structure SuperBlock where
  ninodes : BitVec 16
  nzones : BitVec 16
  imapBlocks : BitVec 16
  zmapBlocks : BitVec 16
  firstdatazone : BitVec 16
  magic : BitVec 16
  imap : Fin 8 → Option BlockNr
  zmap : Fin 8 → Option BlockNr
  dev : Dev
  isup : Option Ino
  imount : Option Ino

structure Fs where
  mm : Mm.State
  data : Dev → BlockNr → Block
  /-- `b_count` of the buffer of a block. -/
  users : Dev → BlockNr → ℕ
  inode : Ino → MInode
  /-- `last_inode` of `get_empty_inode`. -/
  lastInode : Ino
  super : Fin nrSuper → SuperBlock
  /-- `CURRENT_TIME` -/
  now : Word
  /-- Not in the source: what a block holds after `free_block` has dropped its
  buffer. -/
  stale : Dev → BlockNr → Block

/-- Why a call does not return: a kernel access through a null pointer traps
in machine mode and is a panic; `wild` is an access outside of an array. -/
inductive Halt
  | panic (message : String)
  | exit (code : ℕ)
  | hang
  | wild
  deriving DecidableEq

def Halt.ofMm : Mm.Halt → Halt
  | .panic message => .panic message
  | .exit code => .exit code

abbrev FsM := EStateM Halt Fs

def nullPointer : Halt := .panic "kernel trap"

/-- A procedure of the memory manager. -/
def liftMm {α : Type} (c : Mm.M α) : FsM α := fun s =>
  match c s.mm with
  | .ok a mm => .ok a { s with mm := mm }
  | .error e mm => .error (.ofMm e) { s with mm := mm }

def Fs.setInode (s : Fs) (ip : Ino) (n : MInode) : Fs :=
  { s with inode := update s.inode ip n }

def Fs.setData (s : Fs) (dev : Dev) (block : BlockNr) (b : Block) : Fs :=
  { s with data := update s.data dev (update (s.data dev) block b) }

def Fs.setUsers (s : Fs) (dev : Dev) (block : BlockNr) (n : ℕ) : Fs :=
  { s with users := update s.users dev (update (s.users dev) block n) }

def readInodeTable (ip : Ino) : FsM MInode := return (← get).inode ip

def updateInode (ip : Ino) (f : MInode → MInode) : FsM PUnit :=
  modify fun s => s.setInode ip (f (s.inode ip))

def updateData (dev : Dev) (block : BlockNr) (f : Block → Block) : FsM PUnit :=
  modify fun s => s.setData dev block (f (s.data dev block))

/-! ### Modes -/

def isReg (mode : BitVec 16) : Bool := mode &&& 0xf000 = 0x8000
def isDir (mode : BitVec 16) : Bool := mode &&& 0xf000 = 0x4000
def isChr (mode : BitVec 16) : Bool := mode &&& 0xf000 = 0x2000
def isBlk (mode : BitVec 16) : Bool := mode &&& 0xf000 = 0x6000

/-! ### Buffers -/

/-- `bread`: whether there is a buffer with the block. -/
def bread (dev : Dev) (block : BlockNr) : FsM Bool := do
  if dev = rdDev ∧ rd.InRange block then
    modify fun s => s.setUsers dev block (s.users dev block + 1)
    return true
  else
    return false

def brelse (dev : Dev) (block : BlockNr) : FsM PUnit := do
  let s ← get
  if s.users dev block = 0 then
    throw (.panic "Trying to free free buffer")
  else
    set (s.setUsers dev block (s.users dev block - 1))

/-! ### Bitmaps -/

def getSuper (dev : Dev) : FsM (Option (Fin nrSuper)) := do
  let s ← get
  if dev = 0 then
    return none
  else
    return (List.finRange nrSuper).find? fun i => (s.super i).dev = dev

/-- The first bitmap block with a bit that is not set, and that bit. -/
def freeBit (s : Fs) (dev : Dev) (map : Fin 8 → Option BlockNr) : Option (Fin 8 × BlockNr × ℕ) :=
  (List.finRange 8).findSome? fun i => (map i).bind fun block =>
    if findFirstZero (s.data dev block) < 8192 then
      some (i, block, findFirstZero (s.data dev block))
    else none

/-- A bit number as the bitmap functions take it. -/
def bitNr (n : ℕ) : Fin 8192 := ⟨n % 8192, Nat.mod_lt _ (by decide)⟩

def freeBlock (dev : Dev) (block : BlockNr) : FsM PUnit := do
  match ← getSuper dev with
  | none => throw (.panic "trying to free block on nonexistent device")
  | some i =>
    let s ← get
    let sb := s.super i
    if block.toInt < sb.firstdatazone.toNat ∨ (sb.nzones.toNat : ℤ) ≤ block.toInt then
      throw (.panic "trying to free block not in datazone")
    else if s.users dev block ≠ 0 then
      -- `get_hash_table` finds it in use, and counts one more user
      set (s.setUsers dev block (s.users dev block + 1))
    else
      set (s.setData dev block (s.stale dev block))
      -- `block -= s_firstdatazone - 1`
      let nr := block.toNat + 1 - sb.firstdatazone.toNat
      if h : nr / 8192 < 8 then
        match sb.zmap ⟨nr / 8192, h⟩ with
        | none => throw nullPointer
        | some map =>
          let s ← get
          if bitAt (s.data dev map) (bitNr nr) then
            updateData dev map fun b => setBitAt b (bitNr nr) false
          else
            throw (.panic "free_block: bit already cleared")
      else
        throw nullPointer

def newBlock (dev : Dev) : FsM Zone := do
  match ← getSuper dev with
  | none => throw (.panic "trying to get new block from nonexistant device")
  | some i =>
    let s ← get
    let sb := s.super i
    match freeBit s dev sb.zmap with
    | none => return 0
    | some (k, map, j) =>
      updateData dev map fun b => setBitAt b (bitNr j) true
      let nr : ℤ := j + k * 8192 + sb.firstdatazone.toNat - 1
      if (sb.nzones.toNat : ℤ) ≤ nr then
        return 0
      else
        let block := BitVec.ofInt 32 nr
        if (← get).users dev block ≠ 0 then
          throw (.panic "new block: count is != 1")
        else
          updateData dev block fun _ _ => 0
          return BitVec.ofInt 16 nr

/-! ### Inodes on disk -/

/-- The place of an inode in its block. -/
def slotOf (num : BitVec 16) : Fin 32 := ⟨inodeSlot num, by
  rw [inodeSlot, BitVec.toNat_umod]
  exact Nat.mod_lt _ (by decide)⟩

/-- Its block: `2 + s_imap_blocks + s_zmap_blocks + (i_num - 1) / 32`. -/
def blockOf (sb : SuperBlock) (num : BitVec 16) : BlockNr :=
  2 + sb.imapBlocks.setWidth 32 + sb.zmapBlocks.setWidth 32 + (num.setWidth 32 - 1) / 32

def writeInode (ip : Ino) : FsM PUnit := do
  let n ← readInodeTable ip
  if !n.dirt ∨ n.dev = 0 then
    return ()
  else
    match ← getSuper n.dev with
    | none => throw (.panic "trying to write inode without device")
    | some i =>
      let block := blockOf ((← get).super i) n.num
      if ← bread rd n.dev block then
        updateData n.dev block fun b => putInode b (slotOf n.num) n.toDInode.bytes
        updateInode ip fun n => { n with dirt := false }
        brelse n.dev block
      else
        throw (.panic "unable to read i-node block")

def readInode (ip : Ino) : FsM PUnit := do
  let n ← readInodeTable ip
  match ← getSuper n.dev with
  | none => throw (.panic "trying to read inode without dev")
  | some i =>
    let block := blockOf ((← get).super i) n.num
    if ← bread rd n.dev block then
      let b := (← get).data n.dev block
      updateInode ip fun n => { n with toDInode := .ofBytes (inodeBytes b (slotOf n.num)) }
      brelse n.dev block
    else
      throw (.panic "unable to read i-node block")

def syncInodes : FsM PUnit :=
  forN nrInode fun ip => do
    let n ← readInodeTable ip
    if n.dirt ∧ !n.pipe then writeInode rd ip else return ()

/-- `sync_dev`: of the buffers nothing is kept that it could write out. -/
def syncDev : FsM PUnit := syncInodes rd

/-! ### Blocks of a file -/

def blockNr (z : Zone) : BlockNr := z.setWidth 32

/-- `if (create && !i_zone[k]) if (i_zone[k] = new_block(i_dev)) ..`, and the
zone. -/
def inodeZone (create : Bool) (ip : Ino) (k : Fin 9) : FsM Zone := do
  let n ← readInodeTable ip
  if create ∧ n.zone k = 0 then
    let z ← newBlock n.dev
    let now := (← get).now
    updateInode ip fun n => { n with zone := update n.zone k z }
    if z ≠ 0 then
      updateInode ip fun n => { n with ctime := now, dirt := true }
      return z
    else
      return 0
  else
    return n.zone k

/-- The same for entry `k` of an indirect block; 0 if it cannot be read. -/
def indirectZone (create : Bool) (dev : Dev) (block : BlockNr) (k : Fin 512) : FsM Zone := do
  if ← bread rd dev block then
    let z := zoneAt ((← get).data dev block) k
    if create ∧ z = 0 then
      let z ← newBlock dev
      if z ≠ 0 then
        updateData dev block fun b => setZoneAt b k z
        brelse dev block
        return z
      else
        brelse dev block
        return 0
    else
      brelse dev block
      return z
  else
    return 0

/-- The largest block number plus one: `7+512+512*512`. -/
def maxBlocks : ℕ := 7 + 512 + 512 * 512

/-- `_bmap` -/
def bmapWith (create : Bool) (ip : Ino) (block : ℤ) : FsM Zone := do
  let dev := (← readInodeTable ip).dev
  if block < 0 then
    throw (.panic "_bmap: block<0")
  else if (maxBlocks : ℤ) ≤ block then
    throw (.panic "_bmap: block>big")
  else if block < 7 then
    inodeZone create ip (Fin.ofNat 9 block.toNat)
  else if block - 7 < 512 then
    let z ← inodeZone create ip 7
    if z = 0 then
      return 0
    else
      indirectZone rd create dev (blockNr z) (Fin.ofNat 512 (block - 7).toNat)
  else
    let b := (block - 7 - 512).toNat
    let z ← inodeZone create ip 8
    if z = 0 then
      return 0
    else
      let z' ← indirectZone rd create dev (blockNr z) (Fin.ofNat 512 (b / 512))
      if z' = 0 then
        return 0
      else
        indirectZone rd create dev (blockNr z') (Fin.ofNat 512 (b % 512))

def bmap (ip : Ino) (block : ℤ) : FsM Zone := bmapWith rd false ip block

def createBlock (ip : Ino) (block : ℤ) : FsM Zone := bmapWith rd true ip block

/-- The loop over an indirect block in `free_ind` and `free_dind`; `free` is
done for every entry that is not 0. -/
def freeEntries (free : Zone → FsM PUnit) (dev : Dev) (block : BlockNr) : FsM PUnit := do
  if ← bread rd dev block then
    forN 512 fun i => do
      let z := zoneAt ((← get).data dev block) i
      if z ≠ 0 then free z else return ()
    brelse dev block
  else
    return ()

def freeInd (dev : Dev) (z : Zone) : FsM PUnit := do
  if z = 0 then
    return ()
  else
    freeEntries rd (fun z => freeBlock dev (blockNr z)) dev (blockNr z)
    freeBlock dev (blockNr z)

def freeDind (dev : Dev) (z : Zone) : FsM PUnit := do
  if z = 0 then
    return ()
  else
    freeEntries rd (freeInd rd dev) dev (blockNr z)
    freeBlock dev (blockNr z)

theorem directs_le : 7 ≤ 9 := by decide

def truncate (ip : Ino) : FsM PUnit := do
  let n ← readInodeTable ip
  if !isReg n.mode ∧ !isDir n.mode then
    return ()
  else
    forN 7 fun i => do
      let n ← readInodeTable ip
      if n.zone (i.castLE directs_le) ≠ 0 then
        freeBlock n.dev (blockNr (n.zone (i.castLE directs_le)))
        updateInode ip fun n => { n with zone := update n.zone (i.castLE directs_le) 0 }
      else
        return ()
    freeInd rd n.dev (n.zone 7)
    freeDind rd n.dev (n.zone 8)
    let now := (← get).now
    updateInode ip fun n => { n with
      zone := update (update n.zone 7 0) 8 0
      size := 0
      dirt := true
      mtime := now
      ctime := now }

/-! ### Inodes in memory -/

/-- `free_inode` of an inode in the table. -/
def freeInode (ip : Ino) : FsM PUnit := do
  let n ← readInodeTable ip
  if n.dev = 0 then
    updateInode ip fun _ => .cleared
  else if 1 < n.count then
    throw (.panic "free_inode")
  else if n.nlinks ≠ 0 then
    throw (.panic "trying to free inode with links")
  else
    match ← getSuper n.dev with
    | none => throw (.panic "trying to free inode on nonexistent device")
    | some i =>
      let sb := (← get).super i
      if n.num < 1 ∨ sb.ninodes < n.num then
        throw (.panic "trying to free inode 0 or nonexistant inode")
      else
        match sb.imap (Fin.ofNat 8 (n.num.toNat / 8192)) with
        | none => throw (.panic "nonexistent imap in superblock")
        | some map =>
          -- a bit that is clear already is only reported
          updateData n.dev map fun b => setBitAt b (bitNr n.num.toNat) false
          updateInode ip fun _ => .cleared

def iput (rd : RamDisk) : Option Ino → FsM PUnit
  | none => return ()
  | some ip => do
      let n ← readInodeTable ip
      if n.count = 0 then
        throw (.panic "iput: trying to free free inode")
      else if n.pipe then
        updateInode ip fun n => { n with count := n.count - 1 }
        if n.count - 1 ≠ 0 then
          return ()
        else
          liftMm (Mm.freePage n.size)
          updateInode ip fun n => { n with count := 0, dirt := false, pipe := false }
      else if n.dev = 0 then
        updateInode ip fun n => { n with count := n.count - 1 }
      else
        if isBlk n.mode then
          syncDev rd
        if 1 < n.count then
          updateInode ip fun n => { n with count := n.count - 1 }
        else if n.nlinks = 0 then
          truncate rd ip
          freeInode ip
        else
          -- the second pass of `repeat:` finds the inode clean
          writeInode rd ip
          updateInode ip fun n => { n with count := n.count - 1 }

/-- The places of the table in the order `get_empty_inode` visits them, from
the one after `last_inode` round to itself. -/
def fromNext (last : Ino) : List Ino := (List.finRange nrInode).map fun i => last + 1 + i

def getEmptyInode : FsM Ino := do
  let s ← get
  let order := fromNext s.lastInode
  match order.find? fun ip => (s.inode ip).count = 0 ∧ !(s.inode ip).dirt with
  | some ip =>
    set { s with lastInode := ip }
    updateInode ip fun _ => { MInode.cleared with count := 1 }
    return ip
  | none =>
    -- no clean one: the last that is not in use, written out
    match order.reverse.find? fun ip => (s.inode ip).count = 0 with
    | none => throw (.panic "No free inodes in mem")
    | some ip =>
      writeInode rd ip
      if ((← get).inode ip).dirt then
        throw .hang
      else
        updateInode ip fun _ => { MInode.cleared with count := 1 }
        return ip

/-- `get_pipe_inode`; `none` if there is no page. -/
def getPipeInode : FsM (Option Ino) := do
  let ip ← getEmptyInode rd
  let page ← liftMm Mm.getFreePage
  updateInode ip fun n => { n with size := page }
  if page = 0 then
    updateInode ip fun n => { n with count := 0 }
    return none
  else
    updateInode ip fun n => { n with
      count := 2
      zone := update (update n.zone 1 0) 0 0
      pipe := true }
    return some ip

/-- `ROOT_INO` -/
def rootIno : BitVec 16 := 1

/-- The search of `iget`, which starts again at a mounted root. -/
def igetFrom (rd : RamDisk) (empty : Ino) : ℕ → Dev → BitVec 16 → FsM Ino
  | 0, _, _ => throw .hang
  | fuel + 1, dev, nr => do
      let s ← get
      match (List.finRange nrInode).find? fun ip =>
          (s.inode ip).dev = dev ∧ (s.inode ip).num = nr with
      | none =>
        updateInode empty fun n => { n with dev := dev, num := nr }
        readInode rd empty
        return empty
      | some ip =>
        updateInode ip fun n => { n with count := n.count + 1 }
        if (s.inode ip).mount then
          match (List.finRange nrSuper).find? fun i => (s.super i).imount = some ip with
          | none =>
            iput rd (some empty)
            return ip
          | some i =>
            iput rd (some ip)
            igetFrom rd empty fuel (s.super i).dev rootIno
        else
          iput rd (some empty)
          return ip

def iget (rd : RamDisk) (dev : Dev) (nr : BitVec 16) : FsM Ino := do
  if dev = 0 then
    throw (.panic "iget with dev==0")
  else
    let empty ← getEmptyInode rd
    igetFrom rd empty (nrSuper + 1) dev nr

/-- What the file system looks at in `current`. -/
structure Current where
  pgdir : Word
  uid : BitVec 16
  euid : BitVec 16
  gid : BitVec 16
  egid : BitVec 16
  umask : BitVec 16
  root : Option Ino
  pwd : Option Ino

def newInode (cur : Current) (dev : Dev) : FsM (Option Ino) := do
  let ip ← getEmptyInode rd
  match ← getSuper dev with
  | none => throw (.panic "new_inode with unknown device")
  | some i =>
    let s ← get
    let sb := s.super i
    match freeBit s dev sb.imap with
    | none =>
      iput rd (some ip)
      return none
    | some (k, map, j) =>
      if sb.ninodes.toNat < j + k * 8192 then
        iput rd (some ip)
        return none
      else
        updateData dev map fun b => setBitAt b (bitNr j) true
        updateInode ip fun n => { n with
          count := 1
          nlinks := 1
          dev := dev
          uid := cur.euid
          gid := cur.egid.setWidth 8
          dirt := true
          num := .ofNat 16 (j + k * 8192)
          mtime := s.now
          atime := s.now
          ctime := s.now }
        return some ip

end LinuxRv.Minix
