import LinuxRv.Lib.ByteMemory
import LinuxRv.Lib.Links
import LinuxRv.Lib.Prog

/-!
The buffer cache (`fs/buffer.c`), the block-request layer under it
(`kernel/blk_drv/ll_rw_blk.c`, `blk.h`), the ramdisk driver
(`kernel/blk_drv/ramdisk.c`) and the part of `fs/inode.c` and `fs/super.c`
that the cache calls back into: `sync_dev` writes the dirty inodes out, and
writing an inode reads its block through the cache.

Buffer heads are numbered from `start_buffer` on. A procedure runs until it
returns or has to stop: in `sleep_on`, in `panic`, at an access outside the
ramdisk image, or, for the loops of the source that have no bound of their
own, when the fuel given to it is spent. A task that sleeps leaves the state
as it is for the others.

Device numbers are `unsigned short` wherever the kernel keeps them, and all
callers take them from there.
-/

namespace LinuxRv.Fs

open ByteMemory Prog Links Function

abbrev Dev := BitVec 16
abbrev BlockNr := BitVec 32

/-- `BLOCK_SIZE` bytes. -/
abbrev Block := Fin 1024 → Byte

/-- `NR_HASH` -/
abbrev nrHash : ℕ := 307
/-- `NR_REQUEST` -/
abbrev nrRequest : ℕ := 32
/-- `NR_INODE` -/
abbrev nrInode : ℕ := 32
/-- `NR_SUPER` -/
abbrev nrSuper : ℕ := 8

def major (dev : Dev) : ℕ := dev.toNat / 256

def minor (dev : Dev) : ℕ := dev.toNat % 256

/-! ### State -/

/-- A buffer, by its position after `start_buffer`; there are `m + 1` of them. -/
abbrev Buf (m : ℕ) := Fin (m + 1)

/-- `struct buffer_head` with the block its `b_data` points to. -/
structure BufferHead (m : ℕ) where
  data : Block
  blocknr : BlockNr
  dev : Dev
  uptodate : Bool
  dirt : Bool
  /-- An `unsigned char`. -/
  count : Byte
  lock : Bool
  prev : Option (Buf m)
  next : Option (Buf m)
  prevFree : Option (Buf m)
  nextFree : Option (Buf m)

/-- The two commands a request carries; `READA` and `WRITEA` are only
arguments of `ll_rw_block`. -/
inductive Cmd
  | read
  | write
  deriving DecidableEq

inductive Rw
  | read
  | write
  | reada
  | writea
  deriving DecidableEq

/-- `struct request`; `dev` is `none` for -1, which marks a free slot. The
number of sectors is always 2 and the buffer is that of `bh`. -/
structure Request (m : ℕ) where
  dev : Option Dev
  cmd : Cmd
  sector : BitVec 32
  bh : Buf m
  next : Option (Fin nrRequest)

/-- What the cache sees of a `struct m_inode`: `onDisk` are its first 32 bytes,
which are a `struct d_inode`. -/
structure CoreInode where
  onDisk : Fin 32 → Byte
  dev : Dev
  num : BitVec 16
  lock : Bool
  dirt : Bool
  pipe : Bool

/-- What the cache sees of a `struct super_block`. -/
structure SuperBlock where
  dev : Dev
  imapBlocks : BitVec 16
  zmapBlocks : BitVec 16
  lock : Bool

structure Cache (m : ℕ) where
  buf : Buf m → BufferHead m
  hashTable : Fin nrHash → Option (Buf m)
  freeList : Option (Buf m)
  request : Fin nrRequest → Request m
  /-- `blk_dev[1].current_request` -/
  currentRequest : Option (Fin nrRequest)
  inode : Fin nrInode → CoreInode
  super : Fin nrSuper → SuperBlock
  /-- The ramdisk image, by blocks from `rd_start` on. -/
  image : ℕ → Block
  /-- Not in the source: the buffer heads `getblk` has given a new label to, as
  they were when it decided to. -/
  relabelled : List (BufferHead m)
  /-- Not in the source: what was last stored into each block by the users of
  the cache. -/
  stored : Dev → BlockNr → Block

instance (priority := 2000) neZeroOne : NeZero (0 + 1) := ⟨by decide⟩

/-- Where the root file system image was linked to: `rd_start` and
`rd_length`. -/
structure RamDisk where
  start : Word
  length : Word
  fits : start.toNat + length.toNat < 2 ^ 32

/-- `ROOT_DEV`, the ramdisk. -/
def rdDev : Dev := 0x101

/-- The block lies within the image. -/
def RamDisk.InRange (rd : RamDisk) (block : BlockNr) : Prop :=
  (block.toNat + 1) * 1024 ≤ rd.length.toNat

instance (rd : RamDisk) (block : BlockNr) : Decidable (rd.InRange block) := by
  unfold RamDisk.InRange
  infer_instance

/-- Why a call does not return. -/
inductive Stop
  | panic (message : String)
  | sleep
  /-- Asleep until the inode is unlocked. -/
  | inodeLock (i : Fin nrInode)
  /-- A null pointer, or an address outside the image, is dereferenced. -/
  | wild
  | fuel
  deriving DecidableEq

abbrev CacheM (m : ℕ) := EStateM Stop (Cache m)

variable {m : ℕ}

def Cache.setBuf (s : Cache m) (bh : Buf m) (f : BufferHead m → BufferHead m) : Cache m :=
  { s with buf := update s.buf bh (f (s.buf bh)) }

def Cache.setRequest (s : Cache m) (r : Fin nrRequest) (q : Request m) : Cache m :=
  { s with request := update s.request r q }

def Cache.setInode (s : Cache m) (i : Fin nrInode) (f : CoreInode → CoreInode) : Cache m :=
  { s with inode := update s.inode i (f (s.inode i)) }

/-- Code that stores into `b_data`: the block's contents are now these. -/
def Cache.store (s : Cache m) (bh : Buf m) (data : Block) : Cache m :=
  let b := s.buf bh
  { s.setBuf bh fun b => { b with data := data } with
    stored := update s.stored b.dev (update (s.stored b.dev) b.blocknr data) }

def setBuf (bh : Buf m) (f : BufferHead m → BufferHead m) : CacheM m PUnit :=
  modify fun s => s.setBuf bh f

/-! ### Requests -/

/-- `wait_on_buffer` -/
def waitOnBuffer (bh : Buf m) : CacheM m PUnit := do
  if ((← get).buf bh).lock then throw .sleep

/-- `lock_buffer` -/
def lockBuffer (bh : Buf m) : CacheM m PUnit := do
  waitOnBuffer bh
  setBuf bh fun b => { b with lock := true }

/-- `unlock_buffer` -/
def unlockBuffer (bh : Buf m) : CacheM m PUnit :=
  setBuf bh fun b => { b with lock := false }

/-- `end_request`, for the request `r` that is `CURRENT`. -/
def endRequest (r : Fin nrRequest) (uptodate : Bool) : CacheM m PUnit := do
  let q := (← get).request r
  setBuf q.bh fun b => { b with uptodate := uptodate }
  unlockBuffer q.bh
  modify fun s => { s.setRequest r { q with dev := none } with currentRequest := q.next }

/-- The `memcpy` between the buffer and block `k` of the image. -/
def Cache.transfer (s : Cache m) (q : Request m) (k : ℕ) : Cache m :=
  match q.cmd with
  | .write => { s with image := update s.image k (s.buf q.bh).data }
  | .read => s.setBuf q.bh fun b => { b with data := s.image k }

/-- `do_rd_request`. The bound is checked as the source does, on 32-bit
pointers; an access that passes it outside the image is not modelled further. -/
def doRdRequest (rd : RamDisk) : ℕ → CacheM m PUnit
  | 0 => throw .fuel
  | fuel + 1 => do
      let s ← get
      match s.currentRequest with
      | none => pure ⟨⟩
      | some r =>
        let q := s.request r
        if q.dev.map major ≠ some 1 then throw (.panic "ramdisk: request list destroyed")
        else if (s.buf q.bh).lock = false then throw (.panic "ramdisk: block not locked")
        else
          let off := q.sector <<< 9
          if q.dev.map minor ≠ some 1 ∨ rd.start + rd.length < rd.start + off + 1024 then
            endRequest r false
            doRdRequest rd fuel
          else if rd.length.toNat < off.toNat + 1024 then throw .wild
          else
            modify fun s => s.transfer q (off.toNat / 1024)
            endRequest r true
            doRdRequest rd fuel

/-- `IN_ORDER`: reads go before writes. -/
def inOrder (a b : Request m) : Bool :=
  match a.cmd, b.cmd with
  | .read, .write => true
  | .write, .read => false
  | _, _ =>
    let dev (q : Request m) : ℤ := q.dev.elim (-1) fun d => d.toNat
    dev a < dev b || (dev a == dev b && a.sector < b.sector)

/-- The elevator loop of `add_request`: the queued request to go in after. -/
def elevator (q : Request m) : ℕ → Fin nrRequest → CacheM m (Fin nrRequest)
  | 0, _ => throw .fuel
  | fuel + 1, tmp => do
      let s ← get
      match (s.request tmp).next with
      | none => pure tmp
      | some nx =>
        if (inOrder (s.request tmp) q || !inOrder (s.request tmp) (s.request nx)) &&
            inOrder q (s.request nx) then
          pure tmp
        else
          elevator q fuel nx

/-- `add_request` -/
def addRequest (rd : RamDisk) (r : Fin nrRequest) : CacheM m PUnit := do
  let q := (← get).request r
  setBuf q.bh fun b => { b with dirt := false }
  match (← get).currentRequest with
  | none =>
    modify fun s => { s with currentRequest := some r }
    doRdRequest rd (nrRequest + 1)
  | some tmp =>
    let tmp ← elevator q nrRequest tmp
    modify fun s => s.setRequest r { q with next := (s.request tmp).next }
    modify fun s => s.setRequest tmp { s.request tmp with next := some r }

/-- The last free slot among the first `k`. -/
def freeRequest (s : Cache m) (k : ℕ) : Option (Fin nrRequest) :=
  (List.finRange nrRequest).reverse.find? fun r => r.1 < k && (s.request r).dev.isNone

/-- `make_request`, for the buffer's device 1. -/
def makeRequest (rd : RamDisk) (rw : Rw) (bh : Buf m) : CacheM m PUnit := do
  let ahead := rw = .reada ∨ rw = .writea
  if ahead ∧ ((← get).buf bh).lock then return
  let cmd : Cmd := if rw = .read ∨ rw = .reada then .read else .write
  lockBuffer bh
  let b := (← get).buf bh
  if (cmd = .write ∧ b.dirt = false) ∨ (cmd = .read ∧ b.uptodate) then
    unlockBuffer bh
    return
  -- the last third of the requests are only for reads
  match freeRequest (← get) (if cmd = .read then nrRequest else nrRequest * 2 / 3) with
  | none => if ahead then unlockBuffer bh else throw .sleep
  | some r =>
    modify fun s => s.setRequest r
      { dev := some b.dev, cmd := cmd, sector := b.blocknr <<< 1, bh := bh, next := none }
    addRequest rd r

/-- `ll_rw_block`. The ramdisk is the only driver there is. -/
def llRwBlock (rd : RamDisk) (rw : Rw) (bh : Buf m) : CacheM m PUnit := do
  if major ((← get).buf bh).dev ≠ 1 then
    -- "Trying to read nonexistent block-device"
    return
  makeRequest rd rw bh

/-! ### The two queues -/

/-- `_hashfn` -/
def hashFn (dev : Dev) (block : BlockNr) : Fin nrHash :=
  ⟨(dev.setWidth 32 ^^^ block).toNat % nrHash, Nat.mod_lt _ (by decide)⟩

/-- `p->field = v`, if `p` is not null. -/
def Cache.setAt (s : Cache m) (p : Option (Buf m)) (f : BufferHead m → BufferHead m) : Cache m :=
  match p with
  | some bh => s.setBuf bh f
  | none => s

/-- `remove_from_queues` -/
def removeFromQueues (bh : Buf m) : CacheM m PUnit := do
  let b := (← get).buf bh
  -- remove from hash-queue
  modify fun s => s.setAt b.next fun c => { c with prev := b.prev }
  modify fun s => s.setAt b.prev fun c => { c with next := b.next }
  let h := hashFn b.dev b.blocknr
  modify fun s =>
    if s.hashTable h = some bh then
      { s with hashTable := update s.hashTable h b.next }
    else s
  -- remove from free list
  match b.prevFree, b.nextFree with
  | some p, some q =>
    setBuf p fun c => { c with nextFree := some q }
    setBuf q fun c => { c with prevFree := some p }
    modify fun s => if s.freeList = some bh then { s with freeList := some q } else s
  | _, _ => throw (.panic "Free block list corrupted")

/-- `insert_into_queues` -/
def insertIntoQueues (bh : Buf m) : CacheM m PUnit := do
  -- put at end of free list
  match (← get).freeList with
  | none => throw .wild
  | some f =>
    setBuf bh fun c => { c with nextFree := some f }
    let t := ((← get).buf f).prevFree
    setBuf bh fun c => { c with prevFree := t }
    match ((← get).buf f).prevFree with
    | none => throw .wild
    | some t =>
      setBuf t fun c => { c with nextFree := some bh }
      setBuf f fun c => { c with prevFree := some bh }
      -- put the buffer in new hash-queue if it has a device
      setBuf bh fun c => { c with prev := none, next := none }
      let b := (← get).buf bh
      if b.dev = 0 then return
      let h := hashFn b.dev b.blocknr
      let head := (← get).hashTable h
      setBuf bh fun c => { c with next := head }
      modify fun s => { s with hashTable := update s.hashTable h (some bh) }
      modify fun s => s.setAt head fun c => { c with prev := some bh }

/-- The buffer is labelled with this block. -/
def BufferHead.isFor (b : BufferHead m) (dev : Dev) (block : BlockNr) : Bool :=
  b.dev == dev && b.blocknr == block

/-- `find_buffer` -/
def findBuffer (dev : Dev) (block : BlockNr) : CacheM m (Option (Buf m)) := do
  let s ← get
  match search (fun bh => (s.buf bh).next) (fun bh => (s.buf bh).isFor dev block) (m + 1)
      (s.hashTable (hashFn dev block)) with
  | some r => pure r
  | none => throw .fuel

/-- `get_hash_table`. The source goes round again when the buffer was given to
another block while the caller slept. -/
def getHashTable (dev : Dev) (block : BlockNr) : CacheM m (Option (Buf m)) := do
  match ← findBuffer dev block with
  | none => pure none
  | some bh =>
    setBuf bh fun b => { b with count := b.count + 1 }
    waitOnBuffer bh
    if ((← get).buf bh).isFor dev block then
      pure (some bh)
    else
      setBuf bh fun b => { b with count := b.count - 1 }
      throw .fuel

/-- `brelse`. The count is taken down even when that is a panic. -/
def brelse (bh : Buf m) : CacheM m PUnit := do
  waitOnBuffer bh
  let count := ((← get).buf bh).count
  setBuf bh fun b => { b with count := b.count - 1 }
  if count = 0 then throw (.panic "Trying to free free buffer")

/-! ### Reading a block, given `getblk` -/

section

variable (rd : RamDisk) (getblk : Dev → BlockNr → CacheM m (Buf m))

/-- `bread` -/
def breadWith (dev : Dev) (block : BlockNr) : CacheM m (Option (Buf m)) := do
  let bh ← getblk dev block
  if ((← get).buf bh).uptodate then return some bh
  llRwBlock rd .read bh
  waitOnBuffer bh
  if ((← get).buf bh).uptodate then return some bh
  brelse bh
  return none

/-- The read-ahead loop of `breada`: it asks for `bh` again, not for the block
it has just got. -/
def readAheadWith (dev : Dev) (bh : Buf m) : List BlockNr → CacheM m PUnit
  | [] => pure ⟨⟩
  | block :: rest => do
      let tmp ← getblk dev block
      if ((← get).buf tmp).uptodate = false then llRwBlock rd .reada bh
      setBuf tmp fun b => { b with count := b.count - 1 }
      readAheadWith dev bh rest

/-- `breada`; `rest` are the arguments before the negative one. -/
def breadaWith (dev : Dev) (first : BlockNr) (rest : List BlockNr) : CacheM m (Option (Buf m)) := do
  let bh ← getblk dev first
  if ((← get).buf bh).uptodate = false then llRwBlock rd .read bh
  readAheadWith rd getblk dev bh rest
  waitOnBuffer bh
  if ((← get).buf bh).uptodate then return some bh
  brelse bh
  return none

/-- `get_super`: the first slot that holds `dev`. -/
def getSuper (dev : Dev) : CacheM m (Option SuperBlock) := do
  let s ← get
  if dev = 0 then return none
  match (List.finRange nrSuper).find? fun i => (s.super i).dev == dev with
  | none => return none
  | some i =>
    -- `wait_on_super`
    if (s.super i).lock then throw .sleep
    return some (s.super i)

/-- The block an inode is stored in. -/
def inodeBlock (sb : SuperBlock) (num : BitVec 16) : BlockNr :=
  2 + sb.imapBlocks.setWidth 32 + sb.zmapBlocks.setWidth 32 + (num.setWidth 32 - 1) / 32

/-- Its place there, counted in inodes. -/
def inodeSlot (num : BitVec 16) : ℕ := ((num.setWidth 32 - 1 : BitVec 32) % 32).toNat

/-- `((struct d_inode *) b_data)[slot] = *(struct d_inode *) inode` -/
def putInode (data : Block) (slot : ℕ) (onDisk : Fin 32 → Byte) : Block := fun o =>
  if o.1 / 32 = slot then onDisk ⟨o.1 % 32, Nat.mod_lt _ (by decide)⟩ else data o

/-- `wait_on_inode` -/
def waitOnInode (i : Fin nrInode) : CacheM m PUnit := do
  if ((← get).inode i).lock then throw (.inodeLock i)

/-- `write_inode` -/
def writeInodeWith (i : Fin nrInode) : CacheM m PUnit := do
  -- `lock_inode`
  waitOnInode i
  modify fun s => s.setInode i fun n => { n with lock := true }
  let n := (← get).inode i
  if n.dirt = false ∨ n.dev = 0 then
    modify fun s => s.setInode i fun n => { n with lock := false }
  else
    match ← getSuper n.dev with
    | none => throw (.panic "trying to write inode without device")
    | some sb =>
      match ← breadWith rd getblk n.dev (inodeBlock sb n.num) with
      | none => throw (.panic "unable to read i-node block")
      | some bh =>
        modify fun s => s.store bh (putInode (s.buf bh).data (inodeSlot n.num) n.onDisk)
        setBuf bh fun b => { b with dirt := true }
        modify fun s => s.setInode i fun n => { n with dirt := false }
        brelse bh
        modify fun s => s.setInode i fun n => { n with lock := false }

/-- `*(struct d_inode *) inode = ((struct d_inode *) b_data)[slot]` -/
def getInode (data : Block) (slot : ℕ) : Fin 32 → Byte := fun o =>
  data (Fin.ofNat 1024 (slot * 32 + o))

/-- `read_inode` -/
def readInodeWith (i : Fin nrInode) : CacheM m PUnit := do
  -- `lock_inode`
  waitOnInode i
  modify fun s => s.setInode i fun n => { n with lock := true }
  let n := (← get).inode i
  match ← getSuper n.dev with
  | none => throw (.panic "trying to read inode without dev")
  | some sb =>
    match ← breadWith rd getblk n.dev (inodeBlock sb n.num) with
    | none => throw (.panic "unable to read i-node block")
    | some bh =>
      let onDisk := getInode ((← get).buf bh).data (inodeSlot n.num)
      modify fun s => s.setInode i fun n => { n with onDisk := onDisk }
      brelse bh
      modify fun s => s.setInode i fun n => { n with lock := false }

/-- `sync_inodes` -/
def syncInodesWith : CacheM m PUnit :=
  forN nrInode fun i => do
    waitOnInode i
    let n := (← get).inode i
    if n.dirt ∧ n.pipe = false then writeInodeWith rd getblk i

/-- One of the two identical loops of `sync_dev`. -/
def flushDev (dev : Dev) : CacheM m PUnit :=
  forN (m + 1) fun bh => do
    if ((← get).buf bh).dev ≠ dev then return
    waitOnBuffer bh
    let b := (← get).buf bh
    if b.dev = dev ∧ b.dirt then llRwBlock rd .write bh

/-- `sync_dev` -/
def syncDevWith (dev : Dev) : CacheM m PUnit := do
  flushDev rd dev
  syncInodesWith rd getblk
  flushDev rd dev

end

/-! ### Finding a buffer -/

/-- `BADNESS` -/
def BufferHead.badness (b : BufferHead m) : ℕ := 2 * b.dirt.toNat + b.lock.toNat

/-- `!bh || BADNESS(tmp)<BADNESS(bh)` -/
def Cache.better (s : Cache m) (tmp : Buf m) : Option (Buf m) → Bool
  | none => true
  | some bh => (s.buf tmp).badness < (s.buf bh).badness

/-- The search of `getblk` through the free list from `tmp` on, for an unused
buffer of least badness; it ends early at a clean unlocked one. `best` is the
best one so far. -/
def findVictim (start : Buf m) : ℕ → Buf m → Option (Buf m) → CacheM m (Option (Buf m))
  | 0, _, _ => throw .fuel
  | fuel + 1, tmp, best => do
      let s ← get
      if (s.buf tmp).count = 0 ∧ s.better tmp best ∧ (s.buf tmp).badness = 0 then
        return some tmp
      let best := if (s.buf tmp).count = 0 ∧ s.better tmp best then some tmp else best
      match (s.buf tmp).nextFree with
      | none => throw .wild
      | some tmp => if tmp = start then return best else findVictim start fuel tmp best

/-- `while (bh->b_dirt) { sync_dev(bh->b_dev); .. }` in `getblk`; the result
says whether to start over because the buffer has been taken. -/
def cleanVictim (syncDev : Dev → CacheM m PUnit) (bh : Buf m) : ℕ → CacheM m Bool
  | 0 => throw .fuel
  | fuel + 1 => do
      let b := (← get).buf bh
      if b.dirt = false then return false
      syncDev b.dev
      waitOnBuffer bh
      if ((← get).buf bh).count ≠ 0 then return true
      cleanVictim syncDev bh fuel

/-- The end of `getblk`: the buffer is given to its new block. -/
def relabel (bh : Buf m) (dev : Dev) (block : BlockNr) : CacheM m PUnit := do
  modify fun s => { s with relabelled := s.buf bh :: s.relabelled }
  setBuf bh fun b => { b with count := 1, dirt := false, uptodate := false }
  removeFromQueues bh
  setBuf bh fun b => { b with dev := dev, blocknr := block }
  insertIntoQueues bh

/-- `getblk`. Every round of its loops and every nested call takes one unit of
fuel. -/
def getblk (rd : RamDisk) : ℕ → Dev → BlockNr → CacheM m (Buf m)
  | 0, _, _ => throw .fuel
  | fuel + 1, dev, block => do
      match ← getHashTable dev block with
      | some bh => return bh
      | none =>
        match (← get).freeList with
        | none => throw .wild
        | some start =>
          match ← findVictim start (m + 1) start none with
          | none => throw .sleep
          | some bh =>
            waitOnBuffer bh
            if ((← get).buf bh).count ≠ 0 then
              getblk rd fuel dev block
            else if ← cleanVictim (syncDevWith rd (getblk rd fuel)) bh (fuel + 1) then
              getblk rd fuel dev block
            -- somebody else might already have added this block
            else if (← findBuffer dev block).isSome then
              getblk rd fuel dev block
            else
              relabel bh dev block
              return bh

/-- `bread` -/
def bread (rd : RamDisk) (fuel : ℕ) : Dev → BlockNr → CacheM m (Option (Buf m)) :=
  breadWith rd (getblk rd fuel)

/-- `breada` -/
def breada (rd : RamDisk) (fuel : ℕ) : Dev → BlockNr → List BlockNr → CacheM m (Option (Buf m)) :=
  breadaWith rd (getblk rd fuel)

/-- `sync_dev` -/
def syncDev (rd : RamDisk) (fuel : ℕ) : Dev → CacheM m PUnit :=
  syncDevWith rd (getblk rd fuel)

/-- `sys_sync` -/
def sysSync (rd : RamDisk) (fuel : ℕ) : CacheM m PUnit := do
  syncInodesWith rd (getblk rd fuel)
  forN (m + 1) fun bh => do
    waitOnBuffer bh
    if ((← get).buf bh).dirt then llRwBlock rd .write bh

/-- `buffer_init`, on whatever the memory holds: each head is cleared and put
between its neighbours, and the two ends are then joined. `b_blocknr` is not
assigned. -/
def bufferInit (s : Cache m) : Cache m :=
  let clear (i : Buf m) : BufferHead m :=
    { s.buf i with
      dev := 0, dirt := false, count := 0, lock := false, uptodate := false
      next := none, prev := none
      prevFree := some (if i = 0 then Fin.last m else i - 1)
      nextFree := some (if i = Fin.last m then 0 else i + 1) }
  { s with
    buf := clear
    freeList := some 0
    hashTable := fun _ => none
    relabelled := [] }

end LinuxRv.Fs
