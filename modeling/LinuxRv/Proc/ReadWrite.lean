import LinuxRv.Mm.Stops
import LinuxRv.Proc.Exit

/-!
Reading and writing (`fs/read_write.c`, `fs/file_dev.c`, `fs/pipe.c`,
`fs/block_dev.c`).

What a terminal delivers is a parameter: the bytes `tty_read` takes from the
queue of the terminal. A pipe call that would sleep ends in `Halt.hang`.
-/

namespace LinuxRv.Proc

open ByteMemory Prog Fs Minix Function

variable (rd : RamDisk) (me : Slot)

def espipe : ℤ := 29
def enodev : ℤ := 19

/-! ### User memory -/

/-- `put_fs_byte` of one byte after the other. -/
def putBytes (pgdir : Word) : Word → List Byte → Mm.M PUnit
  | _, [] => return ()
  | addr, b :: l => do
      Mm.putFsByte b pgdir addr
      putBytes pgdir (addr + 1) l

theorem stops_putBytes {S : Mm.Halt → Prop} {pgdir addr : Word} {l : List Byte}
    (hexit : S (.exit 11)) : Mm.Stops S (putBytes pgdir addr l) := by
  induction l generalizing addr with
  | nil => exact Keeps.pure _
  | cons b l ih => exact (Mm.stops_putFs hexit).bind fun _ => ih

/-- `get_fs_byte` of `n` bytes. -/
def getBytes (pgdir : Word) : ℕ → Word → Mm.M (List Byte)
  | 0, _ => return []
  | n + 1, addr => do
      let b ← Mm.getFsByte pgdir addr
      return b :: (← getBytes pgdir n (addr + 1))

/-! ### Regular files -/

/-- The bytes of a block from `nr` on. -/
def blockBytes (b : Block) (nr chars : ℕ) : List Byte :=
  (((List.finRange 1024).map b).drop nr).take chars

def setPos (f : Fin nrFile) (pos : Word) : ProcM PUnit :=
  updateFile f fun file => { file with pos := pos }

/-- The loop of `file_read`, with at most `fuel` rounds; the bytes left. -/
def fileReadFrom (rd : RamDisk) (pgdir : Word) (ip : Ino) (f : Fin nrFile) : ℕ → ℕ → Word → ProcM ℕ
  | 0, left, _ => return left
  | fuel + 1, left, buf => do
      if left = 0 then
        return 0
      else
        let pos := ((← get).file f).pos
        let z ← liftFs (bmap rd ip (pos.toInt.tdiv 1024))
        let dev := ((← get).fs.inode ip).dev
        let nr := pos.toInt.tmod 1024
        let chars := (min (1024 - nr) left).toNat
        if z = 0 then
          setPos f (pos + .ofNat 32 chars)
          liftMm (putBytes pgdir buf (List.replicate chars 0))
          fileReadFrom rd pgdir ip f fuel (left - chars) (buf + .ofNat 32 chars)
        else if ← liftFs (bread rd dev (blockNr z)) then
          -- a negative position is before the buffer
          if nr < 0 then
            throw .wild
          else
            setPos f (pos + .ofNat 32 chars)
            let b := (← get).fs.data dev (blockNr z)
            liftMm (putBytes pgdir buf (blockBytes b nr.toNat chars))
            liftFs (brelse dev (blockNr z))
            fileReadFrom rd pgdir ip f fuel (left - chars) (buf + .ofNat 32 chars)
        else
          return left

def fileRead (pgdir : Word) (ip : Ino) (f : Fin nrFile) (buf : Word) (count : ℤ) : ProcM ℤ := do
  if count ≤ 0 then
    return 0
  else
    let left ← fileReadFrom rd pgdir ip f count.toNat count.toNat buf
    let now := (← get).fs.now
    liftFs (updateInode ip fun n => { n with atime := now })
    return if count.toNat - left = 0 then -eerror else (count.toNat - left : ℕ)

/-- `*(p++) = get_fs_byte(buf++)` for `n` bytes of a block from `c` on. -/
def copyIn (pgdir : Word) (dev : Dev) (block : BlockNr) : ℕ → ℕ → Word → FsM PUnit
  | 0, _, _ => return ()
  | n + 1, c, buf => do
      let x ← Minix.liftMm (Mm.getFsByte pgdir buf)
      updateData dev block fun b => update b (Fin.ofNat 1024 c) x
      copyIn pgdir dev block n (c + 1) (buf + 1)

/-- The loop of `file_write`, with at most `fuel` rounds; `i` and `pos` at its
end. -/
def fileWriteFrom (rd : RamDisk) (pgdir : Word) (ip : Ino) (count : ℕ) :
    ℕ → ℕ → Word → Word → FsM (ℕ × Word)
  | 0, i, pos, _ => return (i, pos)
  | fuel + 1, i, pos, buf => do
      if count ≤ i then
        return (i, pos)
      else
        let z ← createBlock rd ip (pos.toInt.tdiv 1024)
        let dev := (← readInodeTable ip).dev
        if z = 0 then
          return (i, pos)
        else if ← bread rd dev (blockNr z) then
          let c := pos.toInt.tmod 1024
          let chars := (min (1024 - c) (count - i : ℕ)).toNat
          if c < 0 then
            throw .wild
          else
            let pos := pos + .ofNat 32 chars
            updateInode ip fun n => if n.size < pos then { n with size := pos, dirt := true } else n
            copyIn pgdir dev (blockNr z) chars c.toNat buf
            brelse dev (blockNr z)
            fileWriteFrom rd pgdir ip count fuel (i + chars) pos (buf + .ofNat 32 chars)
        else
          return (i, pos)

/-- `O_APPEND` -/
def oAppend : BitVec 16 := 0o2000

def fileWrite (pgdir : Word) (ip : Ino) (f : Fin nrFile) (buf : Word) (count : ℕ) : ProcM ℤ := do
  let k ← get
  let file := k.file f
  let append := file.flags &&& oAppend ≠ 0
  let pos := if append then (k.fs.inode ip).size else file.pos
  let (i, pos) ← liftFs (fileWriteFrom rd pgdir ip count count 0 pos buf)
  let now := (← get).fs.now
  liftFs (updateInode ip fun n => { n with mtime := now })
  if !append then
    setPos f pos
    liftFs (updateInode ip fun n => { n with ctime := now })
  return if i = 0 then -1 else i

/-! ### Pipes -/

/-- `PIPE_HEAD` and `PIPE_TAIL` -/
def pipeHead (n : MInode) : ℕ := (n.zone 0).toNat
def pipeTail (n : MInode) : ℕ := (n.zone 1).toNat

/-- `PIPE_SIZE` -/
def pipeSize (n : MInode) : ℕ :=
  (((n.zone 0).setWidth 32 - (n.zone 1).setWidth 32) &&& 0xfff : Word).toNat

/-- `read_pipe`, with at most `fuel` rounds. -/
def readPipe (pgdir : Word) (ip : Ino) : ℕ → ℕ → ℕ → Word → ProcM ℤ
  | 0, _, read, _ => return read
  | fuel + 1, count, read, buf => do
      if count = 0 then
        return read
      else
        let n := (← get).fs.inode ip
        if pipeSize n = 0 then
          if n.count ≠ 2 then return read else throw .hang
        else
          let chars := min (min (4096 - pipeTail n) count) (pipeSize n)
          liftFs (updateInode ip fun n => { n with
            zone := update n.zone 1 ((n.zone 1 + .ofNat 16 chars) &&& 0xfff) })
          let μ := (← get).fs.mm.mem
          let bytes := (List.range chars).map fun o => μ (n.size + .ofNat 32 (pipeTail n + o))
          liftMm (putBytes pgdir buf bytes)
          readPipe pgdir ip fuel (count - chars) (read + chars) (buf + .ofNat 32 chars)

/-- The bytes of a write into the page of a pipe. -/
def copyToPage (pgdir : Word) : ℕ → Word → Word → Mm.M PUnit
  | 0, _, _ => return ()
  | n + 1, page, buf => do
      let x ← Mm.getFsByte pgdir buf
      modify fun s => s.setMem (update s.mem page x)
      copyToPage pgdir n (page + 1) (buf + 1)

/-- `1<<(SIGPIPE-1)` -/
def sigPipe : Word := 1 <<< 12

/-- `write_pipe`, with at most `fuel` rounds. -/
def writePipe (me : Slot) (pgdir : Word) (ip : Ino) : ℕ → ℕ → ℕ → Word → ProcM ℤ
  | 0, _, written, _ => return written
  | fuel + 1, count, written, buf => do
      if count = 0 then
        return written
      else
        let n := (← get).fs.inode ip
        let size := 4095 - pipeSize n
        if size = 0 then
          if n.count ≠ 2 then
            addSignal me sigPipe
            return if written = 0 then -1 else written
          else throw .hang
        else
          let chars := min (min (4096 - pipeHead n) count) size
          liftFs (updateInode ip fun n => { n with
            zone := update n.zone 0 ((n.zone 0 + .ofNat 16 chars) &&& 0xfff) })
          liftMm (copyToPage pgdir chars (n.size + .ofNat 32 (pipeHead n)) buf)
          writePipe me pgdir ip fuel (count - chars) (written + chars) (buf + .ofNat 32 chars)

/-! ### Devices -/

/-- `block_read`, with at most `fuel` rounds; the blocks read ahead leave no
trace. -/
def blockRead (rd : RamDisk) (pgdir : Word) (dev : Dev) (f : Fin nrFile) :
    ℕ → ℕ → ℕ → BlockNr → ℕ → Word → ProcM ℤ
  | 0, _, read, _, _, _ => return read
  | fuel + 1, count, read, block, offset, buf => do
      if count = 0 then
        return read
      else
        let chars := min (1024 - offset) count
        if ← liftFs (bread rd dev block) then
          let pos := ((← get).file f).pos
          setPos f (pos + .ofNat 32 chars)
          let b := (← get).fs.data dev block
          liftMm (putBytes pgdir buf (blockBytes b offset chars))
          liftFs (brelse dev block)
          blockRead rd pgdir dev f fuel (count - chars) (read + chars) (block + 1) 0
            (buf + .ofNat 32 chars)
        else
          return if read = 0 then -5 else read

def eintr : ℤ := 4

/-- `rw_memory(READ, …)`. A port is a physical address outside of RAM. -/
def readMemory (file : File) (n : MInode) : ProcM ℤ := do
  if minor n = 3 then
    return 0
  else if minor n = 4 then
    if file.pos.toInt < 65536 then throw .wild else return 0
  else
    return -5

/-- `tty_read`, with `typed` what it takes from the queue. -/
def ttyRead (typed : List Byte) (cur : Task) (channel buf : Word) (nr : ℕ) : ProcM ℤ := do
  if 2 < channel.toNat then
    return -1
  else
    liftMm (putBytes cur.pgdir buf (typed.take nr))
    return if (typed.take nr).length = 0 ∧ cur.signal ≠ 0 then -eintr else (typed.take nr).length

/-- `rw_char(READ, …)` -/
def readChar (typed : List Byte) (cur : Task) (file : File) (n : MInode) (buf : Word)
    (count : ℕ) : ProcM ℤ := do
  if major n = 1 then
    readMemory file n
  else if major n = 4 then
    ttyRead typed cur (minor n) buf count
  else if major n = 5 then
    if cur.tty.toInt < 0 then return -eperm else ttyRead typed cur cur.tty buf count
  else
    return -enodev

/-! ### The calls -/

/-- The open file of a descriptor. -/
def Task.fileOf (t : Task) (fd : Word) : Option (Fin nrFile) :=
  if h : fd.toNat < nrOpen then t.filp ⟨fd.toNat, h⟩ else none

/-- `sys_read`, with `typed` what a terminal delivers. -/
def sysRead (typed : List Byte) (me : Slot) (fd buf count : Word) : ProcM ℤ := do
  let cur ← getTask me
  match cur.fileOf fd with
  | none => return -einval
  | some f =>
    if count.toInt < 0 then
      return -einval
    else if count = 0 then
      return 0
    else
      liftMm (Mm.verifyArea cur.pgdir buf count)
      let k ← get
      match (k.file f).inode with
      | none => throw nullPointer
      | some ip =>
        let n := k.fs.inode ip
        let file := k.file f
        if n.pipe then
          if file.mode &&& 1 = 0 then return -5
          else readPipe cur.pgdir ip count.toNat count.toNat 0 buf
        else if isChr n.mode then
          readChar typed cur file n buf count.toNat
        else if isBlk n.mode then
          blockRead rd cur.pgdir (n.zone 0) f count.toNat count.toNat 0
            (file.pos.sshiftRight 10) (file.pos &&& 0x3ff).toNat buf
        else if isDir n.mode ∨ isReg n.mode then
          let count := if n.size < count + file.pos then n.size - file.pos else count
          if count.toInt ≤ 0 then return 0 else fileRead rd cur.pgdir ip f buf count.toInt
        else
          return -einval

def sysLseek (fd offset origin : Word) : ProcM ℤ := do
  let cur ← getTask me
  match cur.fileOf fd with
  | none => return -ebadf
  | some f =>
    let k ← get
    let file := k.file f
    match file.inode with
    | none => return -ebadf
    | some ip =>
      let n := k.fs.inode ip
      if !(1 ≤ n.dev >>> 8 ∧ n.dev >>> 8 ≤ 3) then
        return -ebadf
      else if n.pipe then
        return -espipe
      else
        let pos :=
          if origin = 0 then some offset
          else if origin = 1 then some (file.pos + offset)
          else if origin = 2 then some (n.size + offset)
          else none
        match pos with
        | none => return -einval
        | some pos =>
          if pos.toInt < 0 then
            return -einval
          else
            setPos f pos
            return pos.toInt

/-- `sys_write` of a regular file or a pipe; devices are left out. -/
def sysWrite (fd buf count : Word) : ProcM ℤ := do
  let cur ← getTask me
  match cur.fileOf fd with
  | none => return -einval
  | some f =>
    if count.toInt < 0 then
      return -einval
    else if count = 0 then
      return 0
    else
      let k ← get
      match (k.file f).inode with
      | none => throw nullPointer
      | some ip =>
        let n := k.fs.inode ip
        if n.pipe then
          if (k.file f).mode &&& 2 = 0 then return -5
          else writePipe me cur.pgdir ip count.toNat count.toNat 0 buf
        else if isReg n.mode then
          fileWrite rd cur.pgdir ip f buf count.toNat
        else
          return -einval

end LinuxRv.Proc
