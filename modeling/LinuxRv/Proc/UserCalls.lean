import LinuxRv.Proc.Exec
import LinuxRv.Proc.ReadWrite

/-!
Calls that store into user memory (`fs/stat.c`, `fs/ioctl.c`, `kernel/sys.c`,
`kernel/signal.c`, `kernel/chr_drv/tty_ioctl.c`).

Padding of a structure that is built on the stack is what the stack held, a
parameter `pad`.
-/

namespace LinuxRv.Proc

open ByteMemory Prog Fs Minix Function

variable (rd : RamDisk) (me : Slot)

/-! ### Structures as bytes -/

def shortBytes (x : BitVec 16) : List Byte := [x.setWidth 8, (x >>> 8).setWidth 8]

def longBytes (x : Word) : List Byte :=
  [x.setWidth 8, (x >>> 8).setWidth 8, (x >>> 16).setWidth 8, (x >>> 24).setWidth 8]

/-- `struct stat` of an inode. -/
def statBytes (pad : Byte) (n : MInode) : List Byte :=
  shortBytes n.dev ++ shortBytes n.num ++ shortBytes n.mode ++ [n.nlinks, pad] ++
    shortBytes n.uid ++ [n.gid, pad] ++ shortBytes (n.zone 0) ++ [pad, pad] ++
    longBytes n.size ++ longBytes n.atime ++ longBytes n.mtime ++ longBytes n.ctime

/-- `thisname` -/
def thisname : List Byte :=
  ["linux .0", "nodename", "release ", "version ", "machine "].flatMap fun s =>
    s.toList.map (fun c => .ofNat 8 c.toNat) ++ [0]

def Sigaction.bytes (a : Sigaction) : List Byte :=
  longBytes a.handler ++ longBytes a.mask ++ longBytes a.flags ++ longBytes a.restorer

/-- `struct termio` of a terminal: the low halves of the flags, the line
discipline and eight control characters. -/
def termioBytes (pad : Byte) (t : Fin 36 → Byte) : List Byte :=
  [t 0, t 1, t 4, t 5, t 8, t 9, t 12, t 13, t 16, t 17, t 18, t 19, t 20, t 21, t 22, t 23, t 24,
    pad]

/-- Where the bytes of `struct termio` go in `struct termios`. -/
def termioPlace : List (Fin 36) :=
  [0, 1, 4, 5, 8, 9, 12, 13, 16, 17, 18, 19, 20, 21, 22, 23, 24]

/-! ### `stat` -/

def cpStat (pad : Byte) (pgdir : Word) (n : MInode) (statbuf : Word) : ProcM PUnit := do
  liftMm (Mm.verifyArea pgdir statbuf 32)
  liftMm (putBytes pgdir statbuf (statBytes pad n))

def sysStat (pad : Byte) (me : Slot) (filename statbuf : Word) : ProcM ℤ := do
  let cur ← getTask me
  match ← liftFs (namei rd cur.current filename) with
  | none => return -enoent
  | some ip =>
    cpStat pad cur.pgdir ((← get).fs.inode ip) statbuf
    liftFs (iput rd (some ip))
    return 0

def sysFstat (pad : Byte) (me : Slot) (fd statbuf : Word) : ProcM ℤ := do
  let cur ← getTask me
  match cur.fileOf fd with
  | none => return -ebadf
  | some f =>
    let k ← get
    match (k.file f).inode with
    | none => return -ebadf
    | some ip =>
      cpStat pad cur.pgdir (k.fs.inode ip) statbuf
      return 0

/-! ### Times and names -/

/-- `put_fs_long` of one long after the other. -/
def putLongs (pgdir : Word) : Word → List Word → Mm.M PUnit
  | _, [] => return ()
  | addr, v :: l => do
      Mm.putFsLong v pgdir addr
      putLongs pgdir (addr + 4) l

def sysTime (tloc : Word) : ProcM ℤ := do
  let cur ← getTask me
  let i := (← get).fs.now
  if tloc ≠ 0 then
    liftMm (Mm.verifyArea cur.pgdir tloc 4)
    liftMm (putLongs cur.pgdir tloc [i])
    return i.toInt
  else
    return i.toInt

def sysTimes (tbuf : Word) : ProcM ℤ := do
  let cur ← getTask me
  if tbuf ≠ 0 then
    liftMm (Mm.verifyArea cur.pgdir tbuf 16)
    liftMm (putLongs cur.pgdir tbuf [cur.utime, cur.stime, cur.cutime, cur.cstime])
    return (← get).jiffies.toInt
  else
    return (← get).jiffies.toInt

def sysUname (name : Word) : ProcM ℤ := do
  let cur ← getTask me
  if name = 0 then
    return -eerror
  else
    liftMm (Mm.verifyArea cur.pgdir name 45)
    liftMm (putBytes cur.pgdir name thisname)
    return 0

/-! ### Signals -/

def saNomask : Word := 0x40000000
def saOneshot : Word := 0x80000000

/-- `struct sigaction` from its bytes. -/
def Sigaction.ofBytes (l : List Byte) : Sigaction :=
  let long (i : ℕ) : Word := (l.getD (i + 3) 0 ++ l.getD (i + 2) 0 ++ l.getD (i + 1) 0 ++ l.getD i 0)
  ⟨long 0, long 4, long 8, long 12⟩

def setSigaction (i : Fin 32) (a : Sigaction) : ProcM PUnit :=
  updateTask me fun t => { t with sigaction := update t.sigaction i a }

/-- A signal that can be caught: between 1 and 32, and not `SIGKILL`. -/
def sigIndex (signum : Word) : Option (Fin 32) :=
  if h : 1 ≤ signum.toNat ∧ signum.toNat ≤ 32 then
    if signum = 9 then none else some ⟨signum.toNat - 1, by omega⟩
  else none

def sysSigaction (signum action oldaction : Word) : ProcM ℤ := do
  match sigIndex signum with
  | none => return -1
  | some i =>
    let cur ← getTask me
    -- a task that is ended in between has no use for its handlers any more
    let new := Sigaction.ofBytes (← liftMm (getBytes cur.pgdir 16 action))
    setSigaction me i new
    if oldaction ≠ 0 then
      liftMm (Mm.verifyArea cur.pgdir oldaction 16)
      liftMm (putBytes cur.pgdir oldaction (cur.sigaction i).bytes)
    setSigaction me i { new with
      mask := if new.flags &&& saNomask ≠ 0 then 0 else new.mask ||| (1 <<< i.1) }
    return 0

/-- `ra` in a trap frame. -/
def tfRa : Fin 100 := 2

/-- `SIGCHLD` -/
def sigChldNr : ℕ := 17

/-- `do_signal` of the signal `i + 1`. -/
def doSignal (i : Fin 32) : ProcM PUnit := do
  let cur ← getTask me
  let sa := cur.sigaction i
  let signr := i.1 + 1
  if sa.handler = 1 then
    return ()
  else if sa.handler = 0 then
    if signr = sigChldNr then return () else throw (.exit signr)
  else
    if sa.flags &&& saOneshot ≠ 0 then
      setSigaction me i { sa with handler := 0 }
    let sp := cur.tf tfSp - 20
    liftMm (Mm.verifyArea cur.pgdir sp 20)
    liftMm (putLongs cur.pgdir sp
      [sa.restorer, .ofNat 32 signr, cur.tf tfA0, cur.tf tfMepc, cur.tf tfSp])
    updateTask me fun t => { t with
      tf := update (update (update (update t.tf
        tfSp sp) tfA0 (.ofNat 32 signr)) tfRa sa.restorer) tfMepc sa.handler
      blocked := t.blocked ||| sa.mask }

/-- The first bit that is set. -/
def firstBit (x : Word) : Option (Fin 32) := (List.finRange 32).find? fun i => x.getLsbD i

def doSignals : ProcM PUnit := do
  let cur ← getTask me
  match firstBit (cur.signal &&& ~~~cur.blocked) with
  | none => return ()
  | some i =>
    updateTask me fun t => { t with signal := t.signal &&& ~~~(1 <<< i.1 : Word) }
    doSignal me i

/-! ### Terminals -/

def enotty : ℤ := 25

/-- What the terminal stores at `arg`: how many bytes it asks for, and the
bytes or the long. -/
inductive TtyAnswer
  | bytes (l : List Byte)
  | long (v : Word)

def TtyAnswer.size : TtyAnswer → Word
  | .bytes l => .ofNat 32 l.length
  | .long _ => 4

/-- `TCGETS`, `TCGETA`, `TIOCGPGRP`, `TIOCOUTQ` and `TIOCINQ` -/
def ttyAnswer (pad : Byte) (tty : Tty) (cmd : Word) : Option TtyAnswer :=
  if cmd = 0x5401 then some (.bytes (List.ofFn tty.termios))
  else if cmd = 0x5405 then some (.bytes (termioBytes pad tty.termios))
  else if cmd = 0x540f then some (.long tty.pgrp)
  else if cmd = 0x5411 then some (.long tty.outQ)
  else if cmd = 0x541b then some (.long tty.inQ)
  else none

/-- Bytes stored at places of a structure. -/
def setPlaces (t : Fin 36 → Byte) (l : List (Fin 36 × Byte)) : Fin 36 → Byte :=
  l.foldl (fun t p => update t p.1 p.2) t

def ttyIoctl (pad : Byte) (cur : Task) (n : MInode) (cmd arg : Word) : ProcM ℤ := do
  let dev := if major n = 5 then cur.tty else minor n
  if dev.toInt < 0 then
    throw (.panic "tty_ioctl: dev<0")
  else
    match ttyAnswer pad ((← get).tty dev) cmd with
    | some answer =>
      liftMm (Mm.verifyArea cur.pgdir arg answer.size)
      match answer with
      | .bytes l => liftMm (putBytes cur.pgdir arg l)
      | .long v => liftMm (putLongs cur.pgdir arg [v])
      return 0
    | none =>
      -- `TCSETS`, `TCSETSW`, `TCSETSF`
      if cmd = 0x5402 ∨ cmd = 0x5403 ∨ cmd = 0x5404 then
        let l ← liftMm (getBytes cur.pgdir 36 arg)
        updateTty dev fun tty => { tty with
          termios := setPlaces tty.termios ((List.finRange 36).zip l) }
        return 0
      -- `TCSETA`, `TCSETAW`, `TCSETAF`
      else if cmd = 0x5406 ∨ cmd = 0x5407 ∨ cmd = 0x5408 then
        let l ← liftMm (getBytes cur.pgdir 18 arg)
        updateTty dev fun tty => { tty with
          termios := setPlaces tty.termios (termioPlace.zip l) }
        return 0
      -- `TCSBRK`
      else if cmd = 0x5409 then
        return 0
      -- `TCFLSH`
      else if cmd = 0x540b then
        if arg = 0 then
          return 0
        else if arg = 1 ∨ arg = 2 then
          updateTty dev fun tty => { tty with outQ := 0 }
          return 0
        else
          return -einval
      -- `TIOCSPGRP`
      else if cmd = 0x5410 then
        let pgrp ← liftMm (Mm.getFsLong cur.pgdir arg)
        updateTty dev fun tty => { tty with pgrp := pgrp }
        return 0
      else
        return -einval

def sysIoctl (pad : Byte) (me : Slot) (fd cmd arg : Word) : ProcM ℤ := do
  let cur ← getTask me
  match cur.fileOf fd with
  | none => return -ebadf
  | some f =>
    let k ← get
    match (k.file f).inode with
    | none => throw nullPointer
    | some ip =>
      let n := k.fs.inode ip
      if !isChr n.mode ∧ !isBlk n.mode then
        return -einval
      else if 8 ≤ major n then
        return -enodev
      else if major n = 4 ∨ major n = 5 then
        ttyIoctl pad cur n cmd arg
      else
        return -enotty

end LinuxRv.Proc
