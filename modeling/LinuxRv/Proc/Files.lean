import LinuxRv.Minix.Super
import LinuxRv.Proc.Tasks

/-!
Descriptors (`sys_open`, `sys_creat` and `sys_close` of `fs/open.c`,
`fs/fcntl.c`, `sys_pipe` of `fs/pipe.c`), and `sys_chdir` and `sys_chroot`.
-/

namespace LinuxRv.Proc

open ByteMemory Prog Fs Minix

variable (rd : RamDisk) (rootDev : Dev) (me : Slot)

def emfile : ℤ := 24

/-- What the file system looks at in `current`. -/
def Task.current (t : Task) : Current where
  pgdir := t.pgdir
  uid := t.uid
  euid := t.euid
  gid := t.gid
  egid := t.egid
  umask := t.umask
  root := t.root
  pwd := t.pwd

/-- `1<<fd` -/
def fdBit (fd : Fin nrOpen) : Word := 1 <<< fd.1

def setFilp (fd : Fin nrOpen) (o : Option (Fin nrFile)) : ProcM PUnit :=
  updateTask me fun t => { t with filp := Function.update t.filp fd o }

/-- `current->close_on_exec &= ~(1<<fd)` -/
def clearCloseOnExec (fd : Fin nrOpen) : ProcM PUnit :=
  updateTask me fun t => { t with closeOnExec := t.closeOnExec &&& ~~~fdBit fd }

def setCount (f : Fin nrFile) (count : BitVec 16) : ProcM PUnit :=
  updateFile f fun f => { f with count := count }

/-! ### `close` -/

/-- `sys_close` of a descriptor in range. -/
def closeFd (fd : Fin nrOpen) : ProcM ℤ := do
  clearCloseOnExec me fd
  match (← getTask me).filp fd with
  | none => return -einval
  | some f =>
    setFilp me fd none
    let file := (← get).file f
    if file.count = 0 then
      throw (.panic "Close: file count is 0")
    else
      setCount f (file.count - 1)
      if file.count - 1 ≠ 0 then
        return 0
      else
        liftFs (iput rd file.inode)
        return 0

def sysClose (fd : Word) : ProcM ℤ :=
  if h : fd.toNat < nrOpen then closeFd rd me ⟨fd.toNat, h⟩ else return -einval

/-! ### `open` -/

/-- The first descriptor from `arg` on that is not in use. -/
def freeFd (t : Task) (arg : ℕ) : Option (Fin nrOpen) :=
  (List.finRange nrOpen).find? fun fd => arg ≤ fd.1 ∧ t.filp fd = none

/-- The first place of the file table that is not in use. -/
def freeFile (file : Fin nrFile → File) : Option (Fin nrFile) :=
  (List.finRange nrFile).find? fun f => (file f).count = 0

/-- `MAJOR(inode->i_zone[0])` and `MINOR(inode->i_zone[0])` -/
def major (n : MInode) : BitVec 16 := n.zone 0 >>> 8
def minor (n : MInode) : Word := (n.zone 0 &&& 0xff).setWidth 32

/-- What opening a character device does; false if it is the terminal of a
task that has none. -/
def openChr (n : MInode) : ProcM Bool := do
  let cur ← getTask me
  if !isChr n.mode then
    return true
  else if major n = 4 then
    if cur.leader ≠ 0 ∧ cur.tty.toInt < 0 then
      updateTask me fun t => { t with tty := minor n }
      updateTty (minor n) fun tty => { tty with pgrp := cur.pgrp }
    return true
  else
    return !(major n = 5 ∧ cur.tty.toInt < 0)

/-- What opening a block device does. -/
def openBlk (n : MInode) : ProcM PUnit :=
  if isBlk n.mode then liftFs (checkDiskChange rootDev (n.zone 0)) else return ()

def sysOpen (filename flag mode : Word) : ProcM ℤ := do
  let cur ← getTask me
  let mode := mode &&& 0o777 &&& ~~~cur.umask.setWidth 32
  match freeFd cur 0 with
  | none => return -einval
  | some fd =>
    clearCloseOnExec me fd
    match freeFile (← get).file with
    | none => return -einval
    | some f =>
      setFilp me fd (some f)
      updateFile f fun f => { f with count := f.count + 1 }
      match ← liftFs (openNamei rd cur.current filename flag mode) with
      | .error e =>
        setFilp me fd none
        setCount f 0
        return e
      | .ok ip =>
        let n := (← get).fs.inode ip
        if !(← openChr me n) then
          liftFs (iput rd (some ip))
          setFilp me fd none
          setCount f 0
          return -eperm
        else
          openBlk rootDev n
          let mode := ((← get).fs.inode ip).mode
          updateFile f fun _ => ⟨mode, flag.setWidth 16, 1, some ip, 0⟩
          return fd.1

def sysCreat (pathname mode : Word) : ProcM ℤ :=
  sysOpen rd rootDev me pathname (oCreat ||| oTrunc) mode

/-! ### `chdir` and `chroot` -/

/-- The directory of a path; an error number if there is none. -/
def directory (cur : Current) (filename : Word) : FsM (Except ℤ Ino) := do
  match ← namei rd cur filename with
  | none => return .error (-enoent)
  | some ip =>
    if !isDir (← readInodeTable ip).mode then
      iput rd (some ip)
      return .error (-enotdir)
    else
      return .ok ip

def sysChdir (filename : Word) : ProcM ℤ := do
  let cur ← getTask me
  match ← liftFs (directory rd cur.current filename) with
  | .error e => return e
  | .ok ip =>
    liftFs (iput rd cur.pwd)
    updateTask me fun t => { t with pwd := some ip }
    return 0

def sysChroot (filename : Word) : ProcM ℤ := do
  let cur ← getTask me
  match ← liftFs (directory rd cur.current filename) with
  | .error e => return e
  | .ok ip =>
    liftFs (iput rd cur.root)
    updateTask me fun t => { t with root := some ip }
    return 0

/-! ### `dup` and `fcntl` -/

def dupfd (fd arg : Word) : ProcM ℤ := do
  let cur ← getTask me
  match if h : fd.toNat < nrOpen then cur.filp ⟨fd.toNat, h⟩ else none with
  | none => return -ebadf
  | some f =>
    if nrOpen ≤ arg.toNat then
      return -einval
    else
      match freeFd cur arg.toNat with
      | none => return -emfile
      | some new =>
        clearCloseOnExec me new
        setFilp me new (some f)
        updateFile f fun f => { f with count := f.count + 1 }
        return new.1

def sysDup2 (oldfd newfd : Word) : ProcM ℤ := do
  let _ ← sysClose rd me newfd
  dupfd me oldfd newfd

def sysDup (fildes : Word) : ProcM ℤ := dupfd me fildes 0

/-- `O_APPEND | O_NONBLOCK` -/
def oSettable : BitVec 16 := 0o6000

def sysFcntl (fd cmd arg : Word) : ProcM ℤ := do
  let cur ← getTask me
  if h : fd.toNat < nrOpen then
    let i : Fin nrOpen := ⟨fd.toNat, h⟩
    match cur.filp i with
    | none => return -ebadf
    | some f =>
      if cmd = 0 then
        dupfd me fd arg
      else if cmd = 1 then
        return ((cur.closeOnExec >>> i.1) &&& 1).toInt
      else if cmd = 2 then
        if arg &&& 1 ≠ 0 then
          updateTask me fun t => { t with closeOnExec := t.closeOnExec ||| fdBit i }
        else
          clearCloseOnExec me i
        return 0
      else if cmd = 3 then
        return ((← get).file f).flags.toNat
      else if cmd = 4 then
        updateFile f fun f => { f with
          flags := (f.flags &&& ~~~oSettable) ||| (arg.setWidth 16 &&& oSettable) }
        return 0
      else
        return -1
  else
    return -ebadf

/-! ### `pipe` -/

/-- The first two elements of a list that have a property. -/
def firstTwo {α : Type} (p : α → Bool) (l : List α) : List α := (l.filter p).take 2

def sysPipe (fildes : Word) : ProcM ℤ := do
  let k ← get
  match firstTwo (fun f => (k.file f).count = 0) (List.finRange nrFile) with
  | [f₀, f₁] =>
    updateFile f₀ fun f => { f with count := f.count + 1 }
    updateFile f₁ fun f => { f with count := f.count + 1 }
    let cur ← getTask me
    match firstTwo (fun fd => cur.filp fd = none) (List.finRange nrOpen) with
    | [fd₀, fd₁] =>
      setFilp me fd₀ (some f₀)
      setFilp me fd₁ (some f₁)
      match ← liftFs (getPipeInode rd) with
      | none =>
        setFilp me fd₀ none
        setFilp me fd₁ none
        setCount f₀ 0
        setCount f₁ 0
        return -1
      | some ip =>
        updateFile f₀ fun f => { f with inode := some ip, pos := 0, mode := 1 }
        updateFile f₁ fun f => { f with inode := some ip, pos := 0, mode := 2 }
        liftMm (Mm.putFsLong (.ofNat 32 fd₀) cur.pgdir fildes)
        liftMm (Mm.putFsLong (.ofNat 32 fd₁) cur.pgdir (fildes + 4))
        return 0
    | _ =>
      -- a single free descriptor is set and cleared again
      setCount f₀ 0
      setCount f₁ 0
      return -1
  | _ =>
    -- a single free place is taken and given back
    return -1

end LinuxRv.Proc
