import LinuxRv.Minix.NameiCalls
import LinuxRv.Mm.FreeFrames

/-!
Tasks and open files (`kernel/fork.c`, `kernel/exit.c`, and `sys_close` of
`fs/open.c`).

The bytes of a task's page are kept as a record; the page itself is a frame of
main memory. `me` is the slot of `current`. Waiting is not modelled: a call
that would sleep ends in `Halt.hang`.
-/

namespace LinuxRv.Proc

open ByteMemory Prog Fs Minix Function
open Mm (nrTasks)

/-- `NR_OPEN` -/
abbrev nrOpen : ℕ := 20
/-- `NR_FILE` -/
abbrev nrFile : ℕ := 64

abbrev Slot := Fin nrTasks

/-! ### State -/

inductive TaskState
  | running
  | interruptible
  | uninterruptible
  | zombie
  | stopped
  deriving DecidableEq

/-- `struct sigaction` -/
structure Sigaction where
  handler : Word
  mask : Word
  flags : Word
  restorer : Word

/-- `struct task_struct` and the trap frame at the end of its page. -/
structure Task where
  /-- The page of the task. -/
  page : Word
  /-- `kctx.ra` and `kctx.sp` -/
  ra : Word
  sp : Word
  pgdir : Word
  state : TaskState
  counter : Word
  priority : Word
  signal : Word
  sigaction : Fin 32 → Sigaction
  blocked : Word
  exitCode : Word
  startCode : Word
  endCode : Word
  endData : Word
  brk : Word
  startStack : Word
  pid : Word
  father : Word
  pgrp : Word
  session : Word
  leader : Word
  uid : BitVec 16
  euid : BitVec 16
  gid : BitVec 16
  egid : BitVec 16
  sgid : BitVec 16
  alarm : Word
  utime : Word
  stime : Word
  cutime : Word
  cstime : Word
  startTime : Word
  /-- A signed number, -1 for none. -/
  tty : Word
  umask : BitVec 16
  pwd : Option Ino
  root : Option Ino
  executable : Option Ino
  closeOnExec : Word
  filp : Fin nrOpen → Option (Fin nrFile)
  /-- The trap frame, by words. -/
  tf : Fin 100 → Word

/-- `struct file` -/
structure File where
  mode : BitVec 16
  flags : BitVec 16
  count : BitVec 16
  inode : Option Ino
  pos : Word

/-- `struct tty_struct`; of the queues only how many characters are to be sent
and how many can be read. -/
structure Tty where
  pgrp : Word
  termios : Fin 36 → Byte
  outQ : Word
  inQ : Word

structure Kernel where
  fs : Fs
  task : Slot → Option Task
  file : Fin nrFile → File
  lastPid : Word
  jiffies : Word
  /-- `tty_table` -/
  tty : Word → Tty

abbrev ProcM := EStateM Minix.Halt Kernel

def Kernel.setFs (k : Kernel) (fs : Fs) : Kernel := { k with fs := fs }

def Kernel.setTask (k : Kernel) (nr : Slot) (o : Option Task) : Kernel :=
  { k with task := update k.task nr o }

def Kernel.setFile (k : Kernel) (i : Fin nrFile) (f : File) : Kernel :=
  { k with file := update k.file i f }

/-- A procedure of the file system. -/
def liftFs {α : Type} (c : FsM α) : ProcM α := fun k =>
  match c k.fs with
  | .ok a fs => .ok a (k.setFs fs)
  | .error e fs => .error e (k.setFs fs)

/-- A procedure of the memory manager. -/
def liftMm {α : Type} (c : Mm.M α) : ProcM α := liftFs (Minix.liftMm c)

def getTask (nr : Slot) : ProcM Task := do
  match (← get).task nr with
  | none => throw nullPointer
  | some t => return t

def updateTask (nr : Slot) (f : Task → Task) : ProcM PUnit :=
  modify fun k => k.setTask nr ((k.task nr).map f)

def updateTty (tty : Word) (f : Tty → Tty) : ProcM PUnit :=
  modify fun k => { k with tty := update k.tty tty (f (k.tty tty)) }

def updateFile (i : Fin nrFile) (f : File → File) : ProcM PUnit :=
  modify fun k => k.setFile i (f (k.file i))

/-- `inode->i_count++` of a pointer that may be null. -/
def countUp : Option Ino → ProcM PUnit
  | none => return ()
  | some ip => liftFs (updateInode ip fun n => { n with count := n.count + 1 })

def einval : ℤ := 22
def eagain : ℤ := 11
def echild : ℤ := 10
def ebadf : ℤ := 9

/-! ### `fork` -/

/-- `if ((++last_pid)<0) last_pid=1` -/
def nextPid (p : Word) : Word := if (p + 1).toInt < 0 then 1 else p + 1

/-- The first loop of `find_empty_process`. -/
def freshPid (used : Word → Bool) : ℕ → Word → Option Word
  | 0, _ => none
  | n + 1, p => if used (nextPid p) then freshPid used n (nextPid p) else some (nextPid p)

def Kernel.pidUsed (k : Kernel) (pid : Word) : Bool :=
  (List.finRange nrTasks).any fun i => (k.task i).any fun t => t.pid = pid

def Kernel.taken (k : Kernel) (nr : Slot) : Bool := (k.task nr).isSome

def findEmptyProcess : ProcM (Option Slot) := do
  let k ← get
  match freshPid k.pidUsed (nrTasks + 1) k.lastPid with
  | none => throw .hang
  | some pid =>
    set { k with lastPid := pid }
    return Mm.findEmptyProcess k.taken

/-- `a0` and `from_user` in a trap frame. -/
def tfA0 : Fin 100 := 11
def tfFromUser : Fin 100 := 34

/-- The end of `copy_process`, when nothing can fail any more. -/
def shareFiles (nr : Slot) (cur : Task) : ProcM PUnit := do
  forN nrOpen fun i =>
    match cur.filp i with
    | none => return ()
    | some f => updateFile f fun f => { f with count := f.count + 1 }
  countUp cur.pwd
  countUp cur.root
  countUp cur.executable
  updateTask nr fun t => { t with state := .running }

/-- `copy_process`, with the address of `ret_from_trap`. -/
def copyProcess (retFromTrap : Word) (me nr : Slot) : ProcM ℤ := do
  let p ← liftMm Mm.getFreePage
  if p = 0 then
    return -eagain
  else
    let cur ← getTask me
    let k ← get
    set (k.setTask nr (some { cur with
      page := p
      state := .uninterruptible
      pid := k.lastPid
      father := cur.pid
      counter := cur.priority
      signal := 0
      alarm := 0
      leader := 0
      utime := 0
      stime := 0
      cutime := 0
      cstime := 0
      startTime := k.jiffies }))
    if cur.pgdir = 0 then
      throw (.panic "fork from kernel task")
    else
      let newPgdir ← liftMm Mm.getFreePage
      if newPgdir = 0 then
        modify fun k => k.setTask nr none
        liftMm (Mm.freePage p)
        return -eagain
      else
        liftMm (Mm.fillPage newPgdir fun _ => 0)
        updateTask nr fun t => { t with
          pgdir := newPgdir
          tf := update (update cur.tf tfA0 0) tfFromUser 1
          ra := retFromTrap
          sp := p + 4096 - 400 }
        let r ← liftMm (Mm.copyPageTables cur.pgdir newPgdir)
        if r ≠ 0 then
          modify fun k => k.setTask nr none
          liftMm (Mm.freePage newPgdir)
          liftMm (Mm.freePage p)
          return -eagain
        else
          shareFiles nr cur
          return (← get).lastPid.toInt

/-- `kernel_thread` -/
def kernelThread (fn : Word) (me : Slot) : ProcM ℤ := do
  match ← findEmptyProcess with
  | none => return -eagain
  | some nr =>
    let p ← liftMm Mm.getFreePage
    if p = 0 then
      return -eagain
    else
      let cur ← getTask me
      modify fun k => k.setTask nr (some { cur with
        page := p
        state := .uninterruptible
        pid := k.lastPid
        father := cur.pid
        counter := cur.priority
        signal := 0
        alarm := 0
        leader := 0
        utime := 0
        stime := 0
        cutime := 0
        cstime := 0
        startTime := k.jiffies
        pgdir := 0
        ra := fn
        sp := p + 4096 })
      shareFiles nr cur
      return (← get).lastPid.toInt

def sysFork (retFromTrap : Word) (me : Slot) : ProcM ℤ := do
  match ← findEmptyProcess with
  | none => return -eagain
  | some nr => copyProcess retFromTrap me nr

end LinuxRv.Proc
