import LinuxRv.Proc.Files

/-!
The end of a task (`kernel/exit.c`).

`schedule` is left out: a call is one step, and a call that would sleep ends
in `Halt.hang`.
-/

namespace LinuxRv.Proc

open ByteMemory Prog Fs Minix
open Mm (nrTasks)

variable (rd : RamDisk) (me : Slot)

/-- `1<<(SIGHUP-1)` and `1<<(SIGCHLD-1)` -/
def sigHup : Word := 1 <<< 0
def sigChld : Word := 1 <<< 16

def addSignal (nr : Slot) (bit : Word) : ProcM PUnit :=
  updateTask nr fun t => { t with signal := t.signal ||| bit }

def release (nr : Slot) : ProcM PUnit := do
  let p ← getTask nr
  if nr = 0 then
    throw (.panic "trying to release non-existent task")
  else
    modify fun k => k.setTask nr none
    liftMm (Mm.freePage p.page)

/-- Slots from the last one down to 1. -/
def fromLast : List Slot := ((List.finRange nrTasks).drop 1).reverse

def killSession : ProcM PUnit := do
  let cur ← getTask me
  forM fromLast fun i => do
    match (← get).task i with
    | none => return ()
    | some p => if p.session = cur.session then addSignal i sigHup

def tellFather (pid : Word) : ProcM PUnit := do
  let k ← get
  match (List.finRange nrTasks).find? fun i => pid ≠ 0 ∧ (k.task i).any fun t => t.pid = pid with
  | some i => addSignal i sigChld
  | none => release me

/-- The children of `current` go to task 1. -/
def orphan : ProcM PUnit := do
  let cur ← getTask me
  forN nrTasks fun i => do
    match (← get).task i with
    | none => return ()
    | some p =>
      if p.father = cur.pid then
        updateTask i fun t => { t with father := 1 }
        if p.state = .zombie then
          addSignal 1 sigChld

def closeAll : ProcM PUnit :=
  forN nrOpen fun fd => do
    if (← getTask me).filp fd ≠ none then
      discard (closeFd rd me fd)

/-- What a session leader leaves behind. -/
def leaveSession : ProcM PUnit := do
  let cur ← getTask me
  if cur.leader ≠ 0 then
    if 0 ≤ cur.tty.toInt then
      updateTty cur.tty fun tty => { tty with pgrp := 0 }
    killSession me

def doExit (code : Word) : ProcM PUnit := do
  liftMm (Mm.freePageTables (← getTask me).pgdir)
  updateTask me fun t => { t with pgdir := 0 }
  orphan me
  closeAll rd me
  liftFs (iput rd (← getTask me).pwd)
  updateTask me fun t => { t with pwd := none }
  liftFs (iput rd (← getTask me).root)
  updateTask me fun t => { t with root := none }
  liftFs (iput rd (← getTask me).executable)
  updateTask me fun t => { t with executable := none }
  leaveSession me
  updateTask me fun t => { t with state := .zombie, exitCode := code }
  tellFather me (← getTask me).father

def sysExit (errorCode : Word) : ProcM PUnit :=
  doExit rd me ((errorCode &&& 0xff) <<< 8)

/-! ### `waitpid` -/

def wnohang : Word := 1
def wuntraced : Word := 2

/-- Whether `waitpid(pid, …)` is about the task `p`. -/
def waitsFor (cur p : Task) (pid : Word) : Bool :=
  p.father = cur.pid ∧
    if 0 < pid.toInt then p.pid = pid
    else if pid = 0 then p.pgrp = cur.pgrp
    else pid = -1 ∨ p.pgrp = -pid

/-- One round of the loop of `sys_waitpid`: what it returns, or whether there
is a child to wait for. -/
def waitStep (pid statAddr options : Word) (i : Slot) : ProcM (ℤ ⊕ Bool) := do
  let cur ← getTask me
  match (← get).task i with
  | none => return .inr false
  | some p =>
    if i = me ∨ !waitsFor cur p pid then
      return .inr false
    else
      match p.state with
      | .stopped =>
        if options &&& wuntraced = 0 then
          return .inr false
        else
          liftMm (Mm.putFsLong 0x7f cur.pgdir statAddr)
          return .inl p.pid.toInt
      | .zombie =>
        updateTask me fun t => { t with
          cutime := t.cutime + p.utime
          cstime := t.cstime + p.stime }
        release i
        liftMm (Mm.putFsLong p.exitCode cur.pgdir statAddr)
        return .inl p.pid.toInt
      | _ => return .inr true

def waitLoop (me : Slot) (pid statAddr options : Word) : List Slot → Bool → ProcM ℤ
  | [], flag =>
    if flag then
      if options &&& wnohang ≠ 0 then return 0 else throw .hang
    else
      return -echild
  | i :: l, flag => do
      match ← waitStep me pid statAddr options i with
      | .inl ret => return ret
      | .inr more => waitLoop me pid statAddr options l (flag || more)

def sysWaitpid (pid statAddr options : Word) : ProcM ℤ := do
  liftMm (Mm.verifyArea (← getTask me).pgdir statAddr 4)
  waitLoop me pid statAddr options fromLast false

end LinuxRv.Proc
