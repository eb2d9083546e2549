import LinuxRv.Lib.Ring
import LinuxRv.Proc.ReadWrite
import Mathlib.Data.List.ReduceOption

/-!
A pipe between processes (`read_pipe` and `write_pipe` of `fs/pipe.c`, the
pipe branch of `iput`, `sleep_on` and `wake_up` of `kernel/sched.c`).

A process in the kernel is not preempted: it runs until it returns to user
mode, sleeps or dies, so that a step of the system is all a process does up to
then. The state has the inode with `i_wait`, the page at `i_size`, who holds
which end and where each process is. `accepted` and `taken` are not in the
source: they list the bytes that were copied into and out of the page.
-/

namespace LinuxRv.Pipe

open ByteMemory Minix Proc Function

/-! ### State -/

/-- The two open files of a pipe. -/
inductive End
  | reads
  | writes
  deriving DecidableEq

/-- A call of `read_pipe` or `write_pipe` on its way: the bytes it still has
to move and those it has moved, and what `get_fs_byte` or `put_fs_byte` gives
at each place of its buffer, `none` where the process dies of it. `bytes` is
not in the source. -/
structure Call (β : Type) where
  count : ℕ
  moved : ℕ
  buf : ℕ → Option β
  bytes : List Byte

def Call.start {β : Type} (count : ℕ) (buf : ℕ → Option β) : Call β := ⟨count, 0, buf, []⟩

/-- `count -= chars; read += chars` -/
def Call.advance {β : Type} (c : Call β) (chars : ℕ) (bytes : List Byte) : Call β :=
  { c with count := c.count - chars, moved := c.moved + chars, bytes := c.bytes ++ bytes }

/-- Where a process is: between calls, inside `sleep_on` with its `tmp`, or
gone. -/
inductive Place (ι : Type)
  | user
  | reading (c : Call Unit) (tmp : Option ι)
  | writing (c : Call Byte) (tmp : Option ι)
  | dead

/-- A value returned, with the bytes the call moved. -/
structure Result where
  value : ℤ
  bytes : List Byte

structure Sys (ι : Type) where
  inode : MInode
  page : ℕ → Byte
  /-- `i_wait` -/
  wait : Option ι
  /-- `state == TASK_UNINTERRUPTIBLE` -/
  asleep : ι → Bool
  signal : ι → Word
  holders : End → Finset ι
  place : ι → Place ι
  accepted : List Byte
  taken : List Byte
  results : List Result

/-! ### Operations -/

variable {ι : Type} [DecidableEq ι]

namespace Sys

/-- `if (p) p->state = 0` -/
def wake (s : Sys ι) (tmp : Option ι) : Sys ι :=
  { s with
    asleep := match tmp with
      | none => s.asleep
      | some p => update s.asleep p false }

/-- `wake_up(&inode->i_wait)` -/
def wakeUp (s : Sys ι) : Sys ι := { s.wake s.wait with wait := none }

/-- `sleep_on(&inode->i_wait)` up to `schedule()` -/
def sleepOn (s : Sys ι) (me : ι) (place : Option ι → Place ι) : Sys ι :=
  { s with
    wait := some me
    asleep := update s.asleep me true
    place := update s.place me (place s.wait) }

/-- The return to user mode. -/
def ret (s : Sys ι) (me : ι) (value : ℤ) (bytes : List Byte) : Sys ι :=
  { s with
    place := update s.place me .user
    results := s.results ++ [⟨value, bytes⟩] }

/-- `iput` of a pipe -/
def iput (s : Sys ι) : Sys ι :=
  let s := s.wakeUp
  let n : MInode := { s.inode with count := s.inode.count - 1 }
  if n.count ≠ 0 then { s with inode := n }
  else { s with inode := { n with dirt := false, pipe := false } }

/-- `sys_close` of an end, which calls `iput` for the last process that has it. -/
def close (s : Sys ι) (me : ι) (e : End) : Sys ι :=
  if me ∈ s.holders e then
    let s := { s with holders := update s.holders e ((s.holders e).erase me) }
    if s.holders e = ∅ then s.iput else s
  else s

/-- `do_exit` -/
def exit (s : Sys ι) (me : ι) : Sys ι :=
  let s := (s.close me .reads).close me .writes
  { s with place := update s.place me .dead }

/-- `fork`: the child has the open files of its parent. -/
def fork (s : Sys ι) (me child : ι) : Sys ι :=
  { s with
    holders := fun e => if me ∈ s.holders e then insert child (s.holders e) else s.holders e
    place := update s.place child .user }

end Sys

/-- `PIPE_HEAD += chars` or `PIPE_TAIL += chars`, and `&= PAGE_SIZE-1` -/
def advance (n : MInode) (z : Fin 9) (chars : ℕ) : MInode :=
  { n with zone := update n.zone z ((n.zone z + .ofNat 16 chars) &&& 0xfff) }

/-- `while (chars-->0)`: the bytes copied, up to a place that kills. -/
def copyLoop (byte : ℕ → Option Byte) (chars : ℕ) : List Byte :=
  (((List.range chars).map byte).takeWhile Option.isSome).reduceOption

namespace Sys

/-- `chars` of a round of `read_pipe` -/
def readChars (s : Sys ι) (c : Call Unit) : ℕ :=
  min (min (4096 - pipeTail s.inode) c.count) (pipeSize s.inode)

def readBytes (s : Sys ι) (c : Call Unit) : List Byte :=
  copyLoop (fun o => (c.buf (c.moved + o)).map fun _ => s.page (pipeTail s.inode + o))
    (s.readChars c)

/-- The tail is moved, then the bytes are copied. -/
def takeChunk (s : Sys ι) (c : Call Unit) : Sys ι :=
  { s with
    inode := advance s.inode 1 (s.readChars c)
    taken := s.taken ++ s.readBytes c }

/-- `read_pipe` until it returns, sleeps or dies, with at most `fuel` rounds. -/
def readPipe (me : ι) : ℕ → Call Unit → Sys ι → Sys ι
  | 0, c, s => s.wakeUp.ret me c.moved c.bytes
  | fuel + 1, c, s =>
    if c.count = 0 then
      s.wakeUp.ret me c.moved c.bytes
    else if pipeSize s.inode = 0 then
      if s.inode.count ≠ 2 then s.wakeUp.ret me c.moved c.bytes
      else s.wakeUp.sleepOn me (.reading c)
    else if (s.readBytes c).length < s.readChars c then
      (s.takeChunk c).exit me
    else
      readPipe me fuel (c.advance (s.readChars c) (s.readBytes c)) (s.takeChunk c)

/-- `chars` of a round of `write_pipe` -/
def writeChars (s : Sys ι) (c : Call Byte) : ℕ :=
  min (min (4096 - pipeHead s.inode) c.count) (4095 - pipeSize s.inode)

def writeBytes (s : Sys ι) (c : Call Byte) : List Byte :=
  copyLoop (fun o => c.buf (c.moved + o)) (s.writeChars c)

/-- The head is moved, then the bytes are copied. -/
def acceptChunk (s : Sys ι) (c : Call Byte) : Sys ι :=
  { s with
    inode := advance s.inode 0 (s.writeChars c)
    page := Ring.store s.page (pipeHead s.inode) (s.writeBytes c)
    accepted := s.accepted ++ s.writeBytes c }

/-- `write_pipe` until it returns, sleeps or dies, with at most `fuel` rounds. -/
def writePipe (me : ι) : ℕ → Call Byte → Sys ι → Sys ι
  | 0, c, s => s.wakeUp.ret me c.moved c.bytes
  | fuel + 1, c, s =>
    if c.count = 0 then
      s.wakeUp.ret me c.moved c.bytes
    else if 4095 - pipeSize s.inode = 0 then
      if s.inode.count ≠ 2 then
        let s := s.wakeUp
        let s := { s with signal := update s.signal me (s.signal me ||| sigPipe) }
        s.ret me (if c.moved = 0 then -1 else c.moved) c.bytes
      else s.wakeUp.sleepOn me (.writing c)
    else if (s.writeBytes c).length < s.writeChars c then
      (s.acceptChunk c).exit me
    else
      writePipe me fuel (c.advance (s.writeChars c) (s.writeBytes c)) (s.acceptChunk c)

end Sys

/-! ### Steps -/

/-- What a process does next. -/
inductive Event (ι : Type)
  | read (me : ι) (count : ℕ) (buf : ℕ → Option Unit)
  | write (me : ι) (count : ℕ) (buf : ℕ → Option Byte)
  | resume (me : ι)
  | close (me : ι) (e : End)
  | exit (me : ι)
  | fork (me child : ι)

/-- Between two calls. -/
def Place.isUser : Place ι → Bool
  | .user => true
  | _ => false

def Place.isDead : Place ι → Bool
  | .dead => true
  | _ => false

namespace Sys

/-- A process can only use an end it has, and only resumes when it is
runnable. -/
def Enabled (s : Sys ι) : Event ι → Prop
  | .read me _ _ => (s.place me).isUser ∧ me ∈ s.holders .reads
  | .write me _ _ => (s.place me).isUser ∧ me ∈ s.holders .writes
  | .resume me => !(s.place me).isUser ∧ !(s.place me).isDead ∧ !s.asleep me
  | .close me e => (s.place me).isUser ∧ me ∈ s.holders e
  | .exit me => (s.place me).isUser
  | .fork me child => (s.place me).isUser ∧ (s.place child).isDead

instance (s : Sys ι) : DecidablePred s.Enabled
  | .read .. | .write .. | .resume .. | .close .. | .exit .. | .fork .. => by
    unfold Enabled; infer_instance

/-- `sleep_on` after `schedule()`, and the call goes on. -/
def resume (s : Sys ι) (me : ι) : Sys ι :=
  match s.place me with
  | .reading c tmp => (s.wake tmp).readPipe me c.count c
  | .writing c tmp => (s.wake tmp).writePipe me c.count c
  | _ => s

def step (s : Sys ι) : Event ι → Sys ι
  | .read me count buf => s.readPipe me count (.start count buf)
  | .write me count buf => s.writePipe me count (.start count buf)
  | .resume me => s.resume me
  | .close me e => s.close me e
  | .exit me => s.exit me
  | .fork me child => s.fork me child

/-- The states that events of `ok` lead to. -/
inductive Reach (ok : Event ι → Prop) (s₀ : Sys ι) : Sys ι → Prop
  | start : Reach ok s₀ s₀
  | step {s : Sys ι} (ev : Event ι) :
    Reach ok s₀ s → s.Enabled ev → ok ev → Reach ok s₀ (s.step ev)

end Sys

end LinuxRv.Pipe
