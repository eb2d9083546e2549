import LinuxRv.Mm.FrameCount

/-!
Processes over the memory manager.

User code runs translated: a load or store goes through the page tables the way
the hart walks them (Sv32), and what it cannot translate traps. A store page
fault (cause 15) is handled by `page_fault_handler`, and the instruction is
executed again. `trap_handler` sends a load page fault (cause 13) to
`exception_trap`, which ends the task, as it does for access faults.

`fork` is the part of `copy_process` that is about memory, `exit` that of
`do_exit`. The slot of a task is found by `find_empty_process`; its structure
is a page of its own.
-/

namespace LinuxRv.Mm

open ByteMemory Prog

/-! ### Sv32 -/

inductive AccessKind
  | load
  | store
  deriving DecidableEq

inductive Fault
  | page
  | access
  deriving DecidableEq

/-- Not valid, or writable and not readable, which is reserved. -/
def isInvalid (pte : Word) : Bool := pte &&& pteV = 0 ∨ (pte &&& pteR = 0 ∧ pte &&& pteW ≠ 0)

def isLeaf (pte : Word) : Bool := pte &&& (pteR ||| pteX) ≠ 0

/-- Whether a user-mode access may use the leaf; `A` and `D` are not set by the
hart. -/
def permits (pte : Word) : AccessKind → Bool
  | .load => pte &&& pteU ≠ 0 ∧ pte &&& pteR ≠ 0 ∧ pte &&& pteA ≠ 0
  | .store => pte &&& pteU ≠ 0 ∧ pte &&& pteW ≠ 0 ∧ pte &&& pteA ≠ 0 ∧ pte &&& pteD ≠ 0

/-- Physical addresses have 34 bits, and there is nothing above `2 ^ 32`. -/
def physPage (pte : Word) : Except Fault Word :=
  if pte &&& pteHigh = 0 then .ok (ptePhys pte) else .error .access

/-- The physical address of a user-mode access with `satp` pointing to `root`. -/
def walk (μ : Mem) (root : Word) (kind : AccessKind) (va : Word) : Except Fault Word :=
  let dir := word μ root (dirIndex va)
  if isInvalid dir then .error .page
  else if isLeaf dir then
    -- a leaf in the directory maps four megabytes, which must be aligned
    if permits dir kind ∧ dir &&& 0xffc00 = 0 then
      (physPage dir).map (· ||| (va &&& 0x3fffff))
    else .error .page
  else
    (physPage dir).bind fun table =>
      let pte := word μ table (tableIndex va)
      if isInvalid pte ∨ ¬ isLeaf pte ∨ ¬ permits pte kind then .error .page
      else (physPage pte).map (· + .ofNat 32 (pageOffset va))

/-! ### State -/

@[ext] structure Sys where
  mm : State
  /-- `task[nr]`: the page of the task's structure. -/
  task : Fin nrTasks → Option Word
  /-- `task[nr]->pgdir`, `none` for 0. -/
  pgdir : Fin nrTasks → Option Word

abbrev SysM := EStateM Halt Sys

namespace Sys

def setMm (s : Sys) (mm : State) : Sys := { s with mm := mm }

def setTask (s : Sys) (nr : Fin nrTasks) (o : Option Word) : Sys :=
  { s with task := Function.update s.task nr o }

def setPgdir (s : Sys) (nr : Fin nrTasks) (o : Option Word) : Sys :=
  { s with pgdir := Function.update s.pgdir nr o }

def taken (s : Sys) (nr : Fin nrTasks) : Bool := (s.task nr).isSome

end Sys

/-- A procedure of the memory manager. -/
def kernel {α : Type} (c : M α) : SysM α := fun s =>
  match c s.mm with
  | .ok a mm => .ok a (s.setMm mm)
  | .error e mm => .error e (s.setMm mm)

/-- `do_exit` of task `nr`, as far as it is about memory. -/
def doExit (nr : Fin nrTasks) : SysM PUnit := do
  let s ← get
  kernel (freePageTables ((s.pgdir nr).getD 0))
  modify fun s => s.setPgdir nr none

/-- `do_exit(11)`: the task has taken a fault that is not handled. -/
def kill (nr : Fin nrTasks) : SysM Output := do
  doExit nr
  return .killed

/-- Code run for task `nr`, which a call of `do_exit` ends. -/
def orExit (nr : Fin nrTasks) (c : SysM Output) : SysM Output := fun s =>
  match c s with
  | .error (.exit _) s' => kill nr s'
  | r => r

/-! ### Events -/

/-- Whether an entry for `address` is valid, which `execve` asks of no page
twice. -/
def isMapped (pgdir address : Word) : M Bool := do
  match ← pteLookup pgdir address with
  | none => return false
  | some (t, j) => return decide ((← readWord t j) &&& pteV ≠ 0)

/-- `kernel_thread`, then `execve` up to the cleared directory. -/
def spawn : SysM Output := do
  match findEmptyProcess (← get).taken with
  | none => return .again
  | some nr =>
    let p ← kernel getFreePage
    if p = 0 then
      return .again
    else
      modify fun s => s.setTask nr (some p)
      let newPgdir ← kernel getFreePage
      if newPgdir = 0 then
        return .again
      else
        kernel (fillPage newPgdir fun _ => 0)
        modify fun s => s.setPgdir nr (some newPgdir)
        return .task nr

/-- One iteration of `load_segment`. -/
def loadPage (nr : Fin nrTasks) (address : Word) (bytes : ℕ → Byte) : SysM Output := do
  match (← get).pgdir nr with
  | none => return .ignored
  | some pgdir =>
    if ← kernel (isMapped pgdir address) then
      return .ignored
    else
      let page ← kernel getFreePage
      if page = 0 then
        return .again
      else
        kernel (fillPage page bytes)
        let r ← kernel (putPagePgdir pgdir page address)
        if r = 0 then
          kernel (freePage page)
          return .ignored
        else
          return .done

def load (nr : Fin nrTasks) (acc : Access) : SysM Output := do
  let s ← get
  match s.pgdir nr with
  | none => return .ignored
  | some pgdir =>
    match walk s.mm.mem pgdir .load acc.address with
    | .ok pa => return .bytes (List.ofFn fun k : Fin acc.len => s.mm.mem (pa + .ofNat 32 k))
    | .error _ => kill nr

/-- The store proper, at a physical address. -/
def writeBytes (pa : Word) (len : ℕ) (bytes : ℕ → Byte) : M PUnit :=
  modify fun s => s.setMem (fillN len s.mem pa bytes)

def store (nr : Fin nrTasks) (acc : Access) (bytes : ℕ → Byte) : SysM Output := do
  let s ← get
  match s.pgdir nr with
  | none => return .ignored
  | some pgdir =>
    match walk s.mm.mem pgdir .store acc.address with
    | .ok pa =>
      kernel (writeBytes pa acc.len bytes)
      return .done
    | .error .access => kill nr
    | .error .page => orExit nr do
        kernel (pageFaultHandler true pgdir acc.address)
        match walk (← get).mm.mem pgdir .store acc.address with
        | .ok pa =>
          kernel (writeBytes pa acc.len bytes)
          return .done
        | .error _ => return .refaulted

def fork (nr : Fin nrTasks) : SysM Output := do
  match (← get).pgdir nr with
  | none => return .ignored
  | some pgdir =>
    match findEmptyProcess (← get).taken with
    | none => return .again
    | some child =>
      let p ← kernel getFreePage
      if p = 0 then
        return .again
      else
        modify fun s => s.setTask child (some p)
        let newPgdir ← kernel getFreePage
        if newPgdir = 0 then
          modify fun s => s.setTask child none
          kernel (freePage p)
          return .again
        else
          kernel (fillPage newPgdir fun _ => 0)
          modify fun s => s.setPgdir child (some newPgdir)
          let r ← kernel (copyPageTables pgdir newPgdir)
          if r ≠ 0 then
            modify fun s => (s.setTask child none).setPgdir child none
            kernel (freePage newPgdir)
            kernel (freePage p)
            return .again
          else
            return .task child

def exit (nr : Fin nrTasks) : SysM Output := do
  match (← get).pgdir nr with
  | none => return .ignored
  | some _ =>
    doExit nr
    return .done

def release (nr : Fin nrTasks) : SysM Output := do
  match (← get).task nr, (← get).pgdir nr with
  | some p, none =>
    modify fun s => s.setTask nr none
    kernel (freePage p)
    return .done
  | _, _ => return .ignored

def kernelWrite (nr : Fin nrTasks) (bytes : ℕ → Byte) : SysM Output := do
  match (← get).task nr with
  | none => return .done
  | some p =>
    kernel (fillPage p bytes)
    return .done

def Event.run : Event → SysM Output
  | .spawn => Mm.spawn
  | .loadPage nr address bytes => Mm.loadPage nr address bytes
  | .load nr acc => Mm.load nr acc
  | .store nr acc bytes => Mm.store nr acc bytes
  | .fork nr => Mm.fork nr
  | .exit nr => Mm.exit nr
  | .release nr => Mm.release nr
  | .kernelWrite nr bytes => Mm.kernelWrite nr bytes

/-! ### Runs -/

/-- The system after `mem_init`, without tasks. -/
def Sys.boot (main : MainMemory) (μ : Mem) : Sys where
  mm := match memInit main.startMem main.endMem ⟨μ, fun _ => 0, false⟩ with
    | .ok _ s => s
    | .error _ s => s
  task := fun _ => none
  pgdir := fun _ => none

/-- The outputs of a sequence of events, up to the event in which `get_free_page`
fails for the first time. -/
def Sys.run (s : Sys) : List Event → List Output × Sys
  | [] => ([], s)
  | e :: es =>
    match e.run s with
    | .ok o s' =>
      if s'.mm.exhausted then ([], s')
      else (o :: (Sys.run s' es).1, (Sys.run s' es).2)
    | .error _ s' => ([.panicked], s')

end LinuxRv.Mm
