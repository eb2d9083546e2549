import LinuxRv.Lib.ByteMemory
import LinuxRv.Lib.Prog

/-!
Physical pages and Sv32 page tables (`mm/memory.c`).

The kernel runs in machine mode without translation, so a page directory, a
page table and a page are all 4096 bytes of physical memory at an address, and
`unsigned long *` is an address indexed by words. `mem_map` counts the users of
each frame of RAM in an `unsigned char`.

Two calls do not come back: `panic`, and `do_exit`, which the fault paths call
when memory has run out. Both are stops of the procedure that makes them; the
part of `do_exit` that is about memory is `freePageTables` of the current
directory. `current->pgdir` is an argument of the functions that read it.
-/

namespace LinuxRv.Mm

open ByteMemory Prog

/-! ### Constants -/

def ramBase : Word := 0x80000000
def ramEnd : Word := 0x88000000
/-- `USER_LIMIT`, the top of the user address space. -/
def userLimit : Word := 0x80000000

/-- `PAGING_PAGES`: frames of RAM. -/
def pagingPages : ℕ := 32768
/-- `USER_PGD_ENTRIES`: directory entries below `USER_LIMIT`. -/
def userPgdEntries : ℕ := 512
/-- Entries of a directory or a table. -/
def ptrsPerPage : ℕ := 1024
/-- `USED`, the count of a frame that is never handed out. -/
def used : Byte := 100

def pteV : Word := 1
def pteR : Word := 2
def pteW : Word := 4
def pteX : Word := 8
def pteU : Word := 16
def pteA : Word := 64
def pteD : Word := 128

def pteUserRw : Word := pteV ||| pteR ||| pteW ||| pteU ||| pteA ||| pteD
def pteUserRwx : Word := pteV ||| pteR ||| pteW ||| pteX ||| pteU ||| pteA ||| pteD

/-- The page a page-table entry points to: `((pte >> 10) & 0x3fffff) << 12`. -/
@[irreducible] def ptePhys (pte : Word) : Word := ((pte >>> 10) &&& 0x3fffff) <<< 12

@[irreducible] def physPpn (phys : Word) : Word := (phys >>> 12) <<< 10

/-- `MAP_NR`: the index of an address in `mem_map`. -/
def mapNr (addr : Word) : ℕ := ((addr - ramBase) >>> 12).toNat

/-! ### State -/

structure State where
  mem : Mem
  memMap : ℕ → Byte
  /-- Not in the source: whether `get_free_page` has ever returned 0. -/
  exhausted : Bool

inductive Halt
  | panic (msg : String)
  | exit (code : ℕ)
  deriving DecidableEq, Repr

abbrev M := EStateM Halt State

def State.setMem (s : State) (μ : Mem) : State := { s with mem := μ }

def State.exhaust (s : State) : State := { s with exhausted := true }

def State.setCount (s : State) (n : ℕ) (c : Byte) : State :=
  { s with memMap := Function.update s.memMap n c }

/-- `((unsigned long *) p)[i]`. -/
def word (μ : Mem) (p : Word) (i : ℕ) : Word := load32 μ (p + .ofNat 32 (4 * i))

def setWord (μ : Mem) (p : Word) (i : ℕ) (v : Word) : Mem :=
  store32 μ (p + .ofNat 32 (4 * i)) v

def readWord (p : Word) (i : ℕ) : M Word := return word (← get).mem p i

def writeWord (p : Word) (i : ℕ) (v : Word) : M PUnit :=
  modify fun s => s.setMem (setWord s.mem p i v)

def readCount (n : ℕ) : M Byte := return (← get).memMap n

def writeCount (n : ℕ) (c : Byte) : M PUnit := modify fun s => s.setCount n c

/-! ### Frames -/

def zeroPage (page : Word) : M PUnit := forN ptrsPerPage fun i => writeWord page i 0

def copyPage (src dst : Word) : M PUnit :=
  forN ptrsPerPage fun i => do
    let v ← readWord src i
    writeWord dst i v

/-- `RAM_BASE + (i << 12)`. -/
def frame (n : ℕ) : Word := ramBase + .ofNat 32 (4096 * n)

def getFreePage : M Word := do
  let s ← get
  match (List.range pagingPages).find? fun i => s.memMap i = 0 with
  | none =>
    modify State.exhaust
    return 0
  | some i =>
    writeCount i 1
    zeroPage (frame i)
    return frame i

def freePage (addr : Word) : M PUnit := do
  if addr < ramBase then
    return ()
  if ramEnd ≤ addr then
    throw (.panic "trying to free nonexistent page")
  let c ← readCount (mapNr addr)
  if c = 0 then
    throw (.panic "trying to free free page")
  writeCount (mapNr addr) (c - 1)

def memInit (startMem endMem : Word) : M PUnit := do
  forN pagingPages fun i => writeCount i used
  let start := ((startMem - ramBase) >>> 12).toNat
  -- `end_mem` is a `long`: a negative length frees nothing
  let length := ((endMem - startMem).sshiftRight 12).toInt.toNat
  forN length fun k => writeCount (start + k) 0

/-! ### Page tables -/

/-- Index of an address in a directory and in a table. -/
def dirIndex (address : Word) : ℕ := (address >>> 22).toNat
def tableIndex (address : Word) : ℕ := ((address >>> 12) &&& 0x3ff).toNat

/-- The table that maps `address` and the index of its entry there, which is
what `pte_lookup` returns as one pointer; `none` is its `NULL`. -/
def pteLookup (pgdir address : Word) : M (Option (Word × ℕ)) := do
  if pgdir = 0 then
    return none
  let dir ← readWord pgdir (dirIndex address)
  if dir &&& pteV = 0 then
    return none
  return some (ptePhys dir, tableIndex address)

def putPagePgdir (pgdir page address : Word) : M Word := do
  if userLimit ≤ address then
    return 0
  if page < ramBase ∨ ramEnd ≤ page then
    return 0
  let dir ← readWord pgdir (dirIndex address)
  if dir &&& pteV = 0 then
    let tmp ← getFreePage
    if tmp = 0 then
      return 0
    writeWord pgdir (dirIndex address) (physPpn tmp ||| pteV)
    writeWord (ptePhys (physPpn tmp ||| pteV)) (tableIndex address) (physPpn page ||| pteUserRwx)
    return page
  else
    writeWord (ptePhys dir) (tableIndex address) (physPpn page ||| pteUserRwx)
    return page

/-- The inner loop of `free_page_tables`: free every page a table maps. -/
def freeLeaves (pt : Word) : M PUnit :=
  forN ptrsPerPage fun j => do
    let pte ← readWord pt j
    if pte &&& pteV = 0 then
      return ()
    else
      freePage (ptePhys pte)

def freePageTables (pgdir : Word) : M PUnit := do
  if pgdir = 0 then
    return ()
  forN userPgdEntries fun i => do
    let dir ← readWord pgdir i
    if dir &&& pteV = 0 then
      return ()
    else
      freeLeaves (ptePhys dir)
      freePage (ptePhys dir)
      writeWord pgdir i 0
  freePage pgdir

/-- The inner loop of `copy_page_tables`: both tables get every entry without
`W`, and the page one more user. -/
def shareLeaves (fromPt toPt : Word) : M PUnit :=
  forN ptrsPerPage fun j => do
    let pte ← readWord fromPt j
    if pte &&& pteV = 0 then
      return ()
    else
      let thisPage := pte &&& ~~~pteW
      writeWord fromPt j thisPage
      writeWord toPt j thisPage
      if ramBase ≤ ptePhys thisPage then
        let c ← readCount (mapNr (ptePhys thisPage))
        writeCount (mapNr (ptePhys thisPage)) (c + 1)

def copyPageTables (fromPgdir toPgdir : Word) : M ℤ := do
  if fromPgdir = 0 ∨ toPgdir = 0 then
    throw (.panic "copy_page_tables: bad pgdir")
  let r ← forNRet userPgdEntries fun i => do
    let fromDir ← readWord fromPgdir i
    if fromDir &&& pteV = 0 then
      return none
    else
      let toDir ← readWord toPgdir i
      if toDir &&& pteV ≠ 0 then
        throw (.panic "copy_page_tables: already exist")
      let newTable ← getFreePage
      if newTable = 0 then
        return some (-1)
      else
        writeWord toPgdir i (physPpn newTable ||| pteV)
        shareLeaves (ptePhys fromDir) newTable
        return none
  return r.getD 0

/-! ### Faults -/

/-- `un_wp_page` of the entry with index `j` in the table at `t`. -/
def unWpPage (t : Word) (j : ℕ) : M PUnit := do
  let pte ← readWord t j
  let oldPage := ptePhys pte
  let c ← readCount (mapNr oldPage)
  if ramBase ≤ oldPage ∧ c = 1 then
    writeWord t j (pte ||| pteW)
  else
    let newPage ← getFreePage
    if newPage = 0 then
      throw (.exit 11)
    if ramBase ≤ oldPage then
      let c ← readCount (mapNr oldPage)
      writeCount (mapNr oldPage) (c - 1)
    writeWord t j (physPpn newPage ||| pteUserRw)
    copyPage oldPage newPage

/-- `get_empty_page`; a first `get_free_page` that fails leaves `free_page(0)`,
which does nothing. -/
def getEmptyPage (pgdir address : Word) : M PUnit := do
  let tmp ← getFreePage
  if tmp = 0 then
    freePage tmp
    throw (.exit 11)
  else
    let r ← putPagePgdir pgdir tmp address
    if r = 0 then
      freePage tmp
      throw (.exit 11)

def doNoPage (pgdir address : Word) : M PUnit := getEmptyPage pgdir (address &&& 0xfffff000)

/-- An entry that is valid and write protected. -/
def isWriteProtected (pte : Word) : Bool := pte &&& pteV ≠ 0 ∧ pte &&& pteW = 0

def doWpPage (pgdir address : Word) : M PUnit := do
  match ← pteLookup pgdir address with
  | none => doNoPage pgdir address
  | some (t, j) =>
    let pte ← readWord t j
    if isWriteProtected pte then unWpPage t j else doNoPage pgdir address

def pageFaultHandler (fromUser : Bool) (pgdir address : Word) : M PUnit := do
  if !fromUser ∨ userLimit ≤ address then
    throw (.exit 11)
  let address := address &&& 0xfffff000
  match ← pteLookup pgdir address with
  | none => doNoPage pgdir address
  | some (t, j) =>
    let pte ← readWord t j
    if isWriteProtected pte then doWpPage pgdir address else doNoPage pgdir address

/-! ### User buffers -/

/-- One round of the loop of `verify_area`. -/
def verifyPage (pgdir start : Word) : M PUnit := do
  match ← pteLookup pgdir start with
  | none => getEmptyPage pgdir start
  | some (t, j) =>
    let pte ← readWord t j
    if pte &&& pteV = 0 then
      getEmptyPage pgdir start
    else if pte &&& pteW = 0 then
      unWpPage t j

/-- The loop of `verify_area`, with `n` rounds left. -/
def verifyPages (pgdir : Word) : ℕ → Word → M PUnit
  | 0, _ => return ()
  | n + 1, start => do
      verifyPage pgdir start
      verifyPages pgdir n (start + 4096)

/-- Rounds until `size`, an `int`, is not positive. -/
def rounds (size : Word) : ℕ := ((size.toInt + 4095) / 4096).toNat

def verifyArea (pgdir addr size : Word) : M PUnit := do
  if pgdir = 0 then
    return ()
  else if userLimit ≤ addr then
    throw (.panic "verify_area: bad address")
  else
    verifyPages pgdir (rounds (size + (addr &&& 0xfff))) (addr &&& 0xfffff000)

end LinuxRv.Mm
