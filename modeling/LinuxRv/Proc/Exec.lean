import LinuxRv.Proc.Exit

/-!
Running a file (`fs/exec.c`).

The ELF headers, which the source reads onto the kernel stack, are lists of
bytes.
-/

namespace LinuxRv.Proc

open ByteMemory Prog Fs Minix Function
open Mm (userLimit ramBase)

variable (rd : RamDisk) (cur : Current) (me : Slot)

def eio : ℤ := 5
def enoexec : ℤ := 8
def enomem : ℤ := 12

/-- `MAX_ARG_PAGES` -/
abbrev maxArgPages : ℕ := 32

/-- `STACK_BASE` -/
def stackBase : Word := 0x7fe00000 - 32 * 4096

theorem toNat_stackBase : stackBase.toNat = 0x7fde0 * 4096 := by decide

/-! ### Strings -/

/-- `count`, from the pointer `tmp` on. -/
def countFrom (cur : Current) : ℕ → Word → ℕ → FsM ℕ
  | 0, _, _ => throw .hang
  | fuel + 1, tmp, i => do
      let v ← Minix.liftMm (Mm.getFsLong cur.pgdir tmp)
      if v = 0 then return i else countFrom cur fuel (tmp + 4) (i + 1)

def countArgs (argv : Word) : FsM ℕ :=
  if argv = 0 then return 0 else countFrom cur maxString argv 0

/-- The length of the string at `tmp`, its zero byte included. -/
def strLen (cur : Current) : ℕ → Word → ℕ → FsM ℕ
  | 0, _, _ => throw .hang
  | fuel + 1, tmp, len => do
      let c ← getFsByte cur tmp
      if c = 0 then return len + 1 else strLen cur fuel (tmp + 1) (len + 1)

/-- `page`, `p`, `pag` and `offset` of `copy_strings`. -/
structure ArgPages where
  page : Fin maxArgPages → Word
  p : Word
  pag : Word
  offset : ℤ

/-- The page for the byte at `p`; `pag` is null if there is none. -/
def argPage (a : ArgPages) : FsM ArgPages := do
  let offset := (a.p.toNat % 4096 : ℕ)
  if h : a.p.toNat / 4096 < maxArgPages then
    let i : Fin maxArgPages := ⟨a.p.toNat / 4096, h⟩
    if a.page i ≠ 0 then
      return { a with pag := a.page i, offset := offset }
    else
      let new ← Minix.liftMm Mm.getFreePage
      return { a with pag := new, page := update a.page i new, offset := offset }
  else
    throw .wild

def storeByte (addr : Word) (c : Byte) : FsM PUnit :=
  Minix.liftMm (modify fun s => s.setMem (update s.mem addr c))

/-- The inner loop of `copy_strings`, from the end of a string; false if there
is no page. -/
def copyString (cur : Current) : ℕ → Word → ArgPages → FsM (Bool × ArgPages)
  | 0, _, a => return (true, a)
  | len + 1, tmp, a => do
      let tmp := tmp - 1
      let a := { a with p := a.p - 1, offset := a.offset - 1 }
      let a ← if a.offset < 0 then argPage a else pure a
      if a.pag = 0 then
        return (false, a)
      else
        let c ← getFsByte cur tmp
        storeByte (a.pag + BitVec.ofInt 32 a.offset) c
        copyString cur len tmp a

/-- The outer loop of `copy_strings`; the comparison `p-len < 0` of unsigned
numbers is never true. -/
def copyStringsFrom (cur : Current) (argv : Word) : ℕ → ArgPages → FsM (Word × ArgPages)
  | 0, a => return (a.p, a)
  | argc + 1, a => do
      let tmp ← Minix.liftMm (Mm.getFsLong cur.pgdir (argv + 4 * .ofNat 32 argc))
      if tmp = 0 then
        throw (.panic "argc is wrong")
      else
        let len ← strLen cur maxString tmp 0
        match ← copyString cur len (tmp + .ofNat 32 len) a with
        | (false, a) => return (0, a)
        | (true, a) => copyStringsFrom cur argv argc a

def copyStrings (argc : ℕ) (argv : Word) (page : Fin maxArgPages → Word)
    (p : Word) : FsM (Word × (Fin maxArgPages → Word)) := do
  if p = 0 then
    return (0, page)
  else
    let (p, a) ← copyStringsFrom cur argv argc ⟨page, p, 0, 0⟩
    return (p, a.page)

/-- One of the two loops of `create_tables`: the pointers to `n` strings from
`p` on, and the zero after them. -/
def putPointers (cur : Current) : ℕ → Word → Word → FsM Word
  | 0, p, table => do
      Minix.liftMm (Mm.putFsLong 0 cur.pgdir table)
      return p
  | n + 1, p, table => do
      Minix.liftMm (Mm.putFsLong p cur.pgdir table)
      let len ← strLen cur maxString p 0
      putPointers cur n (p + .ofNat 32 len) (table + 4)

def createTables (p : Word) (argc envc : ℕ) : FsM Word := do
  let envp := (p &&& 0xfffffffc) - 4 * .ofNat 32 (envc + 1)
  let argv := envp - 4 * .ofNat 32 (argc + 1)
  Minix.liftMm (Mm.putFsLong envp cur.pgdir (argv - 4))
  Minix.liftMm (Mm.putFsLong argv cur.pgdir (argv - 8))
  Minix.liftMm (Mm.putFsLong (.ofNat 32 argc) cur.pgdir (argv - 12))
  let p ← putPointers cur argc p argv
  let _ ← putPointers cur envc p envp
  return argv - 12

/-! ### The file -/

/-- `read_file`, with at most `fuel` blocks to go: whether all could be read,
and the bytes that were. A hole is read as block 0. -/
def readFile (rd : RamDisk) (ip : Ino) : ℕ → Word → Word → FsM (Bool × List Byte)
  | 0, _, _ => return (true, [])
  | fuel + 1, off, len => do
      if len = 0 then
        return (true, [])
      else
        let block := off >>> 10
        let coff := (off &&& 0x3ff).toNat
        let n := min (1024 - coff) len.toNat
        let z ← bmap rd ip block.toNat
        let dev := (← readInodeTable ip).dev
        if ← bread rd dev (blockNr z) then
          let b := (← get).data dev (blockNr z)
          brelse dev (blockNr z)
          let bytes := (((List.finRange 1024).map b).drop coff).take n
          let (ok, rest) ← readFile rd ip fuel (off + .ofNat 32 n) (len - .ofNat 32 n)
          return (ok, bytes ++ rest)
        else
          return (false, [])

/-- A field of `n` bytes at an offset. -/
def field (bytes : List Byte) (off n : ℕ) : Word :=
  ((bytes.drop off).take n).foldr (fun b v => (v <<< 8) ||| b.setWidth 32) 0

/-- `Elf32_Ehdr`, what is used of it. -/
structure Ehdr where
  ident : List Byte
  type : Word
  machine : Word
  entry : Word
  phoff : Word
  phentsize : Word
  phnum : Word

def Ehdr.ofBytes (b : List Byte) : Ehdr where
  ident := b.take 4
  type := field b 16 2
  machine := field b 18 2
  entry := field b 24 4
  phoff := field b 28 4
  phentsize := field b 42 2
  phnum := field b 44 2

/-- `Elf32_Phdr`, what is used of it. -/
structure Phdr where
  type : Word
  offset : Word
  vaddr : Word
  filesz : Word
  memsz : Word
  deriving DecidableEq

def Phdr.ofBytes (b : List Byte) : Phdr where
  type := field b 0 4
  offset := field b 4 4
  vaddr := field b 8 4
  filesz := field b 16 4
  memsz := field b 20 4

def Ehdr.runnable (eh : Ehdr) : Bool :=
  eh.ident = [0x7f, 0x45, 0x4c, 0x46] ∧ eh.type = 2 ∧ eh.machine = 243 ∧ eh.phnum ≠ 0 ∧
    eh.phentsize = 32 ∧ eh.entry < userLimit

/-- The loop of `load_segment`, with `n` pages to go. -/
def loadPages (rd : RamDisk) (ip : Ino) (ph : Phdr) (pgdir : Word) : ℕ → Word → FsM Bool
  | 0, _ => return true
  | n + 1, vaddr => do
      let page ← Minix.liftMm Mm.getFreePage
      if page = 0 then
        return false
      else
        let foff := ph.offset + (vaddr - ph.vaddr)
        let fileEnd := ph.offset + ph.filesz
        let ok ← if foff < fileEnd then do
            let len := if fileEnd - foff < 4096 then fileEnd - foff else 4096
            let (ok, bytes) ← readFile rd ip 4096 foff len
            Minix.liftMm (Mm.writeBytes page bytes.length fun i => bytes.getD i 0)
            pure ok
          else pure true
        if !ok then
          Minix.liftMm (Mm.freePage page)
          return false
        else
          let r ← Minix.liftMm (Mm.putPagePgdir pgdir page vaddr)
          if r = 0 then
            Minix.liftMm (Mm.freePage page)
            return false
          else
            loadPages rd ip ph pgdir n (vaddr + 4096)

def loadSegment (ip : Ino) (ph : Phdr) (pgdir : Word) : FsM Bool :=
  let vaddr := ph.vaddr &&& 0xfffff000
  let vend := (ph.vaddr + ph.memsz + 0xfff) &&& 0xfffff000
  loadPages rd ip ph pgdir ((vend.toNat - vaddr.toNat) / 4096) vaddr

/-- The loop over the program headers from number `i` on; an error number if
the file cannot be run. -/
def loadHeaders (rd : RamDisk) (ip : Ino) (phoff pgdir : Word) : ℕ → ℕ → FsM (Option ℤ)
  | 0, _ => return none
  | n + 1, i => do
      let (ok, bytes) ← readFile rd ip 32 (phoff + 32 * .ofNat 32 i) 32
      if !ok then
        return some (-eio)
      else
        let ph := Phdr.ofBytes bytes
        if ph.type ≠ 1 then
          loadHeaders rd ip phoff pgdir n (i + 1)
        else if userLimit ≤ ph.vaddr ∨ stackBase < ph.vaddr + ph.memsz then
          return some (-enoexec)
        else if ← loadSegment rd ip ph pgdir then
          loadHeaders rd ip phoff pgdir n (i + 1)
        else
          return some (-enomem)

/-- The bounds of the program with one more segment. -/
def Task.include (t : Task) (ph : Phdr) : Task :=
  let last := ph.vaddr + ph.memsz
  { t with
    startCode := if ph.vaddr < t.startCode then ph.vaddr else t.startCode
    endCode := if t.endCode < last then last else t.endCode
    endData := if t.endData < last then last else t.endData
    brk := if t.endData < last then last else t.brk }

/-- The second pass over the headers, which computes the bounds of the program
and ends at one that cannot be read. -/
def scanHeaders (rd : RamDisk) (me : Slot) (ip : Ino) (phoff : Word) : ℕ → ℕ → ProcM PUnit
  | 0, _ => return ()
  | n + 1, i => do
      let (ok, bytes) ← liftFs (readFile rd ip 32 (phoff + 32 * .ofNat 32 i) 32)
      if ok then
        if (Phdr.ofBytes bytes).type = 1 then
          updateTask me fun t => t.include (Phdr.ofBytes bytes)
        scanHeaders rd me ip phoff n (i + 1)

/-- The argument pages at the top of the new address space; what is left of
`page`, and whether all are mapped. -/
def putArgPages (pgdir : Word) (page : Fin maxArgPages → Word) :
    List (Fin maxArgPages) → FsM (Bool × (Fin maxArgPages → Word))
  | [] => return (true, page)
  | i :: l => do
      if page i = 0 then
        putArgPages pgdir page l
      else
        let r ← Minix.liftMm (Mm.putPagePgdir pgdir (page i) (stackBase + 4096 * .ofNat 32 i))
        if r = 0 then
          return (false, page)
        else
          putArgPages pgdir (update page i 0) l

/-! ### `execve` -/

/-- `exec_error2`, with `exec_error1` after it. -/
def execError (ip : Ino) (page : Fin maxArgPages → Word) : FsM PUnit := do
  iput rd (some ip)
  forN maxArgPages fun i =>
    if page i = 0 then return () else Minix.liftMm (Mm.freePage (page i))

def mayRun (n : MInode) : Bool :=
  let i :=
    if cur.euid = n.uid then n.mode >>> 6
    else if cur.egid = n.gid.setWidth 16 then n.mode >>> 3
    else n.mode
  i &&& 1 ≠ 0 ∨ (n.mode &&& 0o111 ≠ 0 ∧ cur.euid = 0)

/-- The new program: its inode, directory, entry point and program headers, and
where its strings are. -/
structure Image where
  ip : Ino
  eh : Ehdr
  pgdir : Word
  p : Word
  argc : ℕ
  envc : ℕ

/-- `do_execve` from the building of the new address space on. -/
def buildSpace (ip : Ino) (eh : Ehdr) (p : Word) (page : Fin maxArgPages → Word)
    (argc envc : ℕ) : FsM (Except ℤ Image) := do
  let newPgdir ← Minix.liftMm Mm.getFreePage
  if newPgdir = 0 then
    execError rd ip page
    return .error (-enomem)
  else
    Minix.liftMm (Mm.fillPage newPgdir fun _ => 0)
    match ← putArgPages newPgdir page (List.finRange maxArgPages) with
    | (false, page) =>
      Minix.liftMm (Mm.freePageTables newPgdir)
      execError rd ip page
      return .error (-enomem)
    | (true, page) =>
      match ← loadHeaders rd ip eh.phoff newPgdir eh.phnum.toNat 0 with
      | some e =>
        Minix.liftMm (Mm.freePageTables newPgdir)
        execError rd ip page
        return .error e
      | none => return .ok ⟨ip, eh, newPgdir, p + stackBase, argc, envc⟩

/-- `do_execve` up to the point of no return. -/
def prepare (filename argv envp : Word) : FsM (Except ℤ Image) := do
  match ← namei rd cur filename with
  | none => return .error (-enoent)
  | some ip =>
    let argc ← countArgs cur argv
    let envc ← countArgs cur envp
    let n ← readInodeTable ip
    if !isReg n.mode then
      execError rd ip fun _ => 0
      return .error (-eacces)
    else if !mayRun cur n then
      execError rd ip fun _ => 0
      return .error (-enoexec)
    else
      let (ok, bytes) ← readFile rd ip 52 0 52
      let eh := Ehdr.ofBytes bytes
      if !ok then
        execError rd ip fun _ => 0
        return .error (-eacces)
      else if !eh.runnable then
        execError rd ip fun _ => 0
        return .error (-enoexec)
      else
        let (p, page) ← copyStrings cur envc envp (fun _ => 0) (4096 * 32 - 4)
        let (p, page) ← copyStrings cur argc argv page p
        if p = 0 then
          execError rd ip page
          return .error (-enomem)
        else
          buildSpace rd ip eh p page argc envc

/-- `mstatus`, `mepc` and `sp` in a trap frame. -/
def tfMstatus : Fin 100 := 0
def tfMepc : Fin 100 := 1
def tfSp : Fin 100 := 3

/-- The frame of a program that starts. -/
def startFrame (entry p : Word) : Fin 100 → Word :=
  update (update (update (update (fun _ => 0) tfMstatus 0x6088) tfMepc entry) tfSp p) tfFromUser 1

def closeOnExecFds : ProcM PUnit := do
  forN nrOpen fun fd => do
    if ((← getTask me).closeOnExec >>> fd.1) &&& 1 ≠ 0 then
      discard (closeFd rd me fd)
  updateTask me fun t => { t with closeOnExec := 0 }

/-- `do_execve`, with the address of `ret_from_trap`. -/
def doExecve (retFromTrap : Word) (me : Slot) (filename argv envp : Word) : ProcM ℤ := do
  let cur ← getTask me
  match ← liftFs (prepare rd cur.current filename argv envp) with
  | .error e => return e
  | .ok image =>
    -- the point of no return
    liftFs (iput rd cur.executable)
    updateTask me fun t => { t with
      executable := none
      sigaction := fun i => { t.sigaction i with handler := 0 } }
    closeOnExecFds rd me
    liftMm (Mm.freePageTables cur.pgdir)
    updateTask me fun t => { t with pgdir := image.pgdir }
    let p ← liftFs
      (createTables { cur.current with pgdir := image.pgdir } image.p image.argc image.envc)
    updateTask me fun t => { t with startCode := 0, endCode := 0, endData := 0, brk := 0 }
    scanHeaders rd me image.ip image.eh.phoff image.eh.phnum.toNat 0
    liftFs (iput rd (some image.ip))
    updateTask me fun t => { t with
      tf := startFrame image.eh.entry p
      startStack := p &&& 0xfffff000
      ra := if cur.pgdir = 0 then retFromTrap else t.ra
      sp := if cur.pgdir = 0 then t.page + 4096 - 400 else t.sp }
    return 0

end LinuxRv.Proc
