import LinuxRv.Minix.Namei

/-!
The calls that work on names (`fs/namei.c`): `open_namei`, `sys_mknod`,
`sys_mkdir`, `sys_rmdir`, `sys_unlink` and `sys_link`. The result is the
value returned, a negative error number if the call fails.
-/

namespace LinuxRv.Minix

open ByteMemory Prog LinuxRv.Fs

variable (rd : RamDisk) (cur : Current)

/-! ### Error numbers and flags -/

def eperm : ℤ := 1
def enoent : ℤ := 2
def eacces : ℤ := 13
def eexist : ℤ := 17
def exdev : ℤ := 18
def enotdir : ℤ := 20
def eisdir : ℤ := 21
def enospc : ℤ := 28
def enotempty : ℤ := 39
/-- `ERROR` -/
def eerror : ℤ := 99

def oAccmode : Word := 0o3
def oWronly : Word := 0o1
def oCreat : Word := 0o100
def oExcl : Word := 0o200
def oTrunc : Word := 0o1000

/-- `ACC_MODE`, from the string `"\004\002\006\377"`. -/
def accMode (flag : Word) : BitVec 16 :=
  if flag &&& oAccmode = 0 then 4
  else if flag &&& oAccmode = 1 then 2
  else if flag &&& oAccmode = 2 then 6
  else 0xff

def iDirectory : BitVec 16 := 0x4000
def iRegular : BitVec 16 := 0x8000
/-- `S_ISVTX` -/
def isvtx : BitVec 16 := 0x200

/-- Store an inode number in an entry. -/
def setEntryInode (dev : Dev) (e : Entry) (num : BitVec 16) : FsM PUnit :=
  updateData dev e.1 fun b => setDirInode b e.2 num

/-! ### `open_namei` -/

/-- The part of `open_namei` that makes a new file. -/
def openCreate (dir : Ino) (base : Word) (namelen : ℕ) (mode : BitVec 16) : FsM (Except ℤ Ino) := do
  let n ← readInodeTable dir
  if !permission cur n mayWrite then
    iput rd (some dir)
    return .error (-eacces)
  else
    match ← newInode rd cur n.dev with
    | none =>
      iput rd (some dir)
      return .error (-enospc)
    | some ip =>
      updateInode ip fun n => { n with uid := cur.euid, mode := mode, dirt := true }
      match ← addEntry rd cur dir base namelen with
      | none =>
        updateInode ip fun n => { n with nlinks := n.nlinks - 1 }
        iput rd (some ip)
        iput rd (some dir)
        return .error (-enospc)
      | some e =>
        let dev := (← readInodeTable dir).dev
        setEntryInode dev e (← readInodeTable ip).num
        brelse dev e.1
        iput rd (some dir)
        return .ok ip

/-- The part of `open_namei` for a file that exists. -/
def openExisting (dev : Dev) (nr : BitVec 16) (flag : Word) : FsM (Except ℤ Ino) := do
  if flag &&& oExcl ≠ 0 then
    return .error (-eexist)
  else
    let ip ← iget rd dev nr
    let n ← readInodeTable ip
    if (isDir n.mode ∧ flag &&& oAccmode ≠ 0) ∨ !permission cur n (accMode flag) then
      iput rd (some ip)
      return .error (-eperm)
    else
      let now := (← get).now
      updateInode ip fun n => { n with atime := now }
      if flag &&& oTrunc ≠ 0 then
        truncate rd ip
        return .ok ip
      else
        return .ok ip

def openNamei (pathname flag mode : Word) : FsM (Except ℤ Ino) := do
  let flag := if flag &&& oTrunc ≠ 0 ∧ flag &&& oAccmode = 0 then flag ||| oWronly else flag
  let mode := (mode.setWidth 16 &&& 0o777 &&& ~~~cur.umask) ||| iRegular
  match ← dirNamei rd cur pathname with
  | none => return .error (-enoent)
  | some (dir, namelen, base) =>
    if namelen = 0 then
      if flag &&& (oAccmode ||| oCreat ||| oTrunc) = 0 then
        return .ok dir
      else
        iput rd (some dir)
        return .error (-eisdir)
    else
      match ← findEntry rd cur dir base namelen with
      | (dir, none) =>
        if flag &&& oCreat = 0 then
          iput rd (some dir)
          return .error (-enoent)
        else
          openCreate rd cur dir base namelen mode
      | (dir, some (block, i)) =>
        let dev := (← readInodeTable dir).dev
        let nr := dirInode ((← get).data dev block) i
        brelse dev block
        iput rd (some dir)
        openExisting rd cur dev nr flag

/-! ### Making and removing names -/

/-- How `sys_mknod`, `sys_mkdir`, `sys_rmdir` and `sys_unlink` begin: the
directory, one the caller may write to, and the entry in it. -/
def lookupParent (pathname : Word) (k : Ino → ℕ → Word → Option Entry → FsM ℤ) : FsM ℤ := do
  match ← dirNamei rd cur pathname with
  | none => return -enoent
  | some (dir, namelen, base) =>
    if namelen = 0 then
      iput rd (some dir)
      return -enoent
    else if !permission cur (← readInodeTable dir) mayWrite then
      iput rd (some dir)
      return -eperm
    else
      let (dir, e) ← findEntry rd cur dir base namelen
      k dir namelen base e

/-- The second half of `sys_mknod`. -/
def mknodIn (mode dev : BitVec 16) (dir : Ino) (namelen : ℕ) (base : Word) : Option Entry → FsM ℤ
  | some (block, _) => do
      brelse (← readInodeTable dir).dev block
      iput rd (some dir)
      return -eexist
  | none => do
      let dirDev := (← readInodeTable dir).dev
      match ← newInode rd cur dirDev with
      | none =>
        iput rd (some dir)
        return -enospc
      | some ip =>
        let now := (← get).now
        updateInode ip fun n => { n with
          mode := mode
          zone := if isBlk mode ∨ isChr mode then Function.update n.zone 0 dev else n.zone
          mtime := now
          atime := now
          dirt := true }
        match ← addEntry rd cur dir base namelen with
        | none =>
          iput rd (some dir)
          updateInode ip fun n => { n with nlinks := 0 }
          iput rd (some ip)
          return -enospc
        | some e =>
          setEntryInode dirDev e (← readInodeTable ip).num
          iput rd (some dir)
          iput rd (some ip)
          brelse dirDev e.1
          return 0

def sysMknod (filename : Word) (mode dev : BitVec 16) : FsM ℤ :=
  if cur.euid ≠ 0 then return -eperm
  else lookupParent rd cur filename (mknodIn rd cur mode dev)

/-- `strcpy(de->name, s)`. -/
def strcpyName (b : Block) (i : Fin 64) (s : List Byte) : Block :=
  setDirName b i fun k => (s ++ [0]).getD k (dirName b i k)

/-- The entries `.` and `..` of a new directory. -/
def dotEntries (self up : BitVec 16) (b : Block) : Block :=
  strcpyName (setDirInode (strcpyName (setDirInode b 0 self) 0 [0x2e]) 1 up) 1 [0x2e, 0x2e]

/-- `sys_mkdir` once the new directory has its first block. -/
def mkdirFill (mode : BitVec 16) (dir : Ino) (namelen : ℕ) (base : Word) (ip : Ino) : FsM ℤ := do
  let n ← readInodeTable ip
  let dirN ← readInodeTable dir
  if ← bread rd n.dev (blockNr (n.zone 0)) then
    updateData n.dev (blockNr (n.zone 0)) (dotEntries n.num dirN.num)
    updateInode ip fun n => { n with nlinks := 2 }
    brelse n.dev (blockNr (n.zone 0))
    updateInode ip fun n => { n with
      mode := iDirectory ||| (mode &&& 0o777 &&& ~~~cur.umask), dirt := true }
    match ← addEntry rd cur dir base namelen with
    | none =>
      iput rd (some dir)
      freeBlock n.dev (blockNr (n.zone 0))
      updateInode ip fun n => { n with nlinks := 0 }
      iput rd (some ip)
      return -enospc
    | some e =>
      setEntryInode dirN.dev e n.num
      updateInode dir fun n => { n with nlinks := n.nlinks + 1, dirt := true }
      iput rd (some dir)
      iput rd (some ip)
      brelse dirN.dev e.1
      return 0
  else
    iput rd (some dir)
    freeBlock n.dev (blockNr (n.zone 0))
    updateInode ip fun n => { n with nlinks := n.nlinks - 1 }
    iput rd (some ip)
    return -eerror

/-- The second half of `sys_mkdir`. -/
def mkdirIn (mode : BitVec 16) (dir : Ino) (namelen : ℕ) (base : Word) : Option Entry → FsM ℤ
  | some (block, _) => do
      brelse (← readInodeTable dir).dev block
      iput rd (some dir)
      return -eexist
  | none => do
      match ← newInode rd cur (← readInodeTable dir).dev with
      | none =>
        iput rd (some dir)
        return -enospc
      | some ip =>
        let now := (← get).now
        updateInode ip fun n => { n with size := 32, dirt := true, mtime := now, atime := now }
        let z ← newBlock (← readInodeTable ip).dev
        updateInode ip fun n => { n with zone := Function.update n.zone 0 z }
        if z = 0 then
          iput rd (some dir)
          updateInode ip fun n => { n with nlinks := n.nlinks - 1 }
          iput rd (some ip)
          return -enospc
        else
          updateInode ip fun n => { n with dirt := true }
          mkdirFill rd cur mode dir namelen base ip

def sysMkdir (pathname : Word) (mode : BitVec 16) : FsM ℤ :=
  if cur.euid ≠ 0 then return -eperm
  else lookupParent rd cur pathname (mkdirIn rd cur mode)

/-! ### Removing -/

/-- `strcmp(s, de->name)` is 0. -/
def nameIs (b : Block) (i : Fin 64) (s : List Byte) : Bool :=
  (s ++ [0]).zipIdx.all fun (c, k) => if h : k < 14 then dirName b i ⟨k, h⟩ = c else false

/-- The loop of `empty_dir` from entry `nr` on; after a hole the buffer has been
released and is released again. -/
def emptyFrom (rd : RamDisk) (ip : Ino) (len : ℕ) : ℕ → ℕ → BlockNr → FsM Bool
  | 0, _, _ => throw .hang
  | fuel + 1, nr, block => do
      let dev := (← readInodeTable ip).dev
      let look (block : BlockNr) : FsM Bool := do
        if dirInode ((← get).data dev block) (Fin.ofNat 64 nr) ≠ 0 then
          brelse dev block
          return false
        else
          emptyFrom rd ip len fuel (nr + 1) block
      if len ≤ nr then
        brelse dev block
        return true
      else if nr % 64 = 0 then
        brelse dev block
        let z ← bmap rd ip (nr / 64)
        if z = 0 then
          emptyFrom rd ip len fuel (nr + 64) block
        else if ← bread rd dev (blockNr z) then
          look (blockNr z)
        else
          return false
      else
        look block

def emptyDir (ip : Ino) : FsM Bool := do
  let n ← readInodeTable ip
  let len := n.size.toNat / 16
  if len < 2 ∨ n.zone 0 = 0 then
    return false
  else if ← bread rd n.dev (blockNr (n.zone 0)) then
    let b := (← get).data n.dev (blockNr (n.zone 0))
    if dirInode b 0 ≠ n.num ∨ dirInode b 1 = 0 ∨ !nameIs b 0 [0x2e] ∨ !nameIs b 1 [0x2e, 0x2e] then
      -- the buffer is not released
      return false
    else
      emptyFrom rd ip len (len + 1) 2 (blockNr (n.zone 0))
  else
    return false

/-- `iput` of both inodes in the order given, then the buffer: how
`sys_rmdir` and `sys_unlink` fail. -/
def giveUp (a b : Ino) (dev : Dev) (block : BlockNr) (err : ℤ) : FsM ℤ := do
  iput rd (some a)
  iput rd (some b)
  brelse dev block
  return -err

/-- The second half of `sys_rmdir`. -/
def rmdirIn (dir : Ino) : Option Entry → FsM ℤ
  | none => do
      iput rd (some dir)
      return -enoent
  | some (block, i) => do
      let d ← readInodeTable dir
      let ip ← iget rd d.dev (dirInode ((← get).data d.dev block) i)
      let d ← readInodeTable dir
      let n ← readInodeTable ip
      if d.mode &&& isvtx ≠ 0 ∧ cur.euid ≠ 0 ∧ n.uid ≠ cur.euid then
        giveUp rd dir ip d.dev block eperm
      else if n.dev ≠ d.dev ∨ 1 < n.count then
        giveUp rd dir ip d.dev block eperm
      else if ip = dir then
        giveUp rd ip dir d.dev block eperm
      else if !isDir n.mode then
        giveUp rd ip dir d.dev block enotdir
      else if !(← emptyDir rd ip) then
        giveUp rd ip dir d.dev block enotempty
      else
        setEntryInode d.dev (block, i) 0
        brelse d.dev block
        let now := (← get).now
        updateInode ip fun n => { n with nlinks := 0, dirt := true }
        updateInode dir fun n => { n with
          nlinks := n.nlinks - 1, ctime := now, mtime := now, dirt := true }
        iput rd (some dir)
        iput rd (some ip)
        return 0

def sysRmdir (name : Word) : FsM ℤ :=
  if cur.euid ≠ 0 then return -eperm
  else lookupParent rd cur name fun dir _ _ => rmdirIn rd cur dir

/-- The second half of `sys_unlink`. -/
def unlinkIn (dir : Ino) : Option Entry → FsM ℤ
  | none => do
      iput rd (some dir)
      return -enoent
  | some (block, i) => do
      let d ← readInodeTable dir
      let ip ← iget rd d.dev (dirInode ((← get).data d.dev block) i)
      let d ← readInodeTable dir
      let n ← readInodeTable ip
      if d.mode &&& isvtx ≠ 0 ∧ cur.euid ≠ 0 ∧ cur.euid ≠ n.uid ∧ cur.euid ≠ d.uid then
        giveUp rd dir ip d.dev block eperm
      else if isDir n.mode then
        giveUp rd ip dir d.dev block eperm
      else
        if n.nlinks = 0 then
          -- "Deleting nonexistent file"
          updateInode ip fun n => { n with nlinks := 1 }
        setEntryInode d.dev (block, i) 0
        brelse d.dev block
        let now := (← get).now
        updateInode ip fun n => { n with nlinks := n.nlinks - 1, dirt := true, ctime := now }
        iput rd (some ip)
        iput rd (some dir)
        return 0

def sysUnlink (name : Word) : FsM ℤ :=
  lookupParent rd cur name fun dir _ _ => unlinkIn rd cur dir

/-- `sys_link` once both names have been looked up. -/
def linkIn (old dir : Ino) (namelen : ℕ) (base : Word) : Option Entry → FsM ℤ
  | some (block, _) => do
      brelse (← readInodeTable dir).dev block
      iput rd (some dir)
      iput rd (some old)
      return -eexist
  | none => do
      match ← addEntry rd cur dir base namelen with
      | none =>
        iput rd (some dir)
        iput rd (some old)
        return -enospc
      | some e =>
        let dev := (← readInodeTable dir).dev
        setEntryInode dev e (← readInodeTable old).num
        brelse dev e.1
        iput rd (some dir)
        let now := (← get).now
        updateInode old fun n => { n with nlinks := n.nlinks + 1, ctime := now, dirt := true }
        iput rd (some old)
        return 0

def sysLink (oldname newname : Word) : FsM ℤ := do
  match ← namei rd cur oldname with
  | none => return -enoent
  | some old =>
    if isDir (← readInodeTable old).mode then
      iput rd (some old)
      return -eperm
    else
      match ← dirNamei rd cur newname with
      | none =>
        iput rd (some old)
        return -eacces
      | some (dir, namelen, base) =>
        if namelen = 0 then
          iput rd (some old)
          iput rd (some dir)
          return -eperm
        else if (← readInodeTable dir).dev ≠ (← readInodeTable old).dev then
          iput rd (some dir)
          iput rd (some old)
          return -exdev
        else if !permission cur (← readInodeTable dir) mayWrite then
          iput rd (some dir)
          iput rd (some old)
          return -eacces
        else
          let (dir, e) ← findEntry rd cur dir base namelen
          linkIn rd cur old dir namelen base e

end LinuxRv.Minix
