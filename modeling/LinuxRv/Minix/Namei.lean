import LinuxRv.Minix.Inode

/-!
Directories and path names (`fs/namei.c`).

Names are read from user memory byte by byte where the source does, so a task
that passes a bad pointer is ended at the same place, with what the call holds
by then. A directory entry is named by its block and its place there; the
caller holds the block's buffer.
-/

namespace LinuxRv.Minix

open ByteMemory Prog LinuxRv.Fs

variable (rd : RamDisk) (cur : Current)

/-- An entry of a directory, in a buffer the caller holds. -/
abbrev Entry := BlockNr × Fin 64

def getFsByte (addr : Word) : FsM Byte := liftMm (Mm.getFsByte cur.pgdir addr)

/-- No string in user memory is longer. -/
@[irreducible] def maxString : ℕ := 2 ^ 32

/-! ### Permission -/

def mayExec : BitVec 16 := 1
def mayWrite : BitVec 16 := 2
def mayRead : BitVec 16 := 4

def permission (n : MInode) (mask : BitVec 16) : Bool :=
  if n.dev ≠ 0 ∧ n.nlinks = 0 then false
  else
    let mode :=
      if cur.euid = n.uid then n.mode >>> 6
      else if cur.egid = n.gid.setWidth 16 then n.mode >>> 3
      else n.mode
    mode &&& mask &&& 7 = mask ∨ cur.euid = 0

/-! ### Entries -/

/-- The comparison loop of `match`. -/
def matchBytes (cur : Current) (name : Word) (b : Block) (i : Fin 64) : List (Fin 14) → FsM Bool
  | [] => return true
  | k :: ks => do
      let c ← getFsByte cur (name + .ofNat 32 k)
      if c ≠ dirName b i k then return false else matchBytes cur name b i ks

/-- `match`, for a length that is at most `NAME_LEN`. -/
def matchEntry (len : ℕ) (name : Word) (b : Block) (i : Fin 64) : FsM Bool := do
  if dirInode b i = 0 then
    return false
  else if h : len < 14 then
    if dirName b i ⟨len, h⟩ ≠ 0 then
      return false
    else
      matchBytes cur name b i ((List.finRange 14).take len)
  else
    matchBytes cur name b i (List.finRange 14)

/-- The loop of `find_entry` from entry `i` on, with `block` in the buffer. -/
def findFrom (rd : RamDisk) (cur : Current) (dir : Ino) (name : Word) (len entries : ℕ) :
    ℕ → ℕ → BlockNr → FsM (Option Entry)
  | 0, _, _ => throw .hang
  | fuel + 1, i, block => do
      let dev := (← readInodeTable dir).dev
      let look (block : BlockNr) : FsM (Option Entry) := do
        let b := (← get).data dev block
        if ← matchEntry cur len name b (Fin.ofNat 64 i) then
          return some (block, Fin.ofNat 64 i)
        else
          findFrom rd cur dir name len entries fuel (i + 1) block
      -- `bh` is NULL at the next test of `de` against its end
      let skip : FsM (Option Entry) :=
        if entries ≤ i + 64 then return none else throw nullPointer
      if entries ≤ i then
        brelse dev block
        return none
      else if i % 64 = 0 ∧ i ≠ 0 then
        brelse dev block
        let z ← bmap rd dir (i / 64)
        if z = 0 then
          skip
        else if ← bread rd dev (blockNr z) then
          look (blockNr z)
        else
          skip
      else
        look block

/-- `..` in `find_entry`: the directory and the length of the name to go on
with. -/
def dotDot (dir : Ino) (name : Word) (len : ℕ) : FsM (Ino × ℕ) := do
  if len = 2 then
    if (← getFsByte cur name) = 0x2e then
      if (← getFsByte cur (name + 1)) = 0x2e then
        let n ← readInodeTable dir
        if cur.root = some dir then
          return (dir, 1)
        else if n.num = rootIno then
          match ← getSuper n.dev with
          | none => throw nullPointer
          | some i =>
            match ((← get).super i).imount with
            | none => return (dir, len)
            | some dir' =>
              iput rd (some dir)
              updateInode dir' fun n => { n with count := n.count + 1 }
              return (dir', len)
        else
          return (dir, len)
      else
        return (dir, len)
    else
      return (dir, len)
  else
    return (dir, len)

/-- `find_entry`, with the directory the caller has afterwards. -/
def findEntry (dir : Ino) (name : Word) (namelen : ℕ) : FsM (Ino × Option Entry) := do
  let len := min namelen 14
  -- the size is that of the directory the search starts in
  let entries := (← readInodeTable dir).size.toNat / 16
  if len = 0 then
    return (dir, none)
  else
    let (dir, len) ← dotDot rd cur dir name len
    let n ← readInodeTable dir
    if n.zone 0 = 0 then
      return (dir, none)
    else if ← bread rd n.dev (blockNr (n.zone 0)) then
      let r ← findFrom rd cur dir name len entries (entries + 1) 0 (blockNr (n.zone 0))
      return (dir, r)
    else
      return (dir, none)

/-- The name of a new entry, copied byte by byte. -/
def copyName (name : Word) (len : ℕ) (dev : Dev) (block : BlockNr) (i : Fin 64) : FsM PUnit :=
  forN 14 fun k => do
    let c ← if k < len then getFsByte cur (name + .ofNat 32 k) else pure 0
    updateData dev block fun b => setDirName b i (Function.update (dirName b i) k c)

/-- The loop of `add_entry`. -/
def addFrom (rd : RamDisk) (cur : Current) (dir : Ino) (name : Word) (len : ℕ) :
    ℕ → ℕ → BlockNr → FsM (Option Entry)
  | 0, _, _ => throw .hang
  | fuel + 1, i, block => do
      let dev := (← readInodeTable dir).dev
      let now := (← get).now
      let look (block : BlockNr) : FsM (Option Entry) := do
        let n ← readInodeTable dir
        if n.size.toNat ≤ 16 * i then
          updateData dev block fun b => setDirInode b (Fin.ofNat 64 i) 0
          updateInode dir fun n =>
            { n with size := .ofNat 32 (16 * (i + 1)), dirt := true, ctime := now }
        if dirInode ((← get).data dev block) (Fin.ofNat 64 i) = 0 then
          updateInode dir fun n => { n with mtime := now }
          copyName cur name len dev block (Fin.ofNat 64 i)
          return some (block, Fin.ofNat 64 i)
        else
          addFrom rd cur dir name len fuel (i + 1) block
      if i % 64 = 0 ∧ i ≠ 0 then
        brelse dev block
        let z ← createBlock rd dir (i / 64)
        if z = 0 then
          return none
        else if ← bread rd dev (blockNr z) then
          look (blockNr z)
        else
          throw nullPointer
      else
        look block

/-- `add_entry`: the new entry, with its inode number still 0. -/
def addEntry (dir : Ino) (name : Word) (namelen : ℕ) : FsM (Option Entry) := do
  let len := min namelen 14
  let n ← readInodeTable dir
  if len = 0 then
    return none
  else if n.zone 0 = 0 then
    return none
  else if ← bread rd n.dev (blockNr (n.zone 0)) then
    addFrom rd cur dir name len (64 * maxBlocks + 1) 0 (blockNr (n.zone 0))
  else
    return none

/-! ### Paths -/

/-- `for (namelen=0; (c=get_fs_byte(pathname++)) && (c!='/'); namelen++)`: the
last byte read, and `pathname` and `namelen` after it. -/
def scanName (cur : Current) : ℕ → Word → ℕ → FsM (Byte × Word × ℕ)
  | 0, _, _ => throw .hang
  | fuel + 1, p, len => do
      let c ← getFsByte cur p
      if c = 0 ∨ c = 0x2f then return (c, p + 1, len) else scanName cur fuel (p + 1) (len + 1)

/-- The loop of `get_dir`, with a reference to `ip`. -/
def getDirFrom (rd : RamDisk) (cur : Current) : ℕ → Ino → Word → FsM (Option Ino)
  | 0, _, _ => throw .hang
  | fuel + 1, ip, thisname => do
      let n ← readInodeTable ip
      if !isDir n.mode ∨ !permission cur n mayExec then
        iput rd (some ip)
        return none
      else
        let (c, pathname, namelen) ← scanName cur maxString thisname 0
        if c = 0 then
          return some ip
        else
          match ← findEntry rd cur ip thisname namelen with
          | (ip, none) =>
            iput rd (some ip)
            return none
          | (ip, some (block, i)) =>
            let dev := (← readInodeTable ip).dev
            let nr := dirInode ((← get).data dev block) i
            brelse dev block
            iput rd (some ip)
            let ip ← iget rd dev nr
            getDirFrom rd cur fuel ip pathname

def getDir (pathname : Word) : FsM (Option Ino) := do
  let s ← get
  match cur.root, cur.pwd with
  | none, _ => throw (.panic "No root inode")
  | some root, pwd =>
    if (s.inode root).count = 0 then
      throw (.panic "No root inode")
    else
      match pwd with
      | none => throw (.panic "No cwd inode")
      | some pwd =>
        if (s.inode pwd).count = 0 then
          throw (.panic "No cwd inode")
        else
          let c ← getFsByte cur pathname
          if c = 0 then
            return none
          else
            let (ip, pathname) := if c = 0x2f then (root, pathname + 1) else (pwd, pathname)
            updateInode ip fun n => { n with count := n.count + 1 }
            getDirFrom rd cur maxString ip pathname

/-- The loop of `dir_namei`: the length and the address of the last component. -/
def scanBase (cur : Current) : ℕ → Word → Word → FsM (ℕ × Word)
  | 0, _, _ => throw .hang
  | fuel + 1, p, base => do
      let c ← getFsByte cur p
      if c = 0 then return ((p - base).toNat, base)
      else if c = 0x2f then scanBase cur fuel (p + 1) (p + 1)
      else scanBase cur fuel (p + 1) base

def dirNamei (pathname : Word) : FsM (Option (Ino × ℕ × Word)) := do
  match ← getDir rd cur pathname with
  | none => return none
  | some dir =>
    let (namelen, base) ← scanBase cur maxString pathname pathname
    return some (dir, namelen, base)

def namei (pathname : Word) : FsM (Option Ino) := do
  match ← dirNamei rd cur pathname with
  | none => return none
  | some (dir, namelen, base) =>
    if namelen = 0 then
      return some dir
    else
      match ← findEntry rd cur dir base namelen with
      | (dir, none) =>
        iput rd (some dir)
        return none
      | (dir, some (block, i)) =>
        let dev := (← readInodeTable dir).dev
        let nr := dirInode ((← get).data dev block) i
        brelse dev block
        iput rd (some dir)
        let ip ← iget rd dev nr
        let now := (← get).now
        updateInode ip fun n => { n with atime := now, dirt := true }
        return some ip

end LinuxRv.Minix
