import LinuxRv.Minix.Super
import LinuxRv.Mm.Stops

/-!
References to inodes.

Between two operations of the file system every inode of the table has a known
number of references, `refs ip`. The operations on blocks and directories leave
these numbers alone, and an operation that hands out an inode adds one to its
number. On every path by which an operation returns it has given back what it
does not hand out, whatever it found on the disk.

Pipes are kept apart: they are on no device, no name leads to one, and they are
the only inodes whose release frees a page of memory.
-/

namespace LinuxRv.Minix

open ByteMemory Prog LinuxRv.Fs Function

/-! ### What is kept -/

/-- What the operations on names leave as it is. -/
structure Still where
  mm : Mm.State
  pipe : Ino → Bool
  super : Fin nrSuper → SuperBlock

structure Holds (F : Still) (refs : Ino → ℕ) (s : Fs) : Prop where
  mm : s.mm = F.mm
  count : ∀ ip, (s.inode ip).count.toNat = refs ip
  pipe : ∀ ip, (s.inode ip).pipe = F.pipe ip
  noDevice : ∀ ip, F.pipe ip = true → (s.inode ip).dev = 0
  live : ∀ ip, F.pipe ip = true → refs ip ≠ 0
  super : s.super = F.super
  mounted : ∀ i ip, (F.super i).imount = some ip → F.pipe ip = false ∧ (F.super i).dev ≠ 0

/-- Not the stop of `iput` at an inode nobody holds. -/
def NotFree (h : Halt) (_ : Fs) : Prop := h ≠ .panic "iput: trying to free free inode"

/-- A reference more to `ip`. -/
def addRef (refs : Ino → ℕ) (ip : Ino) : Ino → ℕ := update refs ip (refs ip + 1)

/-- There is room for `n` more references to every inode. -/
def Room (n : ℕ) (refs : Ino → ℕ) : Prop := ∀ ip, refs ip + n < 2 ^ 16

theorem addRef_self (refs : Ino → ℕ) (ip : Ino) : addRef refs ip ip = refs ip + 1 :=
  update_self ..

theorem addRef_of_ne (refs : Ino → ℕ) {ip ip' : Ino} (h : ip' ≠ ip) :
    addRef refs ip ip' = refs ip' :=
  update_of_ne h ..

theorem addRef_comm (refs : Ino → ℕ) (ip ip' : Ino) :
    addRef (addRef refs ip) ip' = addRef (addRef refs ip') ip := by
  by_cases h : ip = ip'
  · rw [h]
  · rw [addRef, addRef_of_ne _ (Ne.symm h), addRef, addRef, addRef_of_ne _ h, addRef,
      update_comm (Ne.symm h)]

theorem Room.addRef {n : ℕ} {refs : Ino → ℕ} (h : Room (n + 1) refs) (ip : Ino) :
    Room n (addRef refs ip) := by
  intro ip'
  have hip := h ip
  have hip' := h ip'
  by_cases hi : ip' = ip
  · rw [hi, addRef_self]
    omega
  · rw [addRef_of_ne _ hi]
    omega

theorem wp_liftMm {α : Type} {c : Mm.M α} {s : Fs} {Q : α → Fs → Prop} {E : Halt → Fs → Prop} :
    wp (liftMm c) Q E s ↔ wp c (fun a mm => Q a { s with mm := mm })
      (fun e mm => E (.ofMm e) { s with mm := mm }) s.mm := by
  unfold wp liftMm
  cases c s.mm <;> rfl

theorem keeps_liftMm_stops {α : Type} {S : Halt → Prop} {c : Mm.M α}
    (hc : Mm.Stops (fun e => S (.ofMm e)) c) :
    Keeps (fun _ => True) (fun e _ => S e) (liftMm c) := fun s _ =>
  wp_liftMm.mpr ((hc s.mm trivial).imp fun _ _ _ => trivial)

theorem Room.mono {n m : ℕ} {refs : Ino → ℕ} (h : Room m refs) (hle : n ≤ m) : Room n refs :=
  fun ip => by have := h ip; omega

/-- The panics that proofs rule out. The operations on blocks and buffers make none
of them. -/
def guarded : List String :=
  ["iput: trying to free free inode", "No free inodes in mem", "_bmap: block<0", "_bmap: block>big"]

/-- The stop is none of them, nor an access outside of an array. -/
def Halt.Plain : Halt → Prop
  | .panic m => m ∉ guarded
  | .wild => False
  | .exit _ | .hang => True

theorem Halt.Plain.ne {e : Halt} (h : e.Plain) {m : String} (hm : m ∈ guarded) : e ≠ .panic m := by
  rintro rfl
  exact h hm

/-- The invariant `I` does not depend on who uses a block, nor on what of an inode
is on the disk. -/
class IgnoresUsers (I : Fs → Prop) (E : Halt → Fs → Prop) : Prop where
  users : ∀ {s : Fs} (u : Dev → BlockNr → ℕ), I s → I { s with users := u }
  setBody : ∀ {s : Fs} {ip : Ino} {n : MInode}, I s → n.count = (s.inode ip).count →
    n.pipe = (s.inode ip).pipe → n.dev = (s.inode ip).dev → n.num = (s.inode ip).num →
    n.mount = (s.inode ip).mount → I (s.setInode ip n)
  stop : ∀ {e : Halt} (s : Fs), e.Plain → E e s

/-- The invariant `I` does not depend on blocks and buffers, nor on what is in
an inode but its count, its device and whether it is a pipe. -/
class IgnoresBlocks (I : Fs → Prop) (E : Halt → Fs → Prop) : Prop where
  congr : ∀ {s s' : Fs}, I s → s'.inode = s.inode → s'.super = s.super → s'.mm = s.mm → I s'
  setInode : ∀ {s : Fs} {ip : Ino} {n : MInode}, I s → n.count = (s.inode ip).count →
    n.pipe = (s.inode ip).pipe → n.dev = (s.inode ip).dev → I (s.setInode ip n)
  stop : ∀ {e : Halt} (s : Fs), e.Plain → E e s

instance (I : Fs → Prop) (E : Halt → Fs → Prop) [IgnoresBlocks I E] : IgnoresUsers I E where
  users _ h := IgnoresBlocks.congr E h rfl rfl rfl
  setBody h hcount hpipe hdev _ _ := IgnoresBlocks.setInode E h hcount hpipe hdev
  stop s h := IgnoresBlocks.stop I s h

/-- The invariant `I` does not depend on the inodes at all. -/
class IgnoresInodes (I : Fs → Prop) (E : Halt → Fs → Prop) : Prop extends IgnoresBlocks I E where
  update : ∀ {s : Fs} (ip : Ino) (n : MInode), I s → I (s.setInode ip n)
  freed : ∀ s, E (.panic "iput: trying to free free inode") s
  page : ∀ addr, Keeps I E (liftMm (Mm.freePage addr))

/-- The stops of `_bmap` are not ruled out. -/
class AllowsBmap (E : Halt → Fs → Prop) : Prop where
  small : ∀ s, E (.panic "_bmap: block<0") s
  big : ∀ s, E (.panic "_bmap: block>big") s

theorem wp_panic {α : Type} {m : String} {Q : α → Fs → Prop} {s : Fs}
    (h : m ≠ "iput: trying to free free inode") : wp (throw (.panic m)) Q NotFree s :=
  wp_throw.mpr (by simpa [NotFree] using h)

theorem Holds.setInode {F : Still} {refs : Ino → ℕ} {s : Fs} {ip : Ino} {n : MInode}
    (h : Holds F refs s) (refs' : Ino → ℕ)
    (hcount : n.count.toNat = refs' ip) (hother : ∀ ip', ip' ≠ ip → refs' ip' = refs ip')
    (hpipe : n.pipe = F.pipe ip) (hdev : F.pipe ip = true → n.dev = 0)
    (hlive : F.pipe ip = true → refs' ip ≠ 0) : Holds F refs' (s.setInode ip n) := by
  have hself : (s.setInode ip n).inode ip = n := update_self ..
  have hne {ip' : Ino} (hi : ip' ≠ ip) : (s.setInode ip n).inode ip' = s.inode ip' :=
    update_of_ne hi ..
  refine ⟨h.mm, fun ip' => ?_, fun ip' => ?_, fun ip' hp => ?_, fun ip' hp => ?_, h.super,
    h.mounted⟩ <;> by_cases hi : ip' = ip
  · rw [hi, hself, hcount]
  · rw [hne hi, hother ip' hi, h.count]
  · rw [hi, hself, hpipe]
  · rw [hne hi, h.pipe]
  · rw [hi, hself]
    exact hdev (hi ▸ hp)
  · rw [hne hi]
    exact h.noDevice ip' hp
  · rw [hi]
    exact hlive (hi ▸ hp)
  · rw [hother ip' hi]
    exact h.live ip' hp

instance (F : Still) (refs : Ino → ℕ) : IgnoresBlocks (Holds F refs) NotFree where
  congr h hinode hsuper hmm := ⟨hmm.trans h.mm, hinode ▸ h.count, hinode ▸ h.pipe,
    hinode ▸ h.noDevice, h.live, hsuper.trans h.super, h.mounted⟩
  setInode {_ ip _} h hcount hpipe hdev :=
    h.setInode refs (by rw [hcount, h.count]) (fun _ _ => rfl) (by rw [hpipe, h.pipe])
      (fun hp => by rw [hdev, h.noDevice ip hp]) (h.live ip)
  stop _ he := he.ne (by decide)

instance : AllowsBmap NotFree := ⟨fun _ => by simp [NotFree], fun _ => by simp [NotFree]⟩

section

variable {block : BlockNr} {create : Bool} {cur : Current} {dev : Dev} {dir ip : Ino} {fuel len : ℕ}
  {i : Fin 64} {name : Word} {rd : RamDisk} {I : Fs → Prop} {E : Halt → Fs → Prop} {α : Type}

theorem keeps_readInodeTable : Keeps I E (readInodeTable ip) :=
  Keeps.get.bind fun _ => .pure _

theorem keeps_getSuper : Keeps I E (getSuper dev) :=
  Keeps.get.bind fun _ => .ite (.pure _) (.pure _)

theorem wp_readTable {f : MInode → FsM α} {Q : α → Fs → Prop} {s : Fs}
    (h : wp (f (s.inode ip)) Q E s) : wp (readInodeTable ip >>= f) Q E s :=
  wp_bind.mpr (wp_bind.mpr (wp_get.mpr (wp_pure.mpr h)))

/-- Setting a state that was read and changed. -/
theorem keeps_get_bind {f : Fs → FsM α} (h : ∀ s, I s → wp (f s) (fun _ => I) E s) :
    Keeps I E (get >>= f) :=
  fun s hs => wp_bind.mpr (wp_get.mpr (h s hs))

section

variable [IgnoresUsers I E]

theorem keeps_panic {m : String} (h : m ∉ guarded) : Keeps I E (throw (.panic m) : FsM α) :=
  .throw fun s _ => IgnoresUsers.stop I s h

theorem keeps_nullPointer : Keeps I E (throw nullPointer : FsM α) :=
  keeps_panic (by decide)

theorem keeps_hang : Keeps I E (throw .hang : FsM α) :=
  .throw fun s _ => IgnoresUsers.stop I s trivial

theorem keeps_bread : Keeps I E (bread rd dev block) :=
  .ite ((Keeps.modify fun _ h => IgnoresUsers.users E _ h).bind fun _ => .pure _) (.pure _)

theorem keeps_brelse : Keeps I E (brelse dev block) :=
  keeps_get_bind fun s hs => wp_ite.mpr ⟨fun _ => keeps_panic (by decide) s hs,
    fun _ => wp_set.mpr (IgnoresUsers.users E _ hs)⟩

/-- What `read_inode` and `truncate` write to an inode. -/
theorem keeps_updateBody {f : MInode → MInode}
    (h : ∀ n, (f n).count = n.count ∧ (f n).pipe = n.pipe ∧ (f n).dev = n.dev ∧
      (f n).num = n.num ∧ (f n).mount = n.mount) : Keeps I E (updateInode ip f) := by
  refine .modify fun s hs => ?_
  obtain ⟨h1, h2, h3, h4, h5⟩ := h (s.inode ip)
  exact IgnoresUsers.setBody E hs h1 h2 h3 h4 h5

theorem keeps_readInode : Keeps I E (readInode rd ip) := by
  refine keeps_readInodeTable.bind fun n => keeps_getSuper.bind fun o => ?_
  cases o with
  | none => exact keeps_panic (by decide)
  | some i =>
    refine Keeps.get.bind fun s => keeps_bread.bind fun b => .ite ?_ (keeps_panic (by decide))
    exact Keeps.get.bind fun s' => (keeps_updateBody (by simp)).bind fun _ => keeps_brelse

theorem keeps_freeEntries {free : Zone → FsM PUnit} (h : ∀ z, Keeps I E (free z)) :
    Keeps I E (freeEntries rd free dev block) :=
  keeps_bread.bind fun _ => Keeps.ite ((Keeps.forN fun _ => Keeps.get.bind fun _ =>
    Keeps.ite (h _) (Keeps.pure _)).bind fun _ => keeps_brelse) (Keeps.pure _)

theorem keeps_truncate_of (hfree : ∀ dev block, Keeps I E (freeBlock dev block)) :
    Keeps I E (truncate rd ip) := by
  have hind (dev : Dev) (z : Zone) : Keeps I E (freeInd rd dev z) :=
    .ite (.pure _) ((keeps_freeEntries fun _ => hfree _ _).bind fun _ => hfree _ _)
  have hdind (dev : Dev) (z : Zone) : Keeps I E (freeDind rd dev z) :=
    .ite (.pure _) ((keeps_freeEntries fun _ => hind _ _).bind fun _ => hfree _ _)
  refine keeps_readInodeTable.bind fun n => Keeps.ite (Keeps.pure _) ((Keeps.forN fun i => ?_).bind
    fun _ => (hind _ _).bind fun _ => (hdind _ _).bind fun _ => Keeps.get.bind fun s => ?_)
  · exact keeps_readInodeTable.bind fun n => Keeps.ite ((hfree _ _).bind fun _ =>
      keeps_updateBody (by simp)) (Keeps.pure _)
  · exact keeps_updateBody (by simp)

end

variable [IgnoresBlocks I E]

/-- A change that leaves the inodes, the mounts and the memory alone. -/
theorem keeps_modify {f : Fs → Fs}
    (h : ∀ s, (f s).inode = s.inode ∧ (f s).super = s.super ∧ (f s).mm = s.mm) :
    Keeps I E (modify f : FsM PUnit) :=
  .modify fun s hs => IgnoresBlocks.congr E hs (h s).1 (h s).2.1 (h s).2.2

theorem keeps_updateInode {f : MInode → MInode}
    (h : ∀ n, (f n).count = n.count ∧ (f n).pipe = n.pipe ∧ (f n).dev = n.dev) :
    Keeps I E (updateInode ip f) := by
  refine .modify fun s hs => ?_
  obtain ⟨h1, h2, h3⟩ := h (s.inode ip)
  exact IgnoresBlocks.setInode E hs h1 h2 h3

theorem keeps_updateData {f : Block → Block} : Keeps I E (updateData dev block f) :=
  keeps_modify fun _ => ⟨rfl, rfl, rfl⟩

/-! ### Blocks -/

theorem keeps_freeBlock : Keeps I E (freeBlock dev block) := by
  refine keeps_getSuper.bind fun o => ?_
  cases o with
  | none => exact keeps_panic (by decide)
  | some i =>
    refine keeps_get_bind fun s hs => wp_ite.mpr ⟨fun _ => ?_, fun _ => wp_ite.mpr
      ⟨fun _ => wp_set.mpr (IgnoresBlocks.congr E hs rfl rfl rfl), fun _ => ?_⟩⟩
    · exact keeps_panic (by decide) s hs
    · have hset : I (s.setData dev block (s.stale dev block)) := IgnoresBlocks.congr E hs rfl rfl rfl
      rw [wp_bind, wp_set]
      dsimp only
      split
      · split
        · exact keeps_nullPointer _ hset
        · exact Keeps.get.bind (fun _ => .ite keeps_updateData (keeps_panic (by decide))) _ hset
      · exact keeps_nullPointer _ hset

theorem keeps_newBlock : Keeps I E (newBlock dev) := by
  refine keeps_getSuper.bind fun o => ?_
  cases o with
  | none => exact keeps_panic (by decide)
  | some i =>
    refine Keeps.get.bind fun s => ?_
    dsimp only
    split
    · exact .pure _
    · exact keeps_updateData.bind fun _ => .ite (.pure _) (.bind .get fun s' =>
        .ite (keeps_panic (by decide)) (keeps_updateData.bind fun _ => .pure _))

theorem keeps_writeInode : Keeps I E (writeInode rd ip) := by
  refine keeps_readInodeTable.bind fun n => .ite (.pure _) (keeps_getSuper.bind fun o => ?_)
  cases o with
  | none => exact keeps_panic (by decide)
  | some i =>
    refine Keeps.get.bind fun s => keeps_bread.bind fun b => .ite ?_ (keeps_panic (by decide))
    exact keeps_updateData.bind fun _ => (keeps_updateInode (by simp)).bind fun _ => keeps_brelse

theorem keeps_syncDev : Keeps I E (syncDev rd) :=
  .forN fun _ => keeps_readInodeTable.bind fun _ => .ite keeps_writeInode (.pure _)

theorem keeps_inodeZone {k : Fin 9} : Keeps I E (inodeZone create ip k) := by
  refine keeps_readInodeTable.bind fun n => .ite (keeps_newBlock.bind fun z => Keeps.get.bind
    fun s => ?_) (.pure _)
  refine (keeps_updateInode (by simp)).bind fun _ => .ite ?_ (.pure _)
  exact (keeps_updateInode (by simp)).bind fun _ => .pure _

theorem keeps_indirectZone {k : Fin 512} : Keeps I E (indirectZone rd create dev block k) := by
  refine keeps_bread.bind fun b => .ite (.bind .get fun s => .ite ?_
    (keeps_brelse.bind fun _ => .pure _)) (.pure _)
  refine keeps_newBlock.bind fun z => .ite ?_ (keeps_brelse.bind fun _ => .pure _)
  exact keeps_updateData.bind fun _ => keeps_brelse.bind fun _ => .pure _

/-- A block in range. -/
theorem keeps_bmapWith_of_lt {block : ℤ} (h0 : 0 ≤ block)
    (hmax : block < maxBlocks) : Keeps I E (bmapWith rd create ip block) := by
  refine keeps_readInodeTable.bind fun n => ?_
  rw [if_neg (not_lt.mpr h0), if_neg (not_le.mpr hmax)]
  refine .ite keeps_inodeZone (.ite ?_ ?_)
  · exact keeps_inodeZone.bind fun z => .ite (.pure _) keeps_indirectZone
  · exact keeps_inodeZone.bind fun z => .ite (.pure _) (keeps_indirectZone.bind fun z' =>
      .ite (.pure _) keeps_indirectZone)

theorem keeps_truncate : Keeps I E (truncate rd ip) :=
  keeps_truncate_of fun _ _ => keeps_freeBlock

section

variable {I : Fs → Prop} {E : Halt → Fs → Prop} [IgnoresInodes I E]

theorem keeps_updateInode_any {ip : Ino} {f : MInode → MInode} : Keeps I E (updateInode ip f) :=
  .modify fun _ h => IgnoresInodes.update E ip _ h

theorem keeps_freeInode {ip : Ino} : Keeps I E (freeInode ip) := by
  refine keeps_readInodeTable.bind fun n => .ite keeps_updateInode_any
    (.ite (keeps_panic (by decide)) (.ite (keeps_panic (by decide))
      (keeps_getSuper.bind fun o => ?_)))
  cases o with
  | none => exact keeps_panic (by decide)
  | some i =>
    refine Keeps.get.bind fun s => .ite (keeps_panic (by decide)) ?_
    split
    · exact keeps_panic (by decide)
    · exact keeps_updateData.bind fun _ => keeps_updateInode_any

theorem keeps_iput (o : Option Ino) : Keeps I E (iput rd o) := by
  cases o with
  | none => exact .pure _
  | some ip =>
    refine keeps_readInodeTable.bind fun n =>
      .ite (.throw fun s _ => IgnoresInodes.freed I s)
        (.ite (keeps_updateInode_any.bind fun _ => .ite (.pure _) ?_)
          (.ite keeps_updateInode_any ?_))
    · exact (IgnoresInodes.page n.size).bind fun _ => keeps_updateInode_any
    · have hrest : Keeps I E (do
          if 1 < n.count then
            updateInode ip fun n => { n with count := n.count - 1 }
          else if n.nlinks = 0 then
            truncate rd ip
            freeInode ip
          else
            writeInode rd ip
            updateInode ip fun n => { n with count := n.count - 1 }) :=
        .ite keeps_updateInode_any (.ite (keeps_truncate.bind fun _ => keeps_freeInode)
          (keeps_writeInode.bind fun _ => keeps_updateInode_any))
      exact .ite (keeps_syncDev.bind fun _ => hrest) hrest

end

/-- Reading user memory changes nothing. -/
theorem keeps_getFsByte {addr : Word} : Keeps I E (getFsByte cur addr) := by
  intro s hs
  rw [getFsByte, wp_liftMm, Mm.getFsByte, Mm.getFs, wp_bind, wp_get, wp_ite]
  have hexit : E (.ofMm (.exit 11)) s := IgnoresBlocks.stop I s trivial
  exact ⟨fun _ => wp_bind.mpr (wp_throw.mpr hexit), fun _ => wp_pure.mpr hs⟩

theorem keeps_matchBytes {b : Block}
    (ks : List (Fin 14)) : Keeps I E (matchBytes cur name b i ks) := by
  induction ks with
  | nil => exact .pure _
  | cons k ks ih => exact keeps_getFsByte.bind fun c => .ite (.pure _) ih

theorem keeps_matchEntry {b : Block} : Keeps I E (matchEntry cur len name b i) := by
  refine .ite (.pure _) ?_
  split
  · exact .ite (.pure _) (keeps_matchBytes _)
  · exact keeps_matchBytes _

theorem keeps_copyName : Keeps I E (copyName cur name len dev block i) :=
  Keeps.forN fun _ => Keeps.ite (keeps_getFsByte.bind fun _ => keeps_updateData)
    ((Keeps.pure _).bind fun _ => keeps_updateData)

theorem keeps_scanName {p : Word} : Keeps I E (scanName cur fuel p len) := by
  induction fuel generalizing p len with
  | zero => exact keeps_hang
  | succ fuel ih => exact keeps_getFsByte.bind fun c => .ite (.pure _) ih

theorem keeps_scanBase {p base : Word} : Keeps I E (scanBase cur fuel p base) := by
  induction fuel generalizing p base with
  | zero => exact keeps_hang
  | succ fuel ih =>
    exact keeps_getFsByte.bind fun c => .ite (.pure _) (.ite ih ih)

/-! ### Directories -/

variable [AllowsBmap E]

theorem keeps_bmapWith {block : ℤ} : Keeps I E (bmapWith rd create ip block) := by
  by_cases h0 : block < 0
  · refine keeps_readInodeTable.bind fun n => ?_
    rw [if_pos h0]
    exact .throw fun s _ => AllowsBmap.small s
  by_cases hmax : (maxBlocks : ℤ) ≤ block
  · refine keeps_readInodeTable.bind fun n => ?_
    rw [if_neg h0, if_pos hmax]
    exact .throw fun s _ => AllowsBmap.big s
  · exact keeps_bmapWith_of_lt (not_lt.mp h0) (not_le.mp hmax)

theorem keeps_findFrom {entries i : ℕ} :
    Keeps I E (findFrom rd cur dir name len entries fuel i block) := by
  induction fuel generalizing i block with
  | zero => exact keeps_hang
  | succ fuel ih =>
    have hlook (dev : Dev) (block : BlockNr) : Keeps I E (do
        let b := (← get).data dev block
        if ← matchEntry cur len name b (Fin.ofNat 64 i) then
          return some (block, Fin.ofNat 64 i)
        else
          findFrom rd cur dir name len entries fuel (i + 1) block) :=
      Keeps.get.bind fun _ => keeps_matchEntry.bind fun _ => .ite (.pure _) ih
    have hskip : Keeps I E
        (if entries ≤ i + 64 then return none else throw nullPointer : FsM (Option Entry)) :=
      .ite (.pure _) keeps_nullPointer
    refine keeps_readInodeTable.bind fun n => .ite (keeps_brelse.bind fun _ => .pure _)
      (.ite ?_ (hlook _ _))
    exact keeps_brelse.bind fun _ => keeps_bmapWith.bind fun z => .ite hskip
      (keeps_bread.bind fun _ => .ite (hlook _ _) hskip)

theorem keeps_addFrom {i : ℕ} : Keeps I E (addFrom rd cur dir name len fuel i block) := by
  induction fuel generalizing i block with
  | zero => exact keeps_hang
  | succ fuel ih =>
    have htake (dev : Dev) (now : Word) (block : BlockNr) : Keeps I E (do
        if dirInode ((← get).data dev block) (Fin.ofNat 64 i) = 0 then
          updateInode dir fun n => { n with mtime := now }
          copyName cur name len dev block (Fin.ofNat 64 i)
          return some (block, Fin.ofNat 64 i)
        else
          addFrom rd cur dir name len fuel (i + 1) block) :=
      Keeps.get.bind fun _ => .ite ((keeps_updateInode (by simp)).bind fun _ => keeps_copyName.bind fun _ =>
          .pure _) ih
    have hlook (dev : Dev) (now : Word) (block : BlockNr) : Keeps I E (do
        let n ← readInodeTable dir
        if n.size.toNat ≤ 16 * i then
          updateData dev block fun b => setDirInode b (Fin.ofNat 64 i) 0
          updateInode dir fun n =>
            { n with size := .ofNat 32 (16 * (i + 1)), dirt := true, ctime := now }
        if dirInode ((← get).data dev block) (Fin.ofNat 64 i) = 0 then
          updateInode dir fun n => { n with mtime := now }
          copyName cur name len dev block (Fin.ofNat 64 i)
          return some (block, Fin.ofNat 64 i)
        else
          addFrom rd cur dir name len fuel (i + 1) block) :=
      keeps_readInodeTable.bind fun n => .ite (keeps_updateData.bind fun _ =>
        (keeps_updateInode (by simp)).bind fun _ => htake _ _ _)
        (htake _ _ _)
    refine keeps_readInodeTable.bind fun n => Keeps.get.bind fun s => .ite ?_ (hlook _ _ _)
    exact keeps_brelse.bind fun _ => keeps_bmapWith.bind fun z => .ite (.pure _)
      (keeps_bread.bind fun _ => .ite (hlook _ _ _) keeps_nullPointer)

theorem keeps_addEntry {namelen : ℕ} : Keeps I E (addEntry rd cur dir name namelen) :=
  keeps_readInodeTable.bind fun _ => .ite (.pure _) (.ite (.pure _)
    (keeps_bread.bind fun _ => .ite keeps_addFrom (.pure _)))

theorem keeps_emptyFrom {nr : ℕ} : Keeps I E (emptyFrom rd ip len fuel nr block) := by
  induction fuel generalizing nr block with
  | zero => exact keeps_hang
  | succ fuel ih =>
    have hlook (dev : Dev) (block : BlockNr) : Keeps I E (do
        if dirInode ((← get).data dev block) (Fin.ofNat 64 nr) ≠ 0 then
          brelse dev block
          return false
        else
          emptyFrom rd ip len fuel (nr + 1) block) :=
      Keeps.get.bind fun _ => .ite (keeps_brelse.bind fun _ => .pure _) ih
    refine keeps_readInodeTable.bind fun n => .ite (keeps_brelse.bind fun _ => .pure _)
      (.ite ?_ (hlook _ _))
    exact keeps_brelse.bind fun _ => keeps_bmapWith.bind fun z => .ite ih
      (keeps_bread.bind fun _ => .ite (hlook _ _) (.pure _))

theorem keeps_emptyDir : Keeps I E (emptyDir rd ip) :=
  keeps_readInodeTable.bind fun _ => .ite (.pure _) (keeps_bread.bind fun _ => .ite
    (.bind .get fun _ => .ite (.pure _) keeps_emptyFrom) (.pure _))

end

/-! ### Taking and putting inodes -/

section

variable {base name pathname : Word} {dev : Dev} {dir : Ino} {e : Option Entry}
  {mode nr : BitVec 16} {namelen : ℕ} {rd : RamDisk} {F : Still} {refs : Ino → ℕ} {s : Fs}
  {ip : Ino}

theorem Holds.refer (h : Holds F refs s) (hroom : refs ip + 1 < 2 ^ 16) : Holds F (addRef refs ip)
      (s.setInode ip { s.inode ip with count := (s.inode ip).count + 1 }) := by
  refine h.setInode _ ?_ (fun ip' hne => addRef_of_ne _ hne) (h.pipe ip) (h.noDevice ip)
    fun _ => by rw [addRef_self]; exact Nat.succ_ne_zero _
  rw [addRef_self, ← h.count ip]
  rw [← h.count ip] at hroom
  simp only [BitVec.toNat_add]
  exact Nat.mod_eq_of_lt hroom

theorem Holds.dropRef (h : Holds F (addRef refs ip) s) (hip : F.pipe ip = false) :
    Holds F refs (s.setInode ip { s.inode ip with count := (s.inode ip).count - 1 }) := by
  have hcount := h.count ip
  rw [addRef_self] at hcount
  have hfalse : ¬ F.pipe ip = true := by simp [hip]
  refine h.setInode _ ?_ (fun ip' hne => (addRef_of_ne _ hne).symm) (h.pipe ip)
    (fun hp => absurd hp hfalse) fun hp => absurd hp hfalse
  have hone : (1 : BitVec 16).toNat = 1 := rfl
  rw [BitVec.toNat_sub, hone, hcount]
  have hlt := (s.inode ip).count.isLt
  omega

/-- The last reference goes with the inode. -/
theorem Holds.clear (h : Holds F (addRef refs ip) s) (hip : F.pipe ip = false)
    (hlast : refs ip = 0) : Holds F refs (s.setInode ip .cleared) := by
  have hfalse : ¬ F.pipe ip = true := by simp [hip]
  exact h.setInode _ hlast.symm (fun ip' hne => (addRef_of_ne _ hne).symm) hip.symm
    (fun hp => absurd hp hfalse) fun hp => absurd hp hfalse

theorem Holds.wp_freeInode (h : Holds F (addRef refs ip) s) (hip : F.pipe ip = false)
    (hlast : refs ip = 0) : wp (freeInode ip) (fun _ => Holds F refs) NotFree s := by
  have hclear {s : Fs} (h : Holds F (addRef refs ip) s) :
      wp (updateInode ip fun _ => .cleared) (fun _ => Holds F refs) NotFree s :=
    wp_modify.mpr (h.clear hip hlast)
  rw [freeInode, wp_bind, readInodeTable, wp_bind, wp_get, wp_pure, wp_ite]
  refine ⟨fun _ => hclear h, fun _ => wp_ite.mpr ⟨fun _ => wp_panic (by decide), fun _ =>
    wp_ite.mpr ⟨fun _ => wp_panic (by decide), fun _ => ?_⟩⟩⟩
  refine keeps_getSuper.next h fun o s h => ?_
  cases o with
  | none => exact wp_panic (by decide)
  | some i =>
    rw [wp_bind, wp_get, wp_ite]
    refine ⟨fun _ => wp_panic (by decide), fun _ => ?_⟩
    split
    · exact wp_panic (by decide)
    · exact keeps_updateData.next h fun _ s h => hclear h

/-- `iput` of an inode that is not a pipe takes one reference away. -/
theorem Holds.wp_iput (h : Holds F (addRef refs ip) s) (hip : F.pipe ip = false) :
    wp (iput rd (some ip)) (fun _ => Holds F refs) NotFree s := by
  have hpos : (s.inode ip).count ≠ 0 := by
    intro h0
    have hcount := h.count ip
    rw [h0, addRef_self] at hcount
    exact absurd hcount (Nat.succ_ne_zero _).symm
  have hdrop {s : Fs} (h : Holds F (addRef refs ip) s) :
      wp (updateInode ip fun n => { n with count := n.count - 1 }) (fun _ => Holds F refs)
        NotFree s :=
    wp_modify.mpr (h.dropRef hip)
  rw [iput, wp_bind, readInodeTable, wp_bind, wp_get, wp_pure, if_neg hpos, h.pipe, hip,
    if_neg Bool.false_ne_true, wp_ite]
  refine ⟨fun _ => hdrop h, fun _ => ?_⟩
  -- the count is as it was read, whatever `sync_dev` writes
  have hrest {s' : Fs} (h' : Holds F (addRef refs ip) s') : wp (do
      if 1 < (s.inode ip).count then
        updateInode ip fun n => { n with count := n.count - 1 }
      else if (s.inode ip).nlinks = 0 then
        truncate rd ip
        freeInode ip
      else
        writeInode rd ip
        updateInode ip fun n => { n with count := n.count - 1 }) (fun _ => Holds F refs)
        NotFree s' := by
    refine wp_ite.mpr ⟨fun _ => hdrop h', fun hone => wp_ite.mpr ⟨fun _ => ?_, fun _ => ?_⟩⟩
    · have hlast : refs ip = 0 := by
        have hcount := h.count ip
        rw [addRef_self] at hcount
        have hle := BitVec.le_def.mp (BitVec.not_lt.mp hone)
        rw [hcount] at hle
        exact Nat.le_zero.mp (Nat.le_of_succ_le_succ hle)
      exact keeps_truncate.next h' fun _ s'' h'' => h''.wp_freeInode hip hlast
    · exact keeps_writeInode.next h' fun _ s'' h'' => hdrop h''
  refine wp_ite.mpr ⟨fun _ => wp_bind.mpr ?_, fun _ => hrest h⟩
  exact (keeps_syncDev s h).imp fun _ s' h' => hrest h'

/-- An inode nobody holds is taken. -/
theorem Holds.take {n : MInode} (h : Holds F refs s) (hfree : (s.inode ip).count = 0)
    (hcount : n.count = 1) (hpipe : n.pipe = false) (hdev : n.dev = 0) :
    Holds F (addRef refs ip) (s.setInode ip n) ∧ F.pipe ip = false ∧ refs ip = 0 ∧
      ((s.setInode ip n).inode ip).dev = 0 := by
  have hzero : refs ip = 0 := by rw [← h.count ip, hfree]; rfl
  have hip : F.pipe ip = false := Bool.eq_false_iff.mpr fun hp => h.live ip hp hzero
  refine ⟨h.setInode _ ?_ (fun ip' hne => addRef_of_ne _ hne) (hpipe.trans hip.symm)
    (fun hp => absurd hp (by simp [hip])) fun hp => absurd hp (by simp [hip]), hip, hzero, ?_⟩
  · rw [hcount, addRef_self, hzero]
    rfl
  · exact (congrArg MInode.dev (update_self ..)).trans hdev

theorem Holds.wp_getEmptyInode (h : Holds F refs s) : wp (getEmptyInode rd)
    (fun ip s' => Holds F (addRef refs ip) s' ∧ F.pipe ip = false ∧ refs ip = 0 ∧
      (s'.inode ip).dev = 0) NotFree s := by
  rw [getEmptyInode, wp_bind, wp_get]
  dsimp only
  split
  · next ip hfind =>
    have hfree : (s.inode ip).count = 0 := (by simpa using List.find?_some hfind : _ ∧ _).1
    have h' : Holds F refs { s with lastInode := ip } := IgnoresBlocks.congr NotFree h rfl rfl rfl
    rw [wp_bind, wp_set, wp_bind, updateInode, wp_modify, wp_pure]
    exact h'.take hfree rfl rfl rfl
  · split
    · exact wp_panic (by decide)
    · next ip hfind =>
      have hfree : (s.inode ip).count = 0 := by simpa using List.find?_some hfind
      have hzero : refs ip = 0 := by rw [← h.count ip, hfree]; rfl
      refine keeps_writeInode.next h fun _ s' h' => ?_
      rw [wp_bind, wp_get, wp_ite]
      refine ⟨fun _ => wp_throw.mpr (by simp [NotFree]), fun _ => ?_⟩
      rw [wp_bind, updateInode, wp_modify, wp_pure]
      refine h'.take ?_ rfl rfl rfl
      exact BitVec.eq_of_toNat_eq ((h'.count ip).trans hzero)

/-- The search of `iget`, with the empty inode still held. -/
theorem Holds.wp_igetFrom {empty : Ino} {fuel : ℕ}
    (h : Holds F (addRef refs empty) s) (hempty : F.pipe empty = false) (hdev : dev ≠ 0)
    (hroom : Room 2 refs) : wp (igetFrom rd empty fuel dev nr)
      (fun ip s' => Holds F (addRef refs ip) s' ∧ F.pipe ip = false) NotFree s := by
  induction fuel generalizing s dev nr with
  | zero => exact wp_throw.mpr (by simp [NotFree])
  | succ fuel ih =>
    rw [igetFrom, wp_bind, wp_get]
    split
    · -- not in the table: the empty inode becomes it
      have hset : Holds F (addRef refs empty)
          (s.setInode empty { s.inode empty with dev := dev, num := nr }) :=
        h.setInode _ (h.count empty) (fun _ _ => rfl) (h.pipe empty)
          (fun hp => absurd hp (by simp [hempty])) (h.live empty)
      rw [wp_bind, updateInode, wp_modify]
      exact (keeps_readInode _ hset).next fun _ s' h' => wp_pure.mpr ⟨h', hempty⟩
    · next ip hfind =>
      have hfound : (s.inode ip).dev = dev ∧ (s.inode ip).num = nr := by
        simpa using List.find?_some hfind
      have hip : F.pipe ip = false := Bool.eq_false_iff.mpr fun hp =>
        hdev (hfound.1.symm.trans (h.noDevice ip hp))
      have hadd := h.refer (hroom.addRef empty ip)
      -- the empty inode is put back
      have hdone : wp (do iput rd (some empty); return ip)
          (fun ip s' => Holds F (addRef refs ip) s' ∧ F.pipe ip = false) NotFree
          (s.setInode ip { s.inode ip with count := (s.inode ip).count + 1 }) := by
        rw [addRef_comm] at hadd
        exact (hadd.wp_iput hempty).next fun _ s' h' => wp_pure.mpr ⟨h', hip⟩
      rw [wp_bind, updateInode, wp_modify, wp_ite]
      refine ⟨fun _ => ?_, fun _ => hdone⟩
      split
      · exact hdone
      · next i hsuper =>
        have himount : (s.super i).imount = some ip := by simpa using List.find?_some hsuper
        rw [h.super] at himount
        refine (hadd.wp_iput hip).next fun _ s' h' => ?_
        rw [h.super]
        exact ih h' (h.mounted i ip himount).2

theorem Holds.wp_iget (h : Holds F refs s) (hroom : Room 2 refs) :
    wp (iget rd dev nr) (fun ip s' => Holds F (addRef refs ip) s' ∧ F.pipe ip = false)
      NotFree s := by
  refine wp_ite.mpr ⟨fun _ => wp_panic (by decide), fun hdev => ?_⟩
  exact h.wp_getEmptyInode.next fun empty s' h' => h'.1.wp_igetFrom h'.2.1 hdev hroom

/-- What a search returns: nothing, or an inode with a reference. -/
def Found (F : Still) (refs : Ino → ℕ) (o : Option Ino) (s : Fs) : Prop :=
  match o with
  | none => Holds F refs s
  | some ip => Holds F (addRef refs ip) s ∧ F.pipe ip = false

/-- `iput`, and what is returned says that nothing is left. -/
theorem Holds.wp_iput_pure {α : Type} {a : α} {Q : α → Fs → Prop} (h : Holds F (addRef refs ip) s)
    (hip : F.pipe ip = false) (hQ : ∀ s, Holds F refs s → Q a s) :
    wp (do iput rd (some ip); return a) Q NotFree s :=
  (h.wp_iput hip).next fun _ s h => wp_pure.mpr (hQ s h)

theorem Holds.wp_newInode {cur : Current} (h : Holds F refs s) :
    wp (newInode rd cur dev) (Found F refs) NotFree s := by
  refine h.wp_getEmptyInode.next fun ip s' h' => ?_
  obtain ⟨h', hip, hzero, -⟩ := h'
  refine keeps_getSuper.next h' fun o s' h' => ?_
  cases o with
  | none => exact wp_panic (by decide)
  | some i =>
    have hback : wp (do iput rd (some ip); return none) (Found F refs) NotFree s' :=
      h'.wp_iput_pure hip fun _ => id
    rw [wp_bind, wp_get]
    dsimp only
    split
    · exact hback
    · refine wp_ite.mpr ⟨fun _ => hback, fun _ => ?_⟩
      refine keeps_updateData.next h' fun _ s'' h'' => ?_
      rw [wp_bind, updateInode, wp_modify, wp_pure]
      refine ⟨h''.setInode _ ?_ (fun _ _ => rfl) (h''.pipe ip)
        (fun hp => absurd hp (by simp [hip])) (h''.live ip), hip⟩
      rw [addRef_self, hzero]
      rfl

/-! ### Names -/

/-- The inodes a task starts from are no pipes. -/
structure Current.Plain (F : Still) (cur : Current) : Prop where
  root : ∀ ip, cur.root = some ip → F.pipe ip = false
  pwd : ∀ ip, cur.pwd = some ip → F.pipe ip = false

variable {cur : Current}

/-- The directory may become the one it is mounted on. -/
theorem Holds.wp_dotDot {len : ℕ} (h : Holds F (addRef refs dir) s)
    (hdir : F.pipe dir = false) (hroom : Room 1 refs) : wp (dotDot rd cur dir name len)
      (fun r s' => Holds F (addRef refs r.1) s' ∧ F.pipe r.1 = false) NotFree s := by
  have hsame {s : Fs} {len : ℕ} (h : Holds F (addRef refs dir) s) :
      wp (pure (dir, len)) (fun r s' => Holds F (addRef refs r.1) s' ∧ F.pipe r.1 = false)
        NotFree s := wp_pure.mpr ⟨h, hdir⟩
  refine wp_ite.mpr ⟨fun _ => ?_, fun _ => hsame h⟩
  refine keeps_getFsByte.next h fun c s h => wp_ite.mpr ⟨fun _ => ?_, fun _ => hsame h⟩
  refine keeps_getFsByte.next h fun c s h => wp_ite.mpr ⟨fun _ => ?_, fun _ => hsame h⟩
  refine wp_readTable <| wp_ite.mpr ⟨fun _ => hsame h,
    fun _ => wp_ite.mpr ⟨fun _ => ?_, fun _ => hsame h⟩⟩
  refine keeps_getSuper.next h fun o s h => ?_
  cases o with
  | none => exact wp_panic (by decide)
  | some i =>
    rw [wp_bind, wp_get]
    split
    · exact hsame h
    · next dir' himount =>
      rw [h.super] at himount
      refine (h.wp_iput hdir).next fun _ s h => ?_
      rw [wp_bind, updateInode, wp_modify, wp_pure]
      exact ⟨h.refer (hroom dir'), (h.mounted i dir' himount).1⟩

theorem Holds.wp_findEntry (h : Holds F (addRef refs dir) s) (hdir : F.pipe dir = false)
    (hroom : Room 1 refs) : wp (findEntry rd cur dir name namelen)
      (fun r s' => Holds F (addRef refs r.1) s' ∧ F.pipe r.1 = false) NotFree s := by
  refine wp_readTable <| wp_ite.mpr ⟨fun _ => wp_pure.mpr ⟨h, hdir⟩, fun _ => ?_⟩
  refine (h.wp_dotDot hdir hroom).next fun r s hr => ?_
  obtain ⟨dir, len⟩ := r
  obtain ⟨h, hdir⟩ := hr
  refine wp_readTable <| wp_ite.mpr ⟨fun _ => wp_pure.mpr ⟨h, hdir⟩, fun _ => ?_⟩
  refine keeps_bread.next h fun b s h => wp_ite.mpr
    ⟨fun _ => wp_bind.mpr ?_, fun _ => wp_pure.mpr ⟨h, hdir⟩⟩
  exact (keeps_findFrom s h).imp fun r s h => wp_pure.mpr ⟨h, hdir⟩

theorem Holds.wp_getDirFrom {fuel : ℕ} {thisname : Word} (h : Holds F (addRef refs ip) s)
    (hip : F.pipe ip = false) (hroom : Room 2 refs) :
    wp (getDirFrom rd cur fuel ip thisname) (Found F refs) NotFree s := by
  induction fuel generalizing ip thisname s with
  | zero => exact wp_throw.mpr (by simp [NotFree])
  | succ fuel ih =>
    refine wp_readTable <| wp_ite.mpr ⟨fun _ => h.wp_iput_pure hip fun _ => id, fun _ => ?_⟩
    refine keeps_scanName.next h fun r s h => wp_ite.mpr
      ⟨fun _ => wp_pure.mpr ⟨h, hip⟩, fun _ => ?_⟩
    refine (h.wp_findEntry hip (hroom.mono (by decide))).next fun r s hr => ?_
    obtain ⟨ip, o⟩ := r
    obtain ⟨h, hip⟩ := hr
    cases o with
    | none => exact h.wp_iput_pure hip fun _ => id
    | some e =>
      refine wp_readTable ?_
      rw [wp_bind, wp_get]
      refine keeps_brelse.next h fun _ s h => ?_
      refine (h.wp_iput hip).next fun _ s h => ?_
      exact (h.wp_iget hroom).next fun ip s h => ih h.1 h.2

theorem Holds.wp_getDir (h : Holds F refs s) (hcur : cur.Plain F)
    (hroom : Room 2 refs) : wp (getDir rd cur pathname) (Found F refs) NotFree s := by
  rw [getDir, wp_bind, wp_get]
  split
  · exact wp_panic (by decide)
  · next _ root hroot =>
    refine wp_ite.mpr ⟨fun _ => wp_panic (by decide), fun _ => ?_⟩
    split
    · exact wp_panic (by decide)
    · next pwd hpwd =>
      refine wp_ite.mpr ⟨fun _ => wp_panic (by decide), fun _ => ?_⟩
      refine keeps_getFsByte.next h fun c s h => wp_ite.mpr ⟨fun _ => wp_pure.mpr h, fun _ => ?_⟩
      have hstart (ip : Ino) (hip : F.pipe ip = false) (pathname : Word) : wp (do
          updateInode ip fun n => { n with count := n.count + 1 }
          getDirFrom rd cur maxString ip pathname) (Found F refs) NotFree s := by
        rw [wp_bind, updateInode, wp_modify]
        exact (h.refer (hroom.mono (by decide) ip)).wp_getDirFrom hip hroom
      by_cases hc : c = 0x2f
      · simp only [hc, if_true]
        exact hstart root (hcur.root root hroot) _
      · simp only [hc, if_false]
        exact hstart pwd (hcur.pwd pwd hpwd) _

theorem Holds.wp_dirNamei (h : Holds F refs s) (hcur : cur.Plain F) (hroom : Room 2 refs) :
    wp (dirNamei rd cur pathname) (fun o => Found F refs (o.map fun r => r.1)) NotFree s := by
  refine (h.wp_getDir hcur hroom).next fun o s h => ?_
  cases o with
  | none => exact wp_pure.mpr h
  | some dir =>
    exact (keeps_scanBase s h.1).next fun r s h' => wp_pure.mpr ⟨h', h.2⟩

theorem Holds.wp_namei (h : Holds F refs s) (hcur : cur.Plain F)
    (hroom : Room 2 refs) : wp (namei rd cur pathname) (Found F refs) NotFree s := by
  refine (h.wp_dirNamei hcur hroom).next fun o s h => ?_
  cases o with
  | none => exact wp_pure.mpr h
  | some r =>
    obtain ⟨dir, namelen, base⟩ := r
    obtain ⟨h, hdir⟩ := h
    refine wp_ite.mpr ⟨fun _ => wp_pure.mpr ⟨h, hdir⟩, fun _ => ?_⟩
    refine (h.wp_findEntry hdir (hroom.mono (by decide))).next fun r s hr => ?_
    obtain ⟨dir, o⟩ := r
    obtain ⟨h, hdir⟩ := hr
    cases o with
    | none => exact h.wp_iput_pure hdir fun _ => id
    | some e =>
      refine wp_readTable ?_
      rw [wp_bind, wp_get]
      refine keeps_brelse.next h fun _ s h => ?_
      refine (h.wp_iput hdir).next fun _ s h => ?_
      refine (h.wp_iget hroom).next fun ip s h => ?_
      rw [wp_bind, wp_get]
      refine (keeps_updateInode (by simp)).next h.1 fun _ s h' => ?_
      exact wp_pure.mpr ⟨h', h.2⟩

/-! ### The calls -/

/-- What `open_namei` returns. -/
def Opened (F : Still) (refs : Ino → ℕ) (r : Except ℤ Ino) (s : Fs) : Prop := Found F refs r.toOption s

theorem Holds.wp_openCreate (h : Holds F (addRef refs dir) s) (hdir : F.pipe dir = false) :
    wp (openCreate rd cur dir base namelen mode) (Opened F refs) NotFree s := by
  refine wp_readTable <| wp_ite.mpr ⟨fun _ => h.wp_iput_pure hdir fun _ => id, fun _ => ?_⟩
  refine h.wp_newInode.next fun o s h => ?_
  cases o with
  | none => exact wp_iput_pure h hdir fun _ => id
  | some ip =>
    obtain ⟨h, hip⟩ := h
    refine (keeps_updateInode (by simp)).next h fun _ s h => ?_
    refine keeps_addEntry.next h fun o s h => ?_
    cases o with
    | none =>
      refine (keeps_updateInode (by simp)).next h fun _ s h => ?_
      exact (h.wp_iput hip).next fun _ s h => h.wp_iput_pure hdir fun _ => id
    | some e =>
      refine wp_readTable ?_
      refine wp_readTable ?_
      refine keeps_updateData.next h fun _ s h => ?_
      refine keeps_brelse.next h fun _ s h => ?_
      rw [addRef_comm] at h
      exact (h.wp_iput hdir).next fun _ s h => wp_pure.mpr ⟨h, hip⟩

theorem Holds.wp_openExisting {flag : Word} (h : Holds F refs s) (hroom : Room 2 refs) :
    wp (openExisting rd cur dev nr flag) (Opened F refs) NotFree s := by
  refine wp_ite.mpr ⟨fun _ => wp_pure.mpr h, fun _ => ?_⟩
  refine (h.wp_iget hroom).next fun ip s h => ?_
  obtain ⟨h, hip⟩ := h
  refine wp_readTable <| wp_ite.mpr ⟨fun _ => h.wp_iput_pure hip fun _ => id, fun _ => ?_⟩
  rw [wp_bind, wp_get]
  refine (keeps_updateInode (by simp)).next h fun _ s h => wp_ite.mpr
    ⟨fun _ => wp_bind.mpr ?_, fun _ => wp_pure.mpr ⟨h, hip⟩⟩
  exact (keeps_truncate s h).imp fun _ s h => wp_pure.mpr ⟨h, hip⟩

theorem Holds.wp_openNamei {flag mode : Word} (h : Holds F refs s) (hcur : cur.Plain F)
    (hroom : Room 2 refs) : wp (openNamei rd cur pathname flag mode) (Opened F refs) NotFree s := by
  refine (h.wp_dirNamei hcur hroom).next fun o s h => ?_
  cases o with
  | none => exact wp_pure.mpr h
  | some r =>
    obtain ⟨dir, namelen, base⟩ := r
    obtain ⟨h, hdir⟩ := h
    refine wp_ite.mpr ⟨fun _ => wp_ite.mpr ⟨fun _ => wp_pure.mpr ⟨h, hdir⟩,
      fun _ => h.wp_iput_pure hdir fun _ => id⟩, fun _ => ?_⟩
    refine (h.wp_findEntry hdir (hroom.mono (by decide))).next fun r s hr => ?_
    obtain ⟨dir, o⟩ := r
    obtain ⟨h, hdir⟩ := hr
    cases o with
    | none => exact wp_ite.mpr ⟨fun _ => h.wp_iput_pure hdir fun _ => id, fun _ => h.wp_openCreate hdir⟩
    | some e =>
      refine wp_readTable ?_
      rw [wp_bind, wp_get]
      refine keeps_brelse.next h fun _ s h => ?_
      exact (h.wp_iput hdir).next fun _ s h => h.wp_openExisting hroom

/-- `iput` of two inodes at the end of a call. -/
theorem Holds.wp_iput_iput {a b : Ino} {α : Type} {f : FsM α}
    (h : Holds F (addRef (addRef refs a) b) s) (ha : F.pipe a = false) (hb : F.pipe b = false)
    (hf : Keeps (Holds F refs) NotFree f) :
    wp (do iput rd (some a); iput rd (some b); f) (fun _ => Holds F refs) NotFree s := by
  rw [addRef_comm] at h
  exact (h.wp_iput ha).next fun _ s h => (h.wp_iput hb).next fun _ s h => hf s h

theorem Holds.wp_giveUp {a b : Ino} {block : BlockNr} {ret : ℤ}
    (h : Holds F (addRef (addRef refs a) b) s) (ha : F.pipe a = false) (hb : F.pipe b = false) :
    wp (do iput rd (some a); iput rd (some b); brelse dev block; return ret)
      (fun _ => Holds F refs) NotFree s :=
  h.wp_iput_iput ha hb (keeps_brelse.bind fun _ => .pure _)

/-- The calls that begin with `lookupParent`. -/
theorem Holds.wp_lookupParent {k : Ino → ℕ → Word → Option Entry → FsM ℤ}
    (h : Holds F refs s) (hcur : cur.Plain F) (hroom : Room 2 refs)
    (hk : ∀ dir namelen base e s, Holds F (addRef refs dir) s → F.pipe dir = false →
      wp (k dir namelen base e) (fun _ => Holds F refs) NotFree s) :
    wp (lookupParent rd cur pathname k) (fun _ => Holds F refs) NotFree s := by
  refine (h.wp_dirNamei hcur hroom).next fun o s h => ?_
  cases o with
  | none => exact wp_pure.mpr h
  | some r =>
    obtain ⟨dir, namelen, base⟩ := r
    obtain ⟨h, hdir⟩ := h
    refine wp_ite.mpr ⟨fun _ => h.wp_iput_pure hdir fun _ => id, fun _ => ?_⟩
    refine wp_readTable <| wp_ite.mpr ⟨fun _ => h.wp_iput_pure hdir fun _ => id, fun _ => ?_⟩
    refine (h.wp_findEntry hdir (hroom.mono (by decide))).next fun r s hr => ?_
    exact hk r.1 namelen base r.2 s hr.1 hr.2

theorem Holds.wp_mknodIn {dev : BitVec 16} (h : Holds F (addRef refs dir) s)
    (hdir : F.pipe dir = false) :
    wp (mknodIn rd cur mode dev dir namelen base e) (fun _ => Holds F refs) NotFree s := by
  cases e with
  | some e =>
    refine wp_readTable ?_
    exact keeps_brelse.next h fun _ s h => h.wp_iput_pure hdir fun _ => id
  | none =>
    refine wp_readTable ?_
    refine h.wp_newInode.next fun o s h => ?_
    cases o with
    | none => exact wp_iput_pure h hdir fun _ => id
    | some ip =>
      obtain ⟨h, hip⟩ := h
      rw [wp_bind, wp_get]
      refine (keeps_updateInode (by simp)).next h fun _ s h => ?_
      refine keeps_addEntry.next h fun o s h => ?_
      cases o with
      | none =>
        rw [addRef_comm] at h
        refine (h.wp_iput hdir).next fun _ s h => ?_
        exact (keeps_updateInode (by simp)).next h fun _ s h => h.wp_iput_pure hip fun _ => id
      | some e =>
        refine wp_readTable ?_
        refine keeps_updateData.next h fun _ s h => ?_
        exact h.wp_giveUp hdir hip

theorem Holds.wp_sysMknod {filename : Word} {dev : BitVec 16} (h : Holds F refs s)
    (hcur : cur.Plain F) (hroom : Room 2 refs) :
    wp (sysMknod rd cur filename mode dev) (fun _ => Holds F refs) NotFree s :=
  wp_ite.mpr ⟨fun _ => wp_pure.mpr h, fun _ => h.wp_lookupParent hcur hroom
    fun _ _ _ _ _ h hdir => h.wp_mknodIn hdir⟩

theorem Holds.wp_mkdirFill (h : Holds F (addRef (addRef refs dir) ip) s) (hdir : F.pipe dir = false)
    (hip : F.pipe ip = false) :
    wp (mkdirFill rd cur mode dir namelen base ip) (fun _ => Holds F refs) NotFree s := by
  -- how both failures end
  have hfail {dev : Dev} {block : BlockNr} {f : MInode → MInode} {ret : ℤ} {s : Fs}
      (hf : ∀ n, (f n).count = n.count ∧ (f n).pipe = n.pipe ∧ (f n).dev = n.dev)
      (h : Holds F (addRef (addRef refs dir) ip) s) : wp (do
        iput rd (some dir)
        freeBlock dev block
        updateInode ip f
        iput rd (some ip)
        return ret) (fun _ => Holds F refs) NotFree s := by
    rw [addRef_comm] at h
    refine (h.wp_iput hdir).next fun _ s h => ?_
    refine keeps_freeBlock.next h fun _ s h => ?_
    exact (keeps_updateInode hf).next h fun _ s h => h.wp_iput_pure hip fun _ => id
  refine wp_readTable ?_
  refine wp_readTable ?_
  refine keeps_bread.next h fun b s h => wp_ite.mpr
    ⟨fun _ => ?_, fun _ => hfail (by exact fun _ => ⟨rfl, rfl, rfl⟩) h⟩
  refine keeps_updateData.next h fun _ s h => ?_
  refine (keeps_updateInode (by simp)).next h fun _ s h => ?_
  refine keeps_brelse.next h fun _ s h => ?_
  refine (keeps_updateInode (by simp)).next h fun _ s h => ?_
  refine keeps_addEntry.next h fun o s h => ?_
  cases o with
  | none => exact hfail (by exact fun _ => ⟨rfl, rfl, rfl⟩) h
  | some e =>
    refine keeps_updateData.next h fun _ s h => ?_
    refine (keeps_updateInode (by simp)).next h fun _ s h => ?_
    exact h.wp_giveUp hdir hip

theorem Holds.wp_mkdirIn (h : Holds F (addRef refs dir) s) (hdir : F.pipe dir = false) :
    wp (mkdirIn rd cur mode dir namelen base e) (fun _ => Holds F refs) NotFree s := by
  cases e with
  | some e =>
    refine wp_readTable ?_
    exact keeps_brelse.next h fun _ s h => h.wp_iput_pure hdir fun _ => id
  | none =>
    refine wp_readTable ?_
    refine h.wp_newInode.next fun o s h => ?_
    cases o with
    | none => exact wp_iput_pure h hdir fun _ => id
    | some ip =>
      obtain ⟨h, hip⟩ := h
      rw [wp_bind, wp_get]
      refine (keeps_updateInode (by simp)).next h fun _ s h => ?_
      refine wp_readTable ?_
      refine keeps_newBlock.next h fun z s h => ?_
      refine (keeps_updateInode (by simp)).next h fun _ s h =>
        wp_ite.mpr ⟨fun _ => ?_, fun _ => wp_bind.mpr ?_⟩
      · rw [addRef_comm] at h
        refine (h.wp_iput hdir).next fun _ s h => ?_
        exact (keeps_updateInode (by simp)).next h fun _ s h => h.wp_iput_pure hip fun _ => id
      · exact (keeps_updateInode (by simp) s h).imp fun _ s h => h.wp_mkdirFill hdir hip

theorem Holds.wp_sysMkdir (h : Holds F refs s) (hcur : cur.Plain F) (hroom : Room 2 refs) :
    wp (sysMkdir rd cur pathname mode) (fun _ => Holds F refs) NotFree s :=
  wp_ite.mpr ⟨fun _ => wp_pure.mpr h, fun _ => h.wp_lookupParent hcur hroom
    fun _ _ _ _ _ h hdir => h.wp_mkdirIn hdir⟩

theorem Holds.wp_rmdirIn (h : Holds F (addRef refs dir) s) (hdir : F.pipe dir = false)
    (hroom : Room 3 refs) : wp (rmdirIn rd cur dir e) (fun _ => Holds F refs) NotFree s := by
  cases e with
  | none => exact h.wp_iput_pure hdir fun _ => id
  | some e =>
    refine wp_readTable ?_
    rw [wp_bind, wp_get]
    refine (h.wp_iget (hroom.addRef dir)).next fun ip s h => ?_
    obtain ⟨h, hip⟩ := h
    have hswap {s : Fs} (h : Holds F (addRef (addRef refs dir) ip) s) :
        Holds F (addRef (addRef refs ip) dir) s := addRef_comm refs dir ip ▸ h
    refine wp_readTable ?_
    refine wp_readTable <| wp_ite.mpr ⟨fun _ => h.wp_giveUp hdir hip, fun _ => wp_ite.mpr ⟨fun _ =>
      h.wp_giveUp hdir hip, fun _ => wp_ite.mpr ⟨fun _ => (hswap h).wp_giveUp hip hdir, fun _ =>
      wp_ite.mpr ⟨fun _ => (hswap h).wp_giveUp hip hdir, fun _ => ?_⟩⟩⟩⟩
    refine keeps_emptyDir.next h fun b s h => wp_ite.mpr
      ⟨fun _ => (hswap h).wp_giveUp hip hdir, fun _ => ?_⟩
    refine keeps_updateData.next h fun _ s h => ?_
    refine keeps_brelse.next h fun _ s h => ?_
    rw [wp_bind, wp_get]
    refine (keeps_updateInode (by simp)).next h fun _ s h => ?_
    refine (keeps_updateInode (by simp)).next h fun _ s h => ?_
    exact h.wp_iput_iput hdir hip (.pure _)

theorem Holds.wp_sysRmdir (h : Holds F refs s) (hcur : cur.Plain F)
    (hroom : Room 3 refs) : wp (sysRmdir rd cur name) (fun _ => Holds F refs) NotFree s :=
  wp_ite.mpr ⟨fun _ => wp_pure.mpr h, fun _ => h.wp_lookupParent hcur (hroom.mono (by decide))
    fun _ _ _ _ _ h hdir => h.wp_rmdirIn hdir hroom⟩

theorem Holds.wp_unlinkIn (h : Holds F (addRef refs dir) s) (hdir : F.pipe dir = false)
    (hroom : Room 3 refs) : wp (unlinkIn rd cur dir e) (fun _ => Holds F refs) NotFree s := by
  cases e with
  | none => exact h.wp_iput_pure hdir fun _ => id
  | some e =>
    refine wp_readTable ?_
    rw [wp_bind, wp_get]
    refine (h.wp_iget (hroom.addRef dir)).next fun ip s h => ?_
    obtain ⟨h, hip⟩ := h
    have hswap {s : Fs} (h : Holds F (addRef (addRef refs dir) ip) s) :
        Holds F (addRef (addRef refs ip) dir) s := addRef_comm refs dir ip ▸ h
    refine wp_readTable ?_
    have hrest {dev : Dev} {s : Fs} (h : Holds F (addRef (addRef refs dir) ip) s) : wp (do
        setEntryInode dev e 0
        brelse dev e.1
        let now := (← get).now
        updateInode ip fun n => { n with nlinks := n.nlinks - 1, dirt := true, ctime := now }
        iput rd (some ip)
        iput rd (some dir)
        return (0 : ℤ)) (fun _ => Holds F refs) NotFree s := by
      refine keeps_updateData.next h fun _ s h => ?_
      refine keeps_brelse.next h fun _ s h => ?_
      rw [wp_bind, wp_get]
      refine (keeps_updateInode (by simp)).next h fun _ s h => ?_
      exact (hswap h).wp_iput_iput hip hdir (.pure _)
    refine wp_readTable <| wp_ite.mpr ⟨fun _ => h.wp_giveUp hdir hip, fun _ => wp_ite.mpr
      ⟨fun _ => (hswap h).wp_giveUp hip hdir, fun _ => wp_ite.mpr
      ⟨fun _ => wp_bind.mpr ?_, fun _ => hrest h⟩⟩⟩
    exact (keeps_updateInode (by simp) s h).imp fun _ s h => hrest h

theorem Holds.wp_sysUnlink (h : Holds F refs s) (hcur : cur.Plain F)
    (hroom : Room 3 refs) : wp (sysUnlink rd cur name) (fun _ => Holds F refs) NotFree s :=
  h.wp_lookupParent hcur (hroom.mono (by decide)) fun _ _ _ _ _ h hdir => h.wp_unlinkIn hdir hroom

theorem Holds.wp_linkIn {old : Ino} (h : Holds F (addRef (addRef refs old) dir) s)
    (hold : F.pipe old = false) (hdir : F.pipe dir = false) :
    wp (linkIn rd cur old dir namelen base e) (fun _ => Holds F refs) NotFree s := by
  have hswap {s : Fs} (h : Holds F (addRef (addRef refs old) dir) s) :
      Holds F (addRef (addRef refs dir) old) s := addRef_comm refs old dir ▸ h
  have hboth {s : Fs} {ret : ℤ} (h : Holds F (addRef (addRef refs old) dir) s) :
      wp (do iput rd (some dir); iput rd (some old); return ret) (fun _ => Holds F refs)
        NotFree s := (hswap h).wp_iput_iput hdir hold (.pure _)
  cases e with
  | some e =>
    refine wp_readTable ?_
    exact keeps_brelse.next h fun _ s h => hboth h
  | none =>
    refine keeps_addEntry.next h fun o s h => ?_
    cases o with
    | none => exact hboth h
    | some e =>
      refine wp_readTable ?_
      refine wp_readTable ?_
      refine keeps_updateData.next h fun _ s h => ?_
      refine keeps_brelse.next h fun _ s h => ?_
      refine (h.wp_iput hdir).next fun _ s h => ?_
      rw [wp_bind, wp_get]
      exact (keeps_updateInode (by simp)).next h fun _ s h => h.wp_iput_pure hold fun _ => id

theorem Holds.wp_sysLink {oldname newname : Word} (h : Holds F refs s) (hcur : cur.Plain F)
    (hroom : Room 3 refs) :
    wp (sysLink rd cur oldname newname) (fun _ => Holds F refs) NotFree s := by
  refine (h.wp_namei hcur (hroom.mono (by decide))).next fun o s h => ?_
  cases o with
  | none => exact wp_pure.mpr h
  | some old =>
    obtain ⟨h, hold⟩ := h
    refine wp_readTable <| wp_ite.mpr ⟨fun _ => h.wp_iput_pure hold fun _ => id, fun _ => ?_⟩
    refine (h.wp_dirNamei hcur (hroom.addRef old)).next fun o s h => ?_
    cases o with
    | none => exact wp_iput_pure h hold fun _ => id
    | some r =>
      obtain ⟨dir, namelen, base⟩ := r
      obtain ⟨h, hdir⟩ := h
      have hboth {s : Fs} {ret : ℤ} (h : Holds F (addRef (addRef refs old) dir) s) :
          wp (do iput rd (some dir); iput rd (some old); return ret) (fun _ => Holds F refs)
            NotFree s := (h.wp_iput hdir).next fun _ s h => h.wp_iput_pure hold fun _ => id
      refine wp_ite.mpr ⟨fun _ => h.wp_iput_iput hold hdir (.pure _), fun _ => ?_⟩
      refine wp_readTable ?_
      refine wp_readTable <| wp_ite.mpr ⟨fun _ => hboth h, fun _ => ?_⟩
      refine wp_readTable <| wp_ite.mpr ⟨fun _ => hboth h, fun _ => ?_⟩
      refine (h.wp_findEntry hdir (hroom.mono (by decide) |>.addRef old)).next fun r s hr => ?_
      exact hr.1.wp_linkIn hold hr.2

end

end LinuxRv.Minix

