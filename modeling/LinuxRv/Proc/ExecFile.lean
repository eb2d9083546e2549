import LinuxRv.Minix.FileBlocks
import LinuxRv.Proc.InodeCounts
import Mathlib.Order.CompletePartialOrder

/-!
What `do_execve` reads of a file.

`read_file` changes nothing, and what it returns is a function of the inode and
of the blocks on the disk. It goes through `_bmap`, which stops the kernel at a
block number an inode cannot have; `FileRange` says that a read stays before
those.
-/

namespace LinuxRv.Proc

open ByteMemory Prog Fs Minix BitVec List Nat
open Mm (userLimit)

/-- The bytes from `off` on are in blocks an inode can have. -/
def FileRange (off len : Word) : Prop := off.toNat + len.toNat ≤ maxBlocks * 1024

instance (off len : Word) : Decidable (FileRange off len) :=
  inferInstanceAs (Decidable (_ ≤ _))

/-- What `read_file` finds. -/
def fileBytes (rd : RamDisk) (s : Fs) (ip : Ino) : ℕ → Word → Word → Bool × List Byte
  | 0, _, _ => (true, [])
  | fuel + 1, off, len =>
    if len = 0 then
      (true, [])
    else
      let coff := (off &&& 0x3ff).toNat
      let n := min (1024 - coff) len.toNat
      let z := blockNr (s.zone rd ip (off >>> 10).toNat)
      let dev := (s.inode ip).dev
      if OnDisk rd dev z then
        let rest := fileBytes rd s ip fuel (off + .ofNat 32 n) (len - .ofNat 32 n)
        (rest.1, (((finRange 1024).map (s.data dev z)).drop coff).take n ++ rest.2)
      else
        (false, [])

section

variable {rd : RamDisk} {s : Fs} {ip : Ino} {E : Minix.Halt → Fs → Prop}

theorem coff_eq (off : Word) : (off &&& 0x3ff).toNat = off.toNat % 1024 := by
  rw [toNat_and]
  exact and_two_pow_sub_one_eq_mod off.toNat 10

theorem block_lt {off len : Word} (h : FileRange off len) (hlen : len ≠ 0) :
    (off >>> 10).toNat < maxBlocks := by
  have hpos : 0 < len.toNat := Nat.pos_of_ne_zero fun h0 => hlen (eq_of_toNat_eq h0)
  rw [toNat_ushiftRight, shiftRight_eq_div_pow]
  unfold FileRange at h
  omega

/-- What is left after the first `n` bytes. -/
theorem FileRange.rest {off len : Word} {n : ℕ} (h : FileRange off len) (hn : n ≤ len.toNat) :
    FileRange (off + .ofNat 32 n) (len - .ofNat 32 n) := by
  have hlen := len.isLt
  have hn' : (BitVec.ofNat 32 n).toNat = n := by
    rw [toNat_ofNat]
    exact mod_eq_of_lt (by omega)
  have hoff : (off + .ofNat 32 n).toNat ≤ off.toNat + n := by
    rw [toNat_add, hn']
    exact mod_le _ _
  have hrest : (len - .ofNat 32 n).toNat = len.toNat - n := by
    rw [toNat_sub_of_le (by rwa [le_def, hn']), hn']
  unfold FileRange at h ⊢
  omega

/-- The stop of `_bmap` at a block number that is too large. -/
def tooBig : Minix.Halt := .panic "_bmap: block>big"

/-- A read outside of the range may stop the kernel. -/
theorem wp_readFile {fuel : ℕ} {off len : Word} {Q : Bool × List Byte → Fs → Prop}
    (hbig : ¬ FileRange off len → E tooBig s) (h : Q (fileBytes rd s ip fuel off len) s) :
    wp (readFile rd ip fuel off len) Q E s := by
  induction fuel generalizing off len Q with
  | zero => exact wp_pure.mpr h
  | succ fuel ih =>
    rw [readFile]
    rw [fileBytes] at h
    by_cases hlen : len = 0
    · rw [if_pos hlen] at h ⊢
      exact wp_pure.mpr h
    rw [if_neg hlen] at h ⊢
    rw [wp_bind]
    by_cases hblock : (off >>> 10).toNat < maxBlocks
    · rw [wp_bmap hblock, readInodeTable, wp_bind, wp_bind, wp_get, wp_pure, wp_bind, wp_bread_iff]
      dsimp only at h ⊢
      by_cases hdisk : OnDisk rd (s.inode ip).dev (blockNr (s.zone rd ip (off >>> 10).toNat))
      · rw [if_pos hdisk] at h ⊢
        rw [if_pos rfl, wp_bind, wp_get, wp_bind, wp_brelse_bread, wp_bind]
        refine ih (fun hnot => hbig fun hrange => ?_) (wp_pure.mpr h)
        exact hnot (hrange.rest (Nat.min_le_right ..))
      · rw [if_neg hdisk] at h ⊢
        exact wp_pure.mpr h
    · have hE : E tooBig s := hbig fun hrange => hblock (block_lt hrange hlen)
      have hbig : (maxBlocks : ℤ) ≤ (off >>> 10).toNat := by omega
      rw [bmap, bmapWith, readInodeTable, wp_bind, wp_bind, wp_get, wp_pure,
        if_neg (by omega), if_pos hbig, wp_throw]
      exact hE

theorem length_fileBytes (rd : RamDisk) (s : Fs) (ip : Ino) (fuel : ℕ) (off len : Word) :
    (fileBytes rd s ip fuel off len).2.length ≤ len.toNat := by
  induction fuel generalizing off len with
  | zero => exact zero_le _
  | succ fuel ih =>
    rw [fileBytes]
    dsimp only
    split_ifs
    · exact zero_le _
    · have hrest := ih (off + .ofNat 32 (min (1024 - (off &&& 0x3ff).toNat) len.toNat))
        (len - .ofNat 32 (min (1024 - (off &&& 0x3ff).toNat) len.toNat))
      have hlen := len.isLt
      rw [toNat_sub_of_le (by
        rw [le_def, toNat_ofNat, mod_eq_of_lt (by omega)]
        omega), toNat_ofNat, mod_eq_of_lt (by omega)] at hrest
      rw [length_append, length_take, length_drop, length_map, length_finRange]
      omega
    · exact zero_le _

/-- The memory manager has nothing to do with it. -/
theorem fileBytes_mm (m : Mm.State) (fuel : ℕ) (off len : Word) :
    fileBytes rd { s with mm := m } ip fuel off len = fileBytes rd s ip fuel off len := by
  induction fuel generalizing off len with
  | zero => rfl
  | succ fuel ih =>
    rw [fileBytes, fileBytes]
    dsimp only
    rw [ih]
    rfl

end

/-! ### Headers -/

/-- Program header number `i`, if it can be read. -/
def phdrAt (rd : RamDisk) (s : Fs) (ip : Ino) (phoff : Word) (i : ℕ) : Option Phdr :=
  let r := fileBytes rd s ip 32 (phoff + 32 * .ofNat 32 i) 32
  if r.1 then some (Phdr.ofBytes r.2) else none

def ehdrAt (rd : RamDisk) (s : Fs) (ip : Ino) : Ehdr :=
  Ehdr.ofBytes (fileBytes rd s ip 52 0 52).2

namespace Phdr

/-- `PT_LOAD`, and within the bounds `do_execve` checks. -/
def Loads (ph : Phdr) : Prop :=
  ph.type = 1 ∧ ph.vaddr < userLimit ∧ ph.vaddr + ph.memsz ≤ stackBase

instance (ph : Phdr) : Decidable ph.Loads := inferInstanceAs (Decidable (_ ∧ _))

/-- Where a segment starts and ends, in whole pages. -/
def first (ph : Phdr) : Word := ph.vaddr &&& 0xfffff000
def last (ph : Phdr) : Word := (ph.vaddr + ph.memsz + 0xfff) &&& 0xfffff000

/-- The numbers of its pages. -/
def pages (ph : Phdr) : Set ℕ := {n | ph.first.toNat / 4096 ≤ n ∧ n < ph.last.toNat / 4096}

/-- The offset in the file of the page at `vaddr`. -/
def foff (ph : Phdr) (vaddr : Word) : Word := ph.offset + (vaddr - ph.vaddr)

def fileEnd (ph : Phdr) : Word := ph.offset + ph.filesz

/-- How much of the file is read into it. -/
def readLen (ph : Phdr) (vaddr : Word) : Word :=
  if ph.fileEnd - ph.foff vaddr < 4096 then ph.fileEnd - ph.foff vaddr else 4096

/-- How many pages it has. -/
def pageCount (ph : Phdr) : ℕ := (ph.last.toNat - ph.first.toNat) / 4096

/-- What `load_segment` reads for the page at `vaddr` is in range. -/
def InRange (ph : Phdr) (vaddr : Word) : Prop :=
  ph.foff vaddr < ph.fileEnd → FileRange (ph.foff vaddr) (ph.readLen vaddr)

theorem readLen_le (ph : Phdr) (vaddr : Word) : (ph.readLen vaddr).toNat ≤ 4096 := by
  unfold readLen
  split
  · next h => exact Nat.le_of_lt (lt_def.mp h)
  · exact le_rfl

theorem last_le {ph : Phdr} (h : ph.Loads) : ph.last.toNat ≤ stackBase.toNat := by
  have hend := le_def.mp h.2.2
  have hbase := toNat_stackBase
  have hadd : (ph.vaddr + ph.memsz + 0xfff).toNat = (ph.vaddr + ph.memsz).toNat + 0xfff := by
    rw [toNat_add]
    exact mod_eq_of_lt (by
      show _ + 0xfff < 2 ^ 32
      omega)
  rw [last, Mm.toNat_page, hadd]
  omega

/-- The pages of a segment are in user memory. -/
theorem Loads.limit {ph : Phdr} (h : ph.Loads) : ph.first.toNat + 4096 * ph.pageCount ≤ 2 ^ 31 := by
  have hlast := last_le h
  have hbase := toNat_stackBase
  have hlt : ph.vaddr.toNat < 2 ^ 31 := lt_def.mp h.2.1
  have hfirst : ph.first.toNat = 4096 * (ph.vaddr.toNat / 4096) := Mm.toNat_page ph.vaddr
  rw [pageCount]
  omega

end Phdr

/-- The pages a program header asks for. -/
def segPages : Option Phdr → Set ℕ
  | none => ∅
  | some ph => if ph.Loads then ph.pages else ∅

/-- No two segments have a page in common. -/
def Apart (rd : RamDisk) (s : Fs) (ip : Ino) (phoff : Word) (phnum : ℕ) : Prop :=
  ∀ i < phnum, ∀ i' < i,
    Disjoint (segPages (phdrAt rd s ip phoff i')) (segPages (phdrAt rd s ip phoff i))

end LinuxRv.Proc
