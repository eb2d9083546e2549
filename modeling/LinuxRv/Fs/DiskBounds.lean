import LinuxRv.Fs.BufferCache

/-!
Which requests the ramdisk driver serves (`do_rd_request` of
`kernel/blk_drv/ramdisk.c`).

The driver computes the offset of a block and the end of its range in 32 bits.
The offset loses the upper ten bits of the block number, and the end wraps
around at the top of the address space; the comparison with the end of the image
sees neither.
-/

namespace LinuxRv.Fs

open ByteMemory Prog

variable {m : ℕ} {rd : RamDisk}

/-! ### Offsets -/

/-- The block that `blocknr << 1 << 9` is the offset of. -/
def BlockNr.cut (block : BlockNr) : ℕ := block.toNat % 2 ^ 22

/-- The image holds block `k`. -/
abbrev RamDisk.Holds (rd : RamDisk) (k : ℕ) : Prop := (k + 1) * 1024 ≤ rd.length.toNat

/-- The end of block `k` is an address. -/
abbrev RamDisk.Ends (rd : RamDisk) (k : ℕ) : Prop := rd.start.toNat + (k + 1) * 1024 < 2 ^ 32

theorem toNat_diskOffset (block : BlockNr) : (block <<< 1 <<< 9).toNat = block.cut * 1024 := by
  simp only [BitVec.toNat_shiftLeft, Nat.shiftLeft_eq, BlockNr.cut]
  omega

theorem RamDisk.InRange.cut_eq {block : BlockNr} (h : rd.InRange block) :
    block.cut = block.toNat := by
  have hlen := rd.length.isLt
  unfold RamDisk.InRange at h
  unfold BlockNr.cut
  omega

/-- The test of the driver. An end that has wrapped around is never too far. -/
theorem tooFar_iff (block : BlockNr) : rd.start + rd.length < rd.start + block <<< 1 <<< 9 + 1024 ↔
      ¬ rd.Holds block.cut ∧ rd.Ends block.cut := by
  have hcut : block.cut < 2 ^ 22 := Nat.mod_lt _ (by decide)
  have hfits := rd.fits
  have h1024 : (1024 : BitVec 32).toNat = 1024 := rfl
  rw [BitVec.lt_def, BitVec.toNat_add, BitVec.toNat_add, BitVec.toNat_add, toNat_diskOffset, h1024,
    Nat.mod_eq_of_lt hfits]
  unfold RamDisk.Holds RamDisk.Ends
  omega

/-! ### One request -/

/-- The first request of the queue is for `block` of the ramdisk with this number. -/
structure Cache.Pending (s : Cache m) (r : Fin nrRequest) (dev : Dev) (block : BlockNr) : Prop where
  current : s.currentRequest = some r
  major : major dev = 1
  dev : (s.request r).dev = some dev
  sector : (s.request r).sector = block <<< 1
  locked : (s.buf (s.request r).bh).lock = true

/-- The state after `end_request`. -/
def Cache.ended (s : Cache m) (r : Fin nrRequest) (uptodate : Bool) : Cache m :=
  let bh := (s.request r).bh
  { s with
    buf := Function.update s.buf bh { s.buf bh with uptodate := uptodate, lock := false }
    request := Function.update s.request r { s.request r with dev := none }
    currentRequest := (s.request r).next }

/-- What the driver is to make of the request: a block of the image is copied, any
other one is refused. -/
def Cache.served (rd : RamDisk) (s : Cache m) (r : Fin nrRequest) (dev : Dev) (block : BlockNr) :
    Cache m :=
  if minor dev = 1 ∧ rd.InRange block then
    (s.transfer (s.request r) block.toNat).ended r true
  else s.ended r false

section

variable {s : Cache m} {r : Fin nrRequest} {dev : Dev} {block : BlockNr} {fuel : ℕ}

theorem endRequest_run (s : Cache m) (r : Fin nrRequest) (uptodate : Bool) :
    endRequest r uptodate s = .ok ⟨⟩ (s.ended r uptodate) := by
  refine congrArg (EStateM.Result.ok PUnit.unit) ?_
  simp [Cache.ended, Cache.setBuf, Cache.setRequest]

theorem request_transfer (s : Cache m) (q : Request m) (k : ℕ) :
    (s.transfer q k).request = s.request := by
  unfold Cache.transfer
  split <;> rfl

/-- The driver, past its two checks of the queue. -/
theorem Cache.Pending.step (h : s.Pending r dev block) : doRdRequest rd (fuel + 1) s =
      if minor dev ≠ 1 ∨ ¬ rd.Holds block.cut ∧ rd.Ends block.cut then
        doRdRequest rd fuel (s.ended r false)
      else if ¬ rd.Holds block.cut then .error .wild s
      else doRdRequest rd fuel ((s.transfer (s.request r) block.cut).ended r true) := by
  have hdev {β : Type} (f : Dev → β) : (s.request r).dev.map f = some (f dev) := by rw [h.dev]; rfl
  have hminor : (some (minor dev) ≠ some 1) = (minor dev ≠ 1) := by simp
  have hlen : (rd.length.toNat < (block <<< 1 <<< 9).toNat + 1024) = ¬ rd.Holds block.cut := by
    rw [toNat_diskOffset, RamDisk.Holds, Nat.not_le, Nat.succ_mul]
  have hblock : (block <<< 1 <<< 9).toNat / 1024 = block.cut := by
    rw [toNat_diskOffset, Nat.mul_div_cancel _ (by decide)]
  rw [doRdRequest]
  refine (bind_of_ok rfl).trans ?_
  rw [h.current]
  change (ite _ _ _ : CacheM m PUnit) s = _
  rw [hdev, hdev, h.major, if_neg (not_not.mpr rfl), if_neg (by rw [h.locked]; decide)]
  simp only [h.sector, tooFar_iff, hminor, hlen, hblock]
  split
  · exact bind_of_ok (endRequest_run ..)
  split
  · rfl
  · change (endRequest r true >>= fun _ => doRdRequest rd fuel) (s.transfer (s.request r) block.cut) = _
    exact bind_of_ok (endRequest_run ..)

theorem uptodate_ended (s : Cache m) (r : Fin nrRequest) (uptodate : Bool) :
    ((s.ended r uptodate).buf (s.request r).bh).uptodate = uptodate := by
  simp [Cache.ended]

/-- A request that was copied has not been refused. -/
theorem ended_transfer_ne (s : Cache m) (r : Fin nrRequest) (k : ℕ) :
    (s.transfer (s.request r) k).ended r true ≠ s.ended r false := by
  intro heq
  have htrue := uptodate_ended (s.transfer (s.request r) k) r true
  rw [heq, request_transfer, uptodate_ended] at htrue
  cases htrue

theorem ramdisk_bounds_iff (h : s.Pending r dev block) :
    (∀ fuel, doRdRequest rd (fuel + 1) s = doRdRequest rd fuel (s.served rd r dev block)) ↔
      minor dev ≠ 1 ∨ rd.InRange block ∨ ¬ rd.Holds block.cut ∧ rd.Ends block.cut := by
  simp only [h.step, Cache.served]
  by_cases hminor : minor dev = 1
  swap
  · simp only [hminor, false_and, if_false, ne_eq, not_false_eq_true, true_or, if_true,
      implies_true]
  simp only [hminor, ne_eq, not_true_eq_false, false_or, true_and]
  by_cases hin : rd.InRange block
  · have hholds : rd.Holds block.toNat := hin
    simp only [hin, hin.cut_eq, hholds, not_true_eq_false, false_and, if_false, if_true, true_or,
      implies_true]
  simp only [hin, if_false, false_or]
  by_cases hfar : ¬ rd.Holds block.cut ∧ rd.Ends block.cut
  · simp only [hfar, not_false_eq_true, and_self, if_true, implies_true]
  -- what is left are the blocks that are taken for others, and the wild accesses
  refine iff_of_false (fun hall => ?_) hfar
  have hfirst := hall 0
  rw [if_neg hfar] at hfirst
  by_cases hholds : rd.Holds block.cut
  · rw [if_neg (not_not.mpr hholds)] at hfirst
    exact ended_transfer_ne s r _ (EStateM.Result.error.inj hfirst).2
  · rw [if_pos hholds] at hfirst
    exact absurd (EStateM.Result.error.inj hfirst).1 (by decide)

end

/-- A read of `block` is the only request. -/
def oneRead (block : BlockNr) : Cache 0 where
  buf _ := ⟨fun _ => 0, block, rdDev, false, false, 1, true, none, none, none, none⟩
  hashTable _ := none
  freeList := none
  request r := ⟨if r = 0 then some rdDev else none, .read, block <<< 1, 0, none⟩
  currentRequest := some 0
  inode _ := ⟨fun _ => 0, 0, 0, false, false, false⟩
  super _ := ⟨0, 0, 0, false⟩
  image _ _ := 0
  relabelled := []
  stored _ _ _ := 0

/-- An image of 64 KiB above the load address of the kernel. -/
def imageAbove : RamDisk := ⟨0x80100000, 0x10000, by decide⟩

theorem oneRead_pending (block : BlockNr) : (oneRead block).Pending 0 rdDev block :=
  ⟨rfl, rfl, rfl, rfl, rfl⟩

theorem ramdisk_bounds_first : (oneRead 1).Pending 0 rdDev 1 ∧
    ∀ fuel, doRdRequest imageAbove (fuel + 1) (oneRead 1) =
      doRdRequest imageAbove fuel ((oneRead 1).served imageAbove 0 rdDev 1) :=
  ⟨oneRead_pending 1, (ramdisk_bounds_iff (oneRead_pending 1)).mpr (.inr (.inl (by decide)))⟩

/-- Just below 2 GiB the end of the range wraps around to 1024, and the driver
reads from address 0. -/
theorem ramdisk_reads_outside : imageAbove.start + (0x1ffc00 : BlockNr) <<< 1 <<< 9 = 0 ∧
    doRdRequest imageAbove 2 (oneRead 0x1ffc00) = .error .wild (oneRead 0x1ffc00) := by
  refine ⟨by decide, ?_⟩
  rw [(oneRead_pending _).step, if_neg (by decide), if_pos (by decide)]

end LinuxRv.Fs
