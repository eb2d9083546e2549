import LinuxRv.Minix.FileBlocks
import LinuxRv.Minix.InodeKeys

/-!
`truncate` frees the blocks of a file (`fs/truncate.c`).

The zones of a file are a list: the direct ones, and behind the entries of an
index block the block itself, which is the order in which they are freed. Freeing
a list of zones is a function on states; every loop of the source is shown to
compute it, for lists without duplicates whose zones are in use and have no
buffer that is held.
-/

namespace LinuxRv.Minix

open ByteMemory Prog LinuxRv.Fs Function List

/-! ### Zones -/

namespace SuperBlock

/-- The number of a zone in the bitmap. -/
def zoneBit (sb : SuperBlock) (z : Zone) : ℕ := z.toNat + 1 - sb.firstdatazone.toNat

/-- The block of the bitmap its bit is in. -/
def zoneMap (sb : SuperBlock) (z : Zone) : Option BlockNr :=
  sb.zmap (Fin.ofNat 8 (sb.zoneBit z / 8192))

/-- A data zone. -/
def InData (sb : SuperBlock) (z : Zone) : Prop :=
  sb.firstdatazone.toNat ≤ z.toNat ∧ z.toNat < sb.nzones.toNat

/-- The blocks of the zone bitmap are different ones in front of the data zones. -/
structure ZoneMaps (sb : SuperBlock) : Prop where
  below : ∀ k b, sb.zmap k = some b → b.toNat < sb.firstdatazone.toNat
  inj : ∀ k k' b, sb.zmap k = some b → sb.zmap k' = some b → k = k'

end SuperBlock

/-- The state after `free_block`. -/
def Fs.freeZone (s : Fs) (sb : SuperBlock) (dev : Dev) (z : Zone) : Fs :=
  let s' := s.setData dev (blockNr z) (s.stale dev (blockNr z))
  match sb.zoneMap z with
  | none => s'
  | some map => s'.setData dev map (setBitAt (s'.data dev map) (bitNr (sb.zoneBit z)) false)

def Fs.freeZones (s : Fs) (sb : SuperBlock) (dev : Dev) (l : List Zone) : Fs :=
  l.foldl (fun s z => s.freeZone sb dev z) s

/-- A data zone that is marked as used, and whose buffer nobody holds. -/
structure Fs.Freeable (s : Fs) (sb : SuperBlock) (dev : Dev) (z : Zone) : Prop where
  inData : sb.InData z
  users : s.users dev (blockNr z) = 0
  used : ∃ map, sb.zoneMap z = some map ∧ bitAt (s.data dev map) (bitNr (sb.zoneBit z)) = true

/-- The zones `blocks` gives for the entries of an index block. -/
def Fs.entryZones (rd : RamDisk) (s : Fs) (dev : Dev) (z : Zone) (blocks : Zone → List Zone) :
    List Zone :=
  if OnDisk rd dev (blockNr z) then
    (finRange 512).flatMap fun i =>
      if zoneAt (s.data dev (blockNr z)) i = 0 then []
      else blocks (zoneAt (s.data dev (blockNr z)) i)
  else []

/-- An indirect block and the zones in it. -/
def Fs.indZones (rd : RamDisk) (s : Fs) (dev : Dev) (z : Zone) : List Zone :=
  if z = 0 then [] else s.entryZones rd dev z (fun c => [c]) ++ [z]

/-- A double-indirect block, the indirect blocks in it and the zones in those. -/
def Fs.dindZones (rd : RamDisk) (s : Fs) (dev : Dev) (z : Zone) : List Zone :=
  if z = 0 then [] else s.entryZones rd dev z (s.indZones rd dev) ++ [z]

/-- The zones of a file. -/
def Fs.fileZones (rd : RamDisk) (s : Fs) (ip : Ino) : List Zone :=
  let n := s.inode ip
  ((finRange 7).flatMap fun i =>
    if n.zone (i.castLE directs_le) = 0 then [] else [n.zone (i.castLE directs_le)]) ++
  s.indZones rd n.dev (n.zone 7) ++ s.dindZones rd n.dev (n.zone 8)

section

variable {blocks : Zone → List Zone} {n : ℕ} {rd : RamDisk} {s : Fs} {sb : SuperBlock} {dev : Dev}
  {z z' : Zone} {l l' : List Zone} {free : Zone → FsM PUnit} {k : Fin 512} {map : BlockNr} {t : Fs}

theorem Fs.freeZones_append (s : Fs) (sb : SuperBlock) (dev : Dev) (l l' : List Zone) :
    s.freeZones sb dev (l ++ l') = (s.freeZones sb dev l).freeZones sb dev l' :=
  foldl_append

/-! ### What is not changed -/

theorem Fs.freeZone_eq (s : Fs) (sb : SuperBlock) (dev : Dev) (z : Zone) :
    s.freeZone sb dev z = { s with data := (s.freeZone sb dev z).data } := by
  unfold freeZone
  cases sb.zoneMap z <;> rfl

theorem Fs.freeZones_eq (s : Fs) (sb : SuperBlock) (dev : Dev) (l : List Zone) :
    s.freeZones sb dev l = { s with data := (s.freeZones sb dev l).data } := by
  induction l generalizing s with
  | nil => rfl
  | cons z l ih =>
    have hstep : s.freeZones sb dev (z :: l) = (s.freeZone sb dev z).freeZones sb dev l := rfl
    rw [hstep]
    refine (ih _).trans ?_
    rw [s.freeZone_eq sb dev z]

theorem Fs.data_setData (s : Fs) (dev dev' : Dev) (b b' : BlockNr) (x : Block) :
    (s.setData dev b x).data dev' b' = if dev' = dev ∧ b' = b then x else s.data dev' b' := by
  unfold setData
  by_cases hdev : dev' = dev
  · subst hdev
    by_cases hb : b' = b
    · subst hb
      simp
    · simp [hb]
  · simp [hdev]

theorem toNat_blockNr (z : Zone) : (blockNr z).toNat = z.toNat := by
  rw [blockNr, BitVec.toNat_setWidth]
  exact Nat.mod_eq_of_lt (z.isLt.trans (by decide))

theorem blockNr_inj (h : blockNr z = blockNr z') : z = z' :=
  BitVec.eq_of_toNat_eq (by rw [← toNat_blockNr, h, toNat_blockNr])

/-- What freeing a data zone leaves of a block. -/
theorem Fs.freeZone_data (hmaps : sb.ZoneMaps) (hz : sb.InData z) (dev' : Dev) (b : BlockNr) :
    (s.freeZone sb dev z).data dev' b =
      if dev' = dev ∧ b = blockNr z then s.stale dev b
      else if dev' = dev ∧ sb.zoneMap z = some b then
        setBitAt (s.data dev b) (bitNr (sb.zoneBit z)) false
      else s.data dev' b := by
  unfold freeZone
  cases hmap : sb.zoneMap z with
  | none =>
    simp only [reduceCtorEq, and_false, if_false, data_setData]
    by_cases h : dev' = dev ∧ b = blockNr z
    · rw [if_pos h, if_pos h, h.2]
    · rw [if_neg h, if_neg h]
  | some map =>
    have hne : map ≠ blockNr z := by
      rintro rfl
      have hbelow := hmaps.below _ _ hmap
      rw [toNat_blockNr] at hbelow
      exact absurd hz.1 (not_le.mpr hbelow)
    simp only [data_setData, Option.some.injEq, true_and, hne, if_false]
    by_cases h : dev' = dev ∧ b = blockNr z
    · rw [if_pos h, if_neg fun hb => hne (hb.2.symm.trans h.2), if_pos h, h.2]
    · rw [if_neg h, if_neg h]
      by_cases hb : dev' = dev ∧ b = map
      · rw [if_pos hb, if_pos ⟨hb.1, hb.2.symm⟩, hb.2]
      · rw [if_neg hb, if_neg fun hb' => hb ⟨hb'.1, hb'.2.symm⟩]

/-- Different zones have different bits. -/
theorem SuperBlock.ZoneMaps.eq_of_bit (hmaps : sb.ZoneMaps) (hz : sb.InData z)
    (hz' : sb.InData z') (hmap : sb.zoneMap z = some map) (hmap' : sb.zoneMap z' = some map)
    (hbit : bitNr (sb.zoneBit z) = bitNr (sb.zoneBit z')) : z = z' := by
  have hblock := congrArg Fin.val (hmaps.inj _ _ _ hmap hmap')
  have hmod := congrArg Fin.val hbit
  simp only [Fin.ofNat, bitNr] at hblock hmod
  have hlt := z.isLt
  have hlt' := z'.isLt
  unfold zoneBit at hblock hmod
  obtain ⟨hlow, -⟩ := hz
  obtain ⟨hlow', -⟩ := hz'
  exact BitVec.eq_of_toNat_eq (by omega)

/-- A zone can still be freed after another one. -/
theorem Fs.Freeable.freeZone (hmaps : sb.ZoneMaps) (hz' : sb.InData z') (hne : z ≠ z')
    (h : s.Freeable sb dev z) : (s.freeZone sb dev z').Freeable sb dev z := by
  obtain ⟨map, hmap, hbit⟩ := h.used
  refine ⟨h.inData, ?_, map, hmap, ?_⟩
  · rw [s.freeZone_eq]
    exact h.users
  · have hblock : map ≠ blockNr z' := by
      rintro rfl
      have hbelow := hmaps.below _ _ hmap
      rw [toNat_blockNr] at hbelow
      exact absurd hz'.1 (not_le.mpr hbelow)
    rw [freeZone_data hmaps hz', if_neg fun hb => hblock hb.2]
    split
    · next hmap' =>
      rw [bitAt_setBitAt, if_neg, hbit]
      exact fun hsame => hne (hmaps.eq_of_bit h.inData hz' hmap hmap'.2 hsame)
    · exact hbit

/-- All zones of a list can be freed, one after the other. -/
def Fs.AllFreeable (s : Fs) (sb : SuperBlock) (dev : Dev) (l : List Zone) : Prop :=
  l.Nodup ∧ ∀ z ∈ l, s.Freeable sb dev z

theorem Fs.AllFreeable.left (h : s.AllFreeable sb dev (l ++ l')) : s.AllFreeable sb dev l :=
  ⟨h.1.of_append_left, fun z hz => h.2 z (mem_append_left _ hz)⟩

/-- What is left after some have been freed. -/
theorem Fs.AllFreeable.right (hmaps : sb.ZoneMaps) (h : s.AllFreeable sb dev (l ++ l')) :
    (s.freeZones sb dev l).AllFreeable sb dev l' := by
  induction l generalizing s with
  | nil => exact h
  | cons z l ih =>
    obtain ⟨hnodup, hall⟩ := h
    obtain ⟨hz, hl⟩ := nodup_cons.mp hnodup
    refine ih (s := s.freeZone sb dev z) ⟨hl, fun z' hz' => ?_⟩
    refine (hall z' (.tail _ hz')).freeZone hmaps (hall z (.head _)).inData ?_
    rintro rfl
    exact hz hz'

/-- Blocks that are neither freed nor in the bitmap stay as they are. -/
theorem Fs.freeZones_data (hmaps : sb.ZoneMaps) (hl : ∀ z ∈ l, sb.InData z) {dev' : Dev}
    {b : BlockNr} (hb : dev' = dev → (∀ z ∈ l, b ≠ blockNr z) ∧ ∀ k, sb.zmap k ≠ some b) :
    (s.freeZones sb dev l).data dev' b = s.data dev' b := by
  induction l generalizing s with
  | nil => rfl
  | cons z l ih =>
    have hrest := ih (s := s.freeZone sb dev z) (fun z' hz' => hl z' (.tail _ hz'))
      fun hdev => ⟨fun z' hz' => (hb hdev).1 z' (.tail _ hz'), (hb hdev).2⟩
    refine hrest.trans ?_
    rw [freeZone_data hmaps (hl z (.head _)), if_neg, if_neg]
    · exact fun h => (hb h.1).2 _ h.2
    · exact fun h => (hb h.1).1 z (.head _) h.2

/-- An index block is no block of the bitmap. -/
theorem SuperBlock.ZoneMaps.zmap_ne (hmaps : sb.ZoneMaps) (hz : sb.InData z) (k : Fin 8) :
    sb.zmap k ≠ some (blockNr z) := by
  intro hmap
  have hbelow := hmaps.below _ _ hmap
  rw [toNat_blockNr] at hbelow
  exact absurd hz.1 (not_le.mpr hbelow)

theorem Fs.freeZones_data_self (hmaps : sb.ZoneMaps) (hl : ∀ z ∈ l, sb.InData z) (hz : sb.InData z)
    (hnot : z ∉ l) : (s.freeZones sb dev l).data dev (blockNr z) = s.data dev (blockNr z) := by
  refine freeZones_data hmaps hl fun _ => ⟨fun z' hz' hsame => ?_, hmaps.zmap_ne hz⟩
  obtain rfl := blockNr_inj hsame
  exact hnot hz'

theorem Fs.freeZones_setUsers (b : BlockNr) (n : ℕ) :
    (s.setUsers dev b n).freeZones sb dev l = (s.freeZones sb dev l).setUsers dev b n := by
  induction l generalizing s with
  | nil => rfl
  | cons z l ih =>
    have hstep : (s.setUsers dev b n).freeZone sb dev z =
        (s.freeZone sb dev z).setUsers dev b n := by
      unfold freeZone
      cases sb.zoneMap z <;> rfl
    show ((s.setUsers dev b n).freeZone sb dev z).freeZones sb dev l = _
    rw [hstep]
    exact ih

/-! ### The functions of the source -/

/-- The device is mounted with super block `sb`. -/
def Fs.Has (s : Fs) (dev : Dev) (sb : SuperBlock) : Prop :=
  ∃ i, s.superOf dev = some i ∧ s.super i = sb

theorem Fs.Has.freeZones (h : s.Has dev sb) : (s.freeZones sb dev l).Has dev sb := by
  rw [s.freeZones_eq]
  exact h

theorem freeBlock_eq (hsuper : s.Has dev sb) (hmaps : sb.ZoneMaps) (h : s.Freeable sb dev z) :
    freeBlock dev (blockNr z) s = .ok ⟨⟩ (s.freeZone sb dev z) := by
  obtain ⟨i, hi, rfl⟩ := hsuper
  obtain ⟨map, hmap, hbit⟩ := h.used
  obtain ⟨hlow, hhigh⟩ := h.inData
  have hlt := z.isLt
  have hint : (blockNr z).toInt = z.toNat := by
    rw [BitVec.toInt_eq_toNat_of_lt (by rw [toNat_blockNr]; omega), toNat_blockNr]
  have hnr : (blockNr z).toNat + 1 - (s.super i).firstdatazone.toNat = (s.super i).zoneBit z := by
    rw [toNat_blockNr]
    rfl
  have height : (s.super i).zoneBit z / 8192 < 8 := by
    unfold SuperBlock.zoneBit
    omega
  have hzmap : (s.super i).zmap ⟨(s.super i).zoneBit z / 8192, height⟩ = some map := by
    rw [← hmap]
    exact congrArg (s.super i).zmap (Fin.ext (Nat.mod_eq_of_lt height).symm)
  have hne : map ≠ blockNr z := fun hsame => hmaps.zmap_ne h.inData _ (hsame ▸ hmap)
  apply ok_of_wp
  rw [freeBlock, wp_bind, wp_getSuper_iff, hi]
  dsimp only
  rw [wp_bind, wp_get, hint, if_neg (by omega), if_neg (not_not.mpr h.users), wp_bind, wp_set]
  simp only [hnr, height, dif_pos, hzmap, wp_bind, wp_get, Fs.data_setData, hne, and_false,
    if_false, hbit, if_true]
  rw [updateData, wp_modify, Fs.freeZone, hmap]
  exact ⟨trivial, rfl⟩

theorem flatMap_take_succ (f : Fin n → List Zone) (k : Fin n) :
    ((finRange n).take (k + 1)).flatMap f = ((finRange n).take k).flatMap f ++ f k := by
  rw [take_add_one, getElem?_eq_getElem (by rw [length_finRange]; exact k.isLt),
    getElem_finRange, flatMap_append]
  exact congrArg (_ ++ ·) (flatMap_singleton f k)

theorem flatMap_take_prefix (f : Fin n → List Zone) (k : ℕ) :
    ((finRange n).take k).flatMap f <+: ((finRange n).take n).flatMap f := by
  have hsplit : (finRange n).take n = (finRange n).take k ++ (finRange n).drop k := by
    rw [take_append_drop, take_of_length_le (by rw [length_finRange])]
  rw [hsplit, flatMap_append]
  exact prefix_append ..

/-- The zones `blocks` gives for the first `k` entries of an index block. -/
def Fs.entriesBefore (s : Fs) (dev : Dev) (z : Zone) (blocks : Zone → List Zone) (k : ℕ) :
    List Zone :=
  ((finRange 512).take k).flatMap fun i =>
    if zoneAt (s.data dev (blockNr z)) i = 0 then []
    else blocks (zoneAt (s.data dev (blockNr z)) i)

theorem Fs.entriesBefore_succ (k : Fin 512) :
    s.entriesBefore dev z blocks (k + 1) = s.entriesBefore dev z blocks k ++
      if zoneAt (s.data dev (blockNr z)) k = 0 then []
      else blocks (zoneAt (s.data dev (blockNr z)) k) :=
  flatMap_take_succ _ k

/-- The entries before one are freed before it. -/
theorem Fs.entriesBefore_prefix (s : Fs) (dev : Dev) (z : Zone) (blocks : Zone → List Zone) (k : ℕ) :
    s.entriesBefore dev z blocks k <+: s.entriesBefore dev z blocks 512 :=
  flatMap_take_prefix _ k

/-- The loop of `free_ind` and `free_dind`, with what is done for one entry. -/
theorem freeEntries_eq (hmaps : sb.ZoneMaps) (hz : s.Freeable sb dev z)
    (hl : ∀ c ∈ s.entryZones rd dev z blocks, sb.InData c) (hnot : z ∉ s.entryZones rd dev z blocks)
    (hfree : ∀ (k : Fin 512) (t : Fs), OnDisk rd dev (blockNr z) →
      t = (s.setUsers dev (blockNr z) 1).freeZones sb dev (s.entriesBefore dev z blocks k) →
      zoneAt (s.data dev (blockNr z)) k ≠ 0 →
      free (zoneAt (s.data dev (blockNr z)) k) t =
        .ok ⟨⟩ (t.freeZones sb dev (blocks (zoneAt (s.data dev (blockNr z)) k)))) :
    freeEntries rd free dev (blockNr z) s =
      .ok ⟨⟩ (s.freeZones sb dev (s.entryZones rd dev z blocks)) := by
  apply ok_of_wp
  rw [freeEntries, wp_bind, wp_bread_iff]
  by_cases hdisk : OnDisk rd dev (blockNr z)
  · have hentries : s.entryZones rd dev z blocks = s.entriesBefore dev z blocks 512 := by
      rw [Fs.entryZones, if_pos hdisk, Fs.entriesBefore,
        take_of_length_le (by rw [length_finRange])]
    rw [hentries] at hl hnot ⊢
    rw [if_pos hdisk, if_pos rfl, hz.users, wp_bind]
    -- the index block is held in the loop
    refine (wp_forN (fun k t => t = (s.setUsers dev (blockNr z) 1).freeZones sb dev
      (s.entriesBefore dev z blocks k)) (fun k t ht => ?_) rfl).imp fun _ t ht => ?_
    · have hsub : ∀ c ∈ s.entriesBefore dev z blocks k, c ∈ s.entriesBefore dev z blocks 512 :=
        fun c hc => (s.entriesBefore_prefix dev z blocks k.1).subset hc
      have hdata : t.data dev (blockNr z) = s.data dev (blockNr z) := by
        rw [ht, Fs.freeZones_data_self hmaps (fun c hc => hl c (hsub c hc)) hz.inData
          fun hc => hnot (hsub z hc)]
        rfl
      rw [wp_bind, wp_get, hdata, Fs.entriesBefore_succ]
      refine wp_ite.mpr ⟨fun hc => ?_, fun hc => wp_pure.mpr ?_⟩
      · rw [if_neg hc, Fs.freeZones_append, ← ht]
        exact (wp_of_ok (hfree k t hdisk ht hc)).mpr rfl
      · rw [if_pos (not_not.mp hc), append_nil]
        exact ht
    · rw [ht, Fs.freeZones_setUsers, brelse, wp_bind, wp_get, Fs.users_setUsers,
        if_neg Nat.one_ne_zero, wp_set]
      have hback := Fs.setUsers_setUsers (s.freeZones sb dev (s.entriesBefore dev z blocks 512)) dev
        (blockNr z) 1
      rw [s.freeZones_eq, show ({ s with data := _ } : Fs).users dev (blockNr z) = 0 from hz.users,
        ← s.freeZones_eq] at hback
      exact ⟨rfl, hback⟩
  · rw [if_neg hdisk, if_neg Bool.false_ne_true, wp_pure, Fs.entryZones, if_neg hdisk]
    exact ⟨rfl, rfl⟩

theorem Fs.Freeable.setUsers (h : s.Freeable sb dev z') (hne : z' ≠ z) :
    (s.setUsers dev (blockNr z) n).Freeable sb dev z' := by
  refine ⟨h.inData, ?_, h.used⟩
  have hblock : blockNr z' ≠ blockNr z := fun hsame => hne (blockNr_inj hsame)
  simp only [Fs.setUsers, update_self, update_of_ne hblock]
  exact h.users

/-- The entries up to one. -/
theorem Fs.AllFreeable.upTo (h : s.AllFreeable sb dev (s.entryZones rd dev z blocks ++ [z]))
    (hdisk : OnDisk rd dev (blockNr z)) (hc : zoneAt (s.data dev (blockNr z)) k ≠ 0) :
    s.AllFreeable sb dev (s.entriesBefore dev z blocks k ++
      blocks (zoneAt (s.data dev (blockNr z)) k)) ∧
    z ∉ s.entriesBefore dev z blocks k ++ blocks (zoneAt (s.data dev (blockNr z)) k) := by
  have hentries : s.entryZones rd dev z blocks = s.entriesBefore dev z blocks 512 := by
    rw [entryZones, if_pos hdisk, entriesBefore, take_of_length_le (by rw [length_finRange])]
  obtain ⟨l, hl⟩ := s.entriesBefore_prefix dev z blocks (k.1 + 1)
  rw [entriesBefore_succ, if_neg hc] at hl
  rw [hentries, ← hl] at h
  refine ⟨h.left.left, fun hz => ?_⟩
  exact disjoint_of_nodup_append h.1 (mem_append_left _ hz) (mem_singleton_self z)

/-- When the loop comes to an entry, what hangs off it can be freed. -/
theorem Fs.AllFreeable.entry (hmaps : sb.ZoneMaps)
    (h : s.AllFreeable sb dev (s.entryZones rd dev z blocks ++ [z]))
    (hdisk : OnDisk rd dev (blockNr z))
    (ht : t = (s.setUsers dev (blockNr z) 1).freeZones sb dev (s.entriesBefore dev z blocks k))
    (hc : zoneAt (s.data dev (blockNr z)) k ≠ 0) :
    t.AllFreeable sb dev (blocks (zoneAt (s.data dev (blockNr z)) k)) := by
  obtain ⟨hall, hnot⟩ := h.upTo hdisk hc
  rw [ht]
  refine right hmaps ⟨hall.1, fun c hmem => (hall.2 c hmem).setUsers ?_⟩
  rintro rfl
  exact hnot hmem

/-- An index block, after its entries. -/
theorem freeIndex_eq (hsuper : s.Has dev sb) (hmaps : sb.ZoneMaps)
    (h : s.AllFreeable sb dev (s.entryZones rd dev z blocks ++ [z]))
    (hfree : ∀ (k : Fin 512) (t : Fs), OnDisk rd dev (blockNr z) →
      t = (s.setUsers dev (blockNr z) 1).freeZones sb dev (s.entriesBefore dev z blocks k) →
      zoneAt (s.data dev (blockNr z)) k ≠ 0 →
      free (zoneAt (s.data dev (blockNr z)) k) t =
        .ok ⟨⟩ (t.freeZones sb dev (blocks (zoneAt (s.data dev (blockNr z)) k)))) :
    (do freeEntries rd free dev (blockNr z); freeBlock dev (blockNr z)) s =
      .ok ⟨⟩ (s.freeZones sb dev (s.entryZones rd dev z blocks ++ [z])) := by
  have hmem : z ∈ s.entryZones rd dev z blocks ++ [z] :=
    mem_append_right _ (mem_singleton_self z)
  have hnot : z ∉ s.entryZones rd dev z blocks := fun hz =>
    disjoint_of_nodup_append h.1 hz (mem_singleton_self z)
  have hentries := freeEntries_eq hmaps (h.2 z hmem)
    (fun c hc => (h.2 c (mem_append_left _ hc)).inData) hnot hfree
  rw [bind_of_ok hentries, Fs.freeZones_append]
  exact freeBlock_eq hsuper.freeZones hmaps ((h.right hmaps).2 z (mem_singleton_self z))

theorem freeInd_eq (hsuper : s.Has dev sb) (hmaps : sb.ZoneMaps)
    (h : s.AllFreeable sb dev (s.indZones rd dev z)) :
    freeInd rd dev z s = .ok ⟨⟩ (s.freeZones sb dev (s.indZones rd dev z)) := by
  rw [freeInd]
  rw [Fs.indZones] at h ⊢
  by_cases hz : z = 0
  · rw [if_pos hz, if_pos hz]
    rfl
  · rw [if_neg hz] at h
    rw [if_neg hz, if_neg hz]
    refine freeIndex_eq hsuper hmaps h fun k t hdisk ht hc => ?_
    have hsuper' : t.Has dev sb := by
      rw [ht]
      exact Fs.Has.freeZones hsuper
    exact freeBlock_eq hsuper' hmaps ((h.entry hmaps hdisk ht hc).2 _ (mem_singleton_self _))

theorem Fs.indZones_congr (rd : RamDisk) (h : t.data dev (blockNr z) = s.data dev (blockNr z)) :
    t.indZones rd dev z = s.indZones rd dev z := by
  rw [indZones, indZones, entryZones, entryZones, h]

theorem Fs.mem_indZones (rd : RamDisk) (s : Fs) (dev : Dev) (hz : z ≠ 0) : z ∈ s.indZones rd dev z := by
  rw [indZones, if_neg hz]
  exact mem_append_right _ (mem_singleton_self z)

theorem freeDind_eq (hsuper : s.Has dev sb) (hmaps : sb.ZoneMaps)
    (h : s.AllFreeable sb dev (s.dindZones rd dev z)) :
    freeDind rd dev z s = .ok ⟨⟩ (s.freeZones sb dev (s.dindZones rd dev z)) := by
  rw [freeDind]
  rw [Fs.dindZones] at h ⊢
  by_cases hz : z = 0
  · rw [if_pos hz, if_pos hz]
    rfl
  · rw [if_neg hz] at h
    rw [if_neg hz, if_neg hz]
    refine freeIndex_eq hsuper hmaps h fun k t hdisk ht hc => ?_
    have hsuper' : t.Has dev sb := by
      rw [ht]
      exact Fs.Has.freeZones hsuper
    have hall := h.entry hmaps hdisk ht hc
    -- the indirect block has not been touched by the entries before it
    have hsame : t.data dev (blockNr (zoneAt (s.data dev (blockNr z)) k)) =
        s.data dev (blockNr (zoneAt (s.data dev (blockNr z)) k)) := by
      obtain ⟨hupTo, -⟩ := h.upTo hdisk hc
      have hmem := Fs.mem_indZones rd s dev hc
      rw [ht, Fs.freeZones_data_self hmaps (fun c hcmem => (hupTo.left.2 c hcmem).inData)
        (hupTo.2 _ (mem_append_right _ hmem)).inData fun hbefore =>
          disjoint_of_nodup_append hupTo.1 hbefore hmem]
      rfl
    have hzones := Fs.indZones_congr rd hsame
    rw [← hzones] at hall ⊢
    exact freeInd_eq hsuper' hmaps hall

/-! ### The whole file -/

/-- A block of the list to come is as it was. -/
theorem Fs.AllFreeable.data_eq (hmaps : sb.ZoneMaps) (h : s.AllFreeable sb dev (l ++ l'))
    (hz : z ∈ l') : (s.freeZones sb dev l).data dev (blockNr z) = s.data dev (blockNr z) :=
  freeZones_data_self hmaps (fun c hc => (h.left.2 c hc).inData)
    (h.2 z (mem_append_right _ hz)).inData fun hl =>
      disjoint_of_nodup_append h.1 hl hz

theorem Fs.AllFreeable.indZones_eq (hmaps : sb.ZoneMaps)
    (h : s.AllFreeable sb dev (l ++ s.indZones rd dev z)) :
    (s.freeZones sb dev l).indZones rd dev z = s.indZones rd dev z := by
  by_cases hz : z = 0
  · rw [indZones, indZones, if_pos hz, if_pos hz]
  · exact indZones_congr rd (h.data_eq hmaps (mem_indZones rd s dev hz))

theorem Fs.AllFreeable.dindZones_eq (hmaps : sb.ZoneMaps)
    (h : s.AllFreeable sb dev (l ++ s.dindZones rd dev z)) :
    (s.freeZones sb dev l).dindZones rd dev z = s.dindZones rd dev z := by
  rw [dindZones, dindZones]
  by_cases hz : z = 0
  · rw [if_pos hz, if_pos hz]
  rw [if_neg hz, if_neg hz]
  rw [dindZones, if_neg hz] at h
  have hself := h.data_eq hmaps (mem_append_right _ (mem_singleton_self z))
  rw [entryZones, hself]
  rw [entryZones] at h ⊢
  by_cases hdisk : OnDisk rd dev (blockNr z)
  · rw [if_pos hdisk] at h
    rw [if_pos hdisk, if_pos hdisk]
    refine congrArg (· ++ [z]) (flatMap_congr fun k hk => ?_)
    by_cases hc : zoneAt (s.data dev (blockNr z)) k = 0
    · rw [if_pos hc, if_pos hc]
    · rw [if_neg hc, if_neg hc]
      refine indZones_congr rd (h.data_eq hmaps (mem_append_left _ ?_))
      refine mem_flatMap.mpr ⟨k, hk, ?_⟩
      rw [if_neg hc]
      exact mem_indZones rd s dev hc
  · rw [if_neg hdisk, if_neg hdisk]

variable {ip : Ino}

theorem Fs.freeZones_setInode (n : MInode) :
    (s.setInode ip n).freeZones sb dev l = (s.freeZones sb dev l).setInode ip n := by
  induction l generalizing s with
  | nil => rfl
  | cons z l ih =>
    have hstep : (s.setInode ip n).freeZone sb dev z = (s.freeZone sb dev z).setInode ip n := by
      unfold freeZone
      cases sb.zoneMap z <;> rfl
    show ((s.setInode ip n).freeZone sb dev z).freeZones sb dev l = _
    rw [hstep]
    exact ih

theorem Fs.setInode_setInode (s : Fs) (ip : Ino) (n n' : MInode) :
    (s.setInode ip n).setInode ip n' = s.setInode ip n' := by
  unfold setInode
  rw [update_idem]

/-- The first `k` direct zones of an inode. -/
def MInode.directBefore (n : MInode) (k : ℕ) : List Zone :=
  ((finRange 7).take k).flatMap fun i =>
    if n.zone (i.castLE directs_le) = 0 then [] else [n.zone (i.castLE directs_le)]

/-- The inode without the first `k` zones. -/
def MInode.clearedBefore (n : MInode) (k : ℕ) : MInode :=
  { n with zone := fun j => if j.1 < k then 0 else n.zone j }

theorem MInode.directBefore_succ (n : MInode) (k : Fin 7) :
    n.directBefore (k + 1) = n.directBefore k ++
      if n.zone (k.castLE directs_le) = 0 then [] else [n.zone (k.castLE directs_le)] :=
  flatMap_take_succ _ k

theorem MInode.clearedBefore_succ (n : MInode) (k : Fin 7) :
    n.clearedBefore (k + 1) = { n.clearedBefore k with
      zone := update (n.clearedBefore k).zone (k.castLE directs_le) 0 } := by
  have hzone : (fun j : Fin 9 => if j.1 < k.1 + 1 then (0 : Zone) else n.zone j) =
      update (fun j : Fin 9 => if j.1 < k.1 then (0 : Zone) else n.zone j)
        (k.castLE directs_le) 0 := by
    funext j
    by_cases hj : j = k.castLE directs_le
    · rw [hj, update_self]
      exact if_pos (Nat.lt_succ_self _)
    · have hne : j.1 ≠ k.1 := fun h => hj (Fin.ext h)
      rw [update_of_ne hj]
      exact if_congr (by omega) rfl rfl
  simp only [clearedBefore, hzone]

/-- What `truncate` makes of an inode. -/
def MInode.truncated (n : MInode) (now : Word) : MInode :=
  { n with zone := fun _ => 0, size := 0, dirt := true, mtime := now, ctime := now }

theorem MInode.truncated_eq (n : MInode) (now : Word) : n.truncated now = { n.clearedBefore 7 with
      zone := update (update (n.clearedBefore 7).zone 7 0) 8 0
      size := 0
      dirt := true
      mtime := now
      ctime := now } := by
  have hzone : (fun _ => 0) = update (update (n.clearedBefore 7).zone 7 0) 8 0 := by
    funext j
    by_cases h8 : j = 8
    · rw [h8, update_self]
    rw [update_of_ne h8]
    by_cases h7 : j = 7
    · rw [h7, update_self]
    · rw [update_of_ne h7]
      exact (if_pos (show j.1 < 7 by omega)).symm
  simp only [truncated, hzone, clearedBefore]

theorem Fs.AllFreeable.setInode (h : s.AllFreeable sb dev l) (n : MInode) :
    (s.setInode ip n).AllFreeable sb dev l :=
  ⟨h.1, fun z hz => ⟨(h.2 z hz).inData, (h.2 z hz).users, (h.2 z hz).used⟩⟩

/-- The loop over the direct zones. -/
theorem wp_freeDirect {n : MInode} (hsuper : s.Has n.dev sb) (hmaps : sb.ZoneMaps)
    (hn : s.inode ip = n) (h : s.AllFreeable sb n.dev (n.directBefore 7)) : wp (forN 7 fun i => do
      let n ← readInodeTable ip
      if n.zone (i.castLE directs_le) ≠ 0 then
        freeBlock n.dev (blockNr (n.zone (i.castLE directs_le)))
        updateInode ip fun n => { n with zone := update n.zone (i.castLE directs_le) 0 }
      else
        return ())
      (fun _ t => t = (s.setInode ip (n.clearedBefore 7)).freeZones sb n.dev (n.directBefore 7))
      (fun _ _ => False) s := by
  refine wp_forN (fun k t => t = (s.setInode ip (n.clearedBefore k)).freeZones sb n.dev
    (n.directBefore k)) (fun k t ht => ?_) ?_
  · have hinode : t.inode ip = n.clearedBefore k := by
      rw [ht, Fs.freeZones_eq]
      exact update_self ..
    have hzone : (n.clearedBefore k).zone (k.castLE directs_le) = n.zone (k.castLE directs_le) :=
      if_neg (lt_irrefl _)
    rw [wp_bind, readInodeTable, wp_bind, wp_get, wp_pure, hinode, hzone]
    rw [MInode.directBefore_succ, MInode.clearedBefore_succ]
    refine wp_ite.mpr ⟨fun hne => ?_, fun hzero => wp_pure.mpr ?_⟩
    · rw [if_neg hne, Fs.freeZones_append]
      have hfree : t.Freeable sb n.dev (n.zone (k.castLE directs_le)) := by
        obtain ⟨l, hl⟩ : n.directBefore (k + 1) <+: n.directBefore 7 := flatMap_take_prefix _ _
        rw [MInode.directBefore_succ, if_neg hne] at hl
        rw [← hl] at h
        rw [ht]
        exact ((h.left.setInode _).right hmaps).2 _ (mem_singleton_self _)
      have hsuper' : t.Has n.dev sb := by
        rw [ht]
        exact Fs.Has.freeZones hsuper
      rw [wp_bind]
      refine (wp_of_ok (freeBlock_eq hsuper' hmaps hfree)).mpr ?_
      have hinode' : (t.freeZone sb n.dev (n.zone (k.castLE directs_le))).inode ip =
          n.clearedBefore k := by
        rw [t.freeZone_eq]
        exact hinode
      rw [updateInode, wp_modify, hinode', ht, Fs.freeZones_setInode, Fs.freeZones_setInode]
      show ((Fs.setInode _ ip _).freeZones sb n.dev [_]).setInode ip _ = _
      rw [Fs.freeZones_setInode, Fs.freeZones_setInode, Fs.setInode_setInode]
    · rw [if_pos (not_not.mp hzero), append_nil, ht]
      have hcleared : 0 = (n.clearedBefore k).zone (k.castLE directs_le) :=
        (hzone.trans (not_not.mp hzero)).symm
      have hupdate : update (n.clearedBefore k).zone (k.castLE directs_le) 0 =
          (n.clearedBefore k).zone := update_eq_self_iff.mpr hcleared
      rw [hupdate]
  · have hself : n.clearedBefore 0 = n := rfl
    rw [hself, ← hn]
    show s = s.setInode ip (s.inode ip)
    rw [Fs.setInode, update_eq_self]

theorem truncate_eq (hsuper : s.Has (s.inode ip).dev sb) (hmaps : sb.ZoneMaps)
    (htype : isReg (s.inode ip).mode = true ∨ isDir (s.inode ip).mode = true)
    (h : s.AllFreeable sb (s.inode ip).dev (s.fileZones rd ip)) :
    truncate rd ip s = .ok ⟨⟩ ((s.setInode ip ((s.inode ip).truncated s.now)).freeZones sb
      (s.inode ip).dev (s.fileZones rd ip)) := by
  have hzones : s.fileZones rd ip = (s.inode ip).directBefore 7 ++
      s.indZones rd (s.inode ip).dev ((s.inode ip).zone 7) ++
      s.dindZones rd (s.inode ip).dev ((s.inode ip).zone 8) := by
    rw [Fs.fileZones, MInode.directBefore, take_of_length_le (by rw [length_finRange])]
  rw [hzones] at h ⊢
  generalize hn : s.inode ip = n at hsuper htype h ⊢
  apply ok_of_wp
  rw [truncate, wp_bind, readInodeTable, wp_bind, wp_get, wp_pure, hn, if_neg, wp_bind]
  · refine (wp_freeDirect hsuper hmaps hn h.left.left).imp fun _ t ht => ?_
    -- the rest of the zones is what it was
    set u := s.setInode ip (n.clearedBefore 7)
    have hall : u.AllFreeable sb n.dev (n.directBefore 7 ++ u.indZones rd n.dev (n.zone 7) ++
        u.dindZones rd n.dev (n.zone 8)) := h.setInode _
    have hind : t.indZones rd n.dev (n.zone 7) = u.indZones rd n.dev (n.zone 7) := by
      rw [ht]
      exact hall.left.indZones_eq hmaps
    have hfree : freeInd rd n.dev (n.zone 7) t = .ok ⟨⟩ (u.freeZones sb n.dev (n.directBefore 7 ++
        u.indZones rd n.dev (n.zone 7))) := by
      rw [Fs.freeZones_append, ← ht, ← hind]
      refine freeInd_eq ?_ hmaps ?_
      · rw [ht]
        exact Fs.Has.freeZones hsuper
      · rw [hind, ht]
        exact hall.left.right hmaps
    have hsuper' : (u.freeZones sb n.dev (n.directBefore 7 ++
        u.indZones rd n.dev (n.zone 7))).Has n.dev sb := Fs.Has.freeZones hsuper
    have hdind := hall.dindZones_eq hmaps
    have hfree' := freeDind_eq hsuper' hmaps (by rw [hdind]; exact hall.right hmaps)
    rw [hdind, ← Fs.freeZones_append] at hfree'
    rw [wp_bind, wp_of_ok hfree, wp_bind, wp_of_ok hfree', wp_bind, wp_get, updateInode, wp_modify]
    refine ⟨rfl, ?_⟩
    have hinode (l : List Zone) : (u.freeZones sb n.dev l).inode ip = n.clearedBefore 7 := by
      rw [u.freeZones_eq]
      exact update_self ..
    have hnow (l : List Zone) : (u.freeZones sb n.dev l).now = s.now := by
      rw [u.freeZones_eq]
      rfl
    rw [hinode, hnow, n.truncated_eq, Fs.freeZones_setInode, Fs.freeZones_setInode,
      Fs.setInode_setInode]
    rfl
  · rintro ⟨hreg, hdir⟩
    rcases htype with htype | htype
    · rw [htype] at hreg
      cases hreg
    · rw [htype] at hdir
      cases hdir

/-- Freeing clears the bits of the zones. -/
theorem Fs.freeZones_bit (hmaps : sb.ZoneMaps) (hl : ∀ z ∈ l, sb.InData z) {k : Fin 8}
    (hmap : sb.zmap k = some map) (nr : Fin 8192) :
    bitAt ((s.freeZones sb dev l).data dev map) nr = true ↔ bitAt (s.data dev map) nr = true ∧
      ∀ z ∈ l, ¬ (sb.zoneMap z = some map ∧ bitNr (sb.zoneBit z) = nr) := by
  induction l generalizing s with
  | nil => exact (and_iff_left fun _ hz => absurd hz not_mem_nil).symm
  | cons z l ih =>
    have hblock : map ≠ blockNr z := fun hsame =>
      hmaps.zmap_ne (hl z (.head _)) k (hsame ▸ hmap)
    refine (ih (s := s.freeZone sb dev z) fun z' hz' => hl z' (.tail _ hz')).trans ?_
    rw [freeZone_data hmaps (hl z (.head _)), if_neg fun h => hblock h.2, forall_mem_cons,
      ← and_assoc]
    refine and_congr_left fun _ => ?_
    by_cases hz : sb.zoneMap z = some map
    · rw [if_pos ⟨rfl, hz⟩, bitAt_setBitAt]
      by_cases hnr : nr = bitNr (sb.zoneBit z)
      · rw [if_pos hnr]
        exact iff_of_false Bool.false_ne_true fun h => h.2 ⟨hz, hnr.symm⟩
      · rw [if_neg hnr]
        exact (and_iff_left fun h => hnr h.2.symm).symm
    · rw [if_neg fun h => hz h.2]
      exact (and_iff_left fun h => hz h.1).symm

end

/-- Exactly the zones are marked as free, and the inode is empty. -/
structure Truncated (s : Fs) (sb : SuperBlock) (ip : Ino) (zones : List Zone) (s' : Fs) : Prop where
  bits : ∀ k map nr, sb.zmap k = some map → (bitAt (s'.data (s.inode ip).dev map) nr = true ↔
      bitAt (s.data (s.inode ip).dev map) nr = true ∧
        ∀ z ∈ zones, ¬ (sb.zoneMap z = some map ∧ bitNr (sb.zoneBit z) = nr))
  /-- Blocks of other files. -/
  blocks : ∀ dev b, (dev = (s.inode ip).dev → (∀ z ∈ zones, b ≠ blockNr z) ∧
    ∀ k, sb.zmap k ≠ some b) → s'.data dev b = s.data dev b
  inode : s'.inode = update s.inode ip ((s.inode ip).truncated s.now)
  rest : s' = { s with data := s'.data, inode := s'.inode }

/-- `truncate` of a file or directory whose zones are in use, different, and held
by nobody frees exactly those; of anything else it changes nothing. -/
theorem truncate_frees_exactly (rd : RamDisk) (s : Fs) (ip : Ino) :
    (∀ sb, s.Has (s.inode ip).dev sb → sb.ZoneMaps →
      isReg (s.inode ip).mode = true ∨ isDir (s.inode ip).mode = true →
      s.AllFreeable sb (s.inode ip).dev (s.fileZones rd ip) →
      ∃ s', truncate rd ip s = .ok ⟨⟩ s' ∧ Truncated s sb ip (s.fileZones rd ip) s') ∧
    (¬ (isReg (s.inode ip).mode = true ∨ isDir (s.inode ip).mode = true) →
      truncate rd ip s = .ok ⟨⟩ s) := by
  constructor
  · intro sb hsuper hmaps htype hall
    refine ⟨_, truncate_eq hsuper hmaps htype hall, ?_⟩
    have hdata : ∀ z ∈ s.fileZones rd ip, sb.InData z := fun z hz => (hall.2 z hz).inData
    refine ⟨fun k map nr hmap => Fs.freeZones_bit hmaps hdata hmap nr,
      fun dev b hb => Fs.freeZones_data hmaps hdata hb, ?_, ?_⟩
    · rw [Fs.freeZones_eq]
      rfl
    · rw [Fs.freeZones_eq]
      rfl
  · intro htype
    rw [not_or, Bool.not_eq_true, Bool.not_eq_true] at htype
    apply ok_of_wp
    rw [truncate, wp_bind, readInodeTable, wp_bind, wp_get, wp_pure, if_pos, wp_pure]
    · exact ⟨rfl, rfl⟩
    · rw [htype.1, htype.2]
      exact ⟨rfl, rfl⟩

/-- A disk with one file: zone 5 and, through the index block 6, zone 7. -/
def indexedFile : Fs where
  mm := ⟨fun _ => 0, fun _ => 0, false⟩
  data _ block o := if block = 3 then 0xff else if block = 6 ∧ o = 0 then 7 else 0
  users _ _ := 0
  inode _ := { MInode.cleared with
    mode := 0x81a4
    size := 8192
    dev := rdDev
    zone := fun i => if i = 0 then 5 else if i = 7 then 6 else 0 }
  lastInode := 0
  super _ := ⟨32, 64, 1, 1, 5, 0x137f, fun k => if k = 0 then some 2 else none,
    fun k => if k = 0 then some 3 else none, rdDev, none, none⟩
  now := 0
  stale _ _ _ := 0

theorem indexedFile_freeable : ∀ z ∈ ([5, 7, 6] : List Zone),
    indexedFile.Freeable (indexedFile.super 0) (indexedFile.inode 0).dev z := by
  have hused : ([5, 7, 6] : List Zone).all fun z =>
      ((indexedFile.super 0).firstdatazone.toNat ≤ z.toNat ∧
        z.toNat < (indexedFile.super 0).nzones.toNat) ∧
      (indexedFile.super 0).zoneMap z = some 3 ∧
        bitAt (indexedFile.data (indexedFile.inode 0).dev 3)
          (bitNr ((indexedFile.super 0).zoneBit z)) = true := by
    decide +kernel
  intro z hz
  have hz' := of_decide_eq_true (all_eq_true.1 hused z hz)
  exact ⟨hz'.1, rfl, 3, hz'.2⟩

theorem indexedFile_truncate : ∃ s', truncate ⟨0, 0x10000, by decide⟩ 0 indexedFile = .ok ⟨⟩ s' ∧
      Truncated indexedFile (indexedFile.super 0) 0 [5, 7, 6] s' := by
  have hzones : indexedFile.fileZones ⟨0, 0x10000, by decide⟩ 0 = [5, 7, 6] := by decide +kernel
  have hmap : ∀ k b, (indexedFile.super 0).zmap k = some b → k = 0 ∧ b = 3 := by
    intro k b h
    rcases ite_eq_iff.1 h with ⟨hk, hb⟩ | ⟨_, hb⟩
    · exact ⟨hk, (Option.some.inj hb).symm⟩
    · exact absurd hb (Option.some_ne_none b).symm
  rw [← hzones]
  refine (truncate_frees_exactly _ indexedFile 0).1 _ ⟨0, by decide +kernel, rfl⟩
    ⟨fun k b h => ?_, fun k k' b h h' => (hmap k b h).1.trans (hmap k' b h').1.symm⟩
    (.inl (by decide +kernel)) ?_
  · rw [(hmap k b h).2]
    decide +kernel
  · rw [hzones]
    exact ⟨by decide +kernel, indexedFile_freeable⟩

end LinuxRv.Minix
