import LinuxRv.Fs.CacheShape

/-!
The structure of the buffer cache holds in every state the kernel can reach.

`Cache.Ok` is what is kept: the structure of the queues, and that no buffer was
ever re-labelled while in use or dirty. Every procedure of the cache and of the
layers under it preserves it, on every way out of it.
-/

namespace LinuxRv.Fs

open ByteMemory Prog Links List

variable {m : ℕ} {rd : RamDisk}

structure Cache.Ok (s : Cache m) : Prop where
  shape : s.shape.Ok
  /-- `getblk` has only re-labelled buffers that were unused and clean. -/
  relabelled : ∀ b ∈ s.relabelled, b.count = 0 ∧ b.dirt = false

theorem Cache.Ok.of_eq {s s' : Cache m} (h : s.Ok) (hshape : s'.shape = s.shape)
    (hrel : s'.relabelled = s.relabelled) : s'.Ok :=
  ⟨hshape ▸ h.shape, hrel ▸ h.relabelled⟩

/-! ### Looking a block up -/

theorem wp_findBuffer {s : Cache m} (h : s.shape.Ok) {dev : Dev} {block : BlockNr}
    {Q : Option (Buf m) → Cache m → Prop} {E : Stop → Cache m → Prop}
    (hsome : ∀ bh, dev ≠ 0 → (s.buf bh).dev = dev → (s.buf bh).blocknr = block → Q (some bh) s)
    (hnone : (∀ b, dev ≠ 0 → ¬((s.buf b).dev = dev ∧ (s.buf b).blocknr = block)) → Q none s) :
    wp (findBuffer dev block) Q E s := by
  obtain ⟨l, hl, hmem⟩ := h.queue (hashFn dev block)
  have hlen : l.length ≤ m + 1 := by simpa using hl.nodup.length_le_card
  have hsearch : search (fun bh => (s.buf bh).next) (fun bh => (s.buf bh).isFor dev block) (m + 1)
      (s.hashTable (hashFn dev block)) = some _ := hl.search_eq _ hlen
  unfold findBuffer
  rw [wp_bind, wp_get, hsearch]
  simp only [wp_pure]
  cases hfind : l.find? fun bh => (s.buf bh).isFor dev block with
  | some bh =>
    have hfor := find?_some hfind
    simp only [BufferHead.isFor, Bool.and_eq_true, beq_iff_eq] at hfor
    have hdev : (s.buf bh).dev ≠ 0 := ((hmem bh).mp (mem_of_find?_eq_some hfind)).1
    exact hsome bh (hfor.1 ▸ hdev) hfor.1 hfor.2
  | none =>
    refine hnone fun b h0 hb => ?_
    have hbl : b ∈ l := (hmem b).mpr ⟨by
      change (s.buf b).dev ≠ 0
      rwa [hb.1], by
      change hashFn (s.buf b).dev (s.buf b).blocknr = _
      rw [hb.1, hb.2]⟩
    exact find?_eq_none.mp hfind b hbl (by simp [BufferHead.isFor, hb.1, hb.2])

/-! ### Procedures that do not queue

None of these assigns a link or a label, nor looks at an inode, so each keeps
what depends on nothing else. -/

/-- The invariant `I` is about the queues, the labels and the inodes only, and `E`
allows every stop but one at the lock of an inode. -/
class IgnoresBuffers (I : Cache m → Prop) (E : Stop → Cache m → Prop) : Prop where
  congr : ∀ {s s' : Cache m}, I s → s'.shape = s.shape → s'.relabelled = s.relabelled →
    s'.inode = s.inode → I s'
  stop : ∀ {e : Stop} {s : Cache m}, (∀ i, e ≠ .inodeLock i) → I s → E e s

instance : IgnoresBuffers (m := m) Cache.Ok fun _ => Cache.Ok :=
  ⟨fun h hshape hrel _ => h.of_eq hshape hrel, fun _ h => h⟩

section

variable {I : Cache m → Prop} {E : Stop → Cache m → Prop} [IgnoresBuffers I E] {α : Type}

theorem keeps_stop {e : Stop} (h : ∀ i, e ≠ .inodeLock i) : Keeps I E (throw e : CacheM m α) :=
  .throw fun _ => IgnoresBuffers.stop h

theorem keeps_modify {f : Cache m → Cache m} (h : ∀ s, (f s).shape = s.shape ∧
    (f s).relabelled = s.relabelled ∧ (f s).inode = s.inode) :
    Keeps I E (modify f : CacheM m PUnit) :=
  .modify fun s hs => IgnoresBuffers.congr E hs (h s).1 (h s).2.1 (h s).2.2

theorem keeps_setBuf (bh : Buf m) {f : BufferHead m → BufferHead m}
    (hf : ∀ b, (f b).links = b.links) : Keeps I E (setBuf bh f) :=
  keeps_modify fun s => ⟨s.shape_setBuf bh (hf _), rfl, rfl⟩

theorem keeps_waitOnBuffer (bh : Buf m) : Keeps I E (waitOnBuffer bh) :=
  .bind .get fun _ => .ite (keeps_stop nofun) (.pure _)

theorem keeps_lockBuffer (bh : Buf m) : Keeps I E (lockBuffer bh) :=
  .bind (keeps_waitOnBuffer bh) fun _ => keeps_setBuf bh fun _ => rfl

theorem keeps_unlockBuffer (bh : Buf m) : Keeps I E (unlockBuffer bh) := keeps_setBuf bh fun _ => rfl

theorem keeps_endRequest (r : Fin nrRequest) (uptodate : Bool) :
    Keeps I E (endRequest r uptodate : CacheM m PUnit) :=
  .bind .get fun _ => .bind (keeps_setBuf _ fun _ => rfl) fun _ => .bind (keeps_unlockBuffer _) fun _ =>
    keeps_modify fun _ => ⟨rfl, rfl, rfl⟩

theorem keeps_transfer (q : Request m) (k : ℕ) :
    Keeps I E (modify fun s => s.transfer q k : CacheM m PUnit) := by
  unfold Cache.transfer
  cases q.cmd with
  | write => exact keeps_modify fun _ => ⟨rfl, rfl, rfl⟩
  | read => exact keeps_modify fun s => ⟨s.shape_setBuf q.bh rfl, rfl, rfl⟩

theorem keeps_doRdRequest (fuel : ℕ) : Keeps I E (doRdRequest rd fuel : CacheM m PUnit) := by
  induction fuel with
  | zero => exact keeps_stop nofun
  | succ fuel ih =>
    refine .bind .get fun s => ?_
    split
    · exact .pure _
    · refine .ite (keeps_stop nofun) (.ite (keeps_stop nofun) (.ite ?_ (.ite (keeps_stop nofun) ?_)))
      · exact .bind (keeps_endRequest _ _) fun _ => ih
      · exact .bind (keeps_transfer _ _) fun _ => .bind (keeps_endRequest _ _) fun _ => ih

theorem keeps_elevator (q : Request m) (fuel : ℕ) (tmp : Fin nrRequest) :
    Keeps I E (elevator q fuel tmp) := by
  induction fuel generalizing tmp with
  | zero => exact keeps_stop nofun
  | succ fuel ih =>
    refine .bind .get fun s => ?_
    split
    · exact .pure _
    · exact .ite (.pure _) (ih _)

theorem keeps_addRequest (r : Fin nrRequest) : Keeps I E (addRequest rd r : CacheM m PUnit) := by
  refine .bind .get fun s => .bind (keeps_setBuf _ fun _ => rfl) fun _ => .bind .get fun s' => ?_
  split
  · exact .bind (keeps_modify fun _ => ⟨rfl, rfl, rfl⟩) fun _ => keeps_doRdRequest _
  · exact .bind (keeps_elevator _ _ _) fun _ =>
      .bind (keeps_modify fun _ => ⟨rfl, rfl, rfl⟩) fun _ => keeps_modify fun _ => ⟨rfl, rfl, rfl⟩

theorem keeps_makeRequest (rw : Rw) (bh : Buf m) : Keeps I E (makeRequest rd rw bh) := by
  refine .bind .get fun s => .ite (.pure _) (.bind (keeps_lockBuffer bh) fun _ =>
    .bind .get fun s => .ite (.bind (keeps_unlockBuffer bh) fun _ => .pure _)
      (.bind .get fun s => ?_))
  split
  · exact .ite (keeps_unlockBuffer bh) (keeps_stop nofun)
  · exact .bind (keeps_modify fun _ => ⟨rfl, rfl, rfl⟩) fun _ => keeps_addRequest _

theorem keeps_llRwBlock (rw : Rw) (bh : Buf m) : Keeps I E (llRwBlock rd rw bh) :=
  .bind .get fun _ => .ite (.pure _) (keeps_makeRequest rw bh)

theorem keeps_findBuffer (dev : Dev) (block : BlockNr) :
    Keeps I E (findBuffer dev block : CacheM m (Option (Buf m))) := by
  refine .bind .get fun s => ?_
  split
  · exact .pure _
  · exact keeps_stop nofun

theorem keeps_getHashTable (dev : Dev) (block : BlockNr) :
    Keeps I E (getHashTable dev block : CacheM m (Option (Buf m))) := by
  refine .bind (keeps_findBuffer dev block) fun r => ?_
  cases r with
  | none => exact .pure _
  | some bh =>
    exact .bind (keeps_setBuf bh fun _ => rfl) fun _ => .bind (keeps_waitOnBuffer bh) fun _ =>
      .bind .get fun _ => .ite (.pure _) (.bind (keeps_setBuf bh fun _ => rfl) fun _ => keeps_stop nofun)

theorem keeps_brelse (bh : Buf m) : Keeps I E (brelse bh) :=
  .bind (keeps_waitOnBuffer bh) fun _ => .bind .get fun _ => .bind (keeps_setBuf bh fun _ => rfl) fun _ =>
    .ite (keeps_stop nofun) (.pure _)

theorem keeps_flushDev (dev : Dev) : Keeps I E (flushDev rd dev : CacheM m PUnit) :=
  .forN fun bh => .bind .get fun _ => .ite (.pure _) (.bind (keeps_waitOnBuffer bh) fun _ =>
    .bind .get fun _ => .ite (keeps_llRwBlock _ bh) (.pure _))

theorem keeps_getSuper (dev : Dev) : Keeps I E (getSuper dev : CacheM m (Option SuperBlock)) := by
  refine .bind .get fun s => .ite (.pure _) ?_
  split
  · exact .pure _
  · exact .ite (keeps_stop nofun) (.pure _)

theorem keeps_findVictim (start : Buf m) (fuel : ℕ) (tmp : Buf m) (best : Option (Buf m)) :
    Keeps I E (findVictim start fuel tmp best) := by
  induction fuel generalizing tmp best with
  | zero => exact keeps_stop nofun
  | succ fuel ih =>
    refine .bind .get fun s => .ite (.pure _) ?_
    cases (s.buf tmp).nextFree with
    | none => exact keeps_stop nofun
    | some nx => exact .ite (.pure _) (ih _ _)

theorem keeps_store (bh : Buf m) (data : Cache m → Block) :
    Keeps I E (modify fun s => s.store bh (data s) : CacheM m PUnit) :=
  keeps_modify fun s =>
    ⟨s.shape_setBuf bh (f := fun b => { b with data := data s }) rfl, rfl, rfl⟩

variable {getblk : Dev → BlockNr → CacheM m (Buf m)}
  (hget : ∀ dev block, Keeps I E (getblk dev block))

include hget

theorem keeps_breadWith (dev : Dev) (block : BlockNr) : Keeps I E (breadWith rd getblk dev block) :=
  .bind (hget dev block) fun bh => .bind .get fun _ => .ite (.pure _)
    (.bind (keeps_llRwBlock _ bh) fun _ => .bind (keeps_waitOnBuffer bh) fun _ =>
      .bind .get fun _ => .ite (.pure _) (.bind (keeps_brelse bh) fun _ => .pure _))

theorem keeps_readAheadWith (dev : Dev) (bh : Buf m) (rest : List BlockNr) :
    Keeps I E (readAheadWith rd getblk dev bh rest) := by
  induction rest with
  | nil => exact .pure _
  | cons block rest ih =>
    have hnext (tmp : Buf m) : Keeps I E (do
        setBuf tmp fun b => { b with count := b.count - 1 }
        readAheadWith rd getblk dev bh rest) :=
      .bind (keeps_setBuf tmp fun _ => rfl) fun _ => ih
    exact .bind (hget dev block) fun tmp => .bind .get fun _ =>
      .ite (.bind (keeps_llRwBlock _ bh) fun _ => hnext tmp) (hnext tmp)

theorem keeps_breadaWith (dev : Dev) (first : BlockNr) (rest : List BlockNr) :
    Keeps I E (breadaWith rd getblk dev first rest) := by
  have hnext (bh : Buf m) : Keeps I E (do
      readAheadWith rd getblk dev bh rest
      waitOnBuffer bh
      if ((← get).buf bh).uptodate then return some bh
      brelse bh
      return none) :=
    .bind (keeps_readAheadWith hget dev bh rest) fun _ => .bind (keeps_waitOnBuffer bh) fun _ =>
      .bind .get fun _ => .ite (.pure _) (.bind (keeps_brelse bh) fun _ => .pure _)
  exact .bind (hget dev first) fun bh => .bind .get fun _ =>
    .ite (.bind (keeps_llRwBlock _ bh) fun _ => hnext bh) (hnext bh)

end

/-! ### Inodes -/

section

variable {getblk : Dev → BlockNr → CacheM m (Buf m)}
  (hget : ∀ dev block, Preserves Cache.Ok (getblk dev block))

include hget

omit hget in
theorem preserves_setInode (i : Fin nrInode) (f : CoreInode → CoreInode) :
    Preserves Cache.Ok (modify fun s => s.setInode i f : CacheM m PUnit) :=
  .modify fun _ h => h.of_eq rfl rfl

omit hget in
theorem preserves_waitOnInode (i : Fin nrInode) :
    Preserves Cache.Ok (waitOnInode i : CacheM m PUnit) :=
  .bind .get fun _ => .ite (.throw _) (.pure _)

theorem preserves_writeInodeWith (i : Fin nrInode) :
    Preserves Cache.Ok (writeInodeWith rd getblk i) := by
  refine .bind (preserves_waitOnInode i) fun _ => .bind (preserves_setInode i _) fun _ =>
    .bind .get fun s => .ite (preserves_setInode i _) (.bind (keeps_getSuper _) fun sb => ?_)
  cases sb with
  | none => exact .throw _
  | some sb =>
    refine .bind (keeps_breadWith hget _ _) fun r => ?_
    cases r with
    | none => exact .throw _
    | some bh =>
      exact .bind (keeps_store bh _) fun _ =>
        .bind (keeps_setBuf bh fun _ => rfl) fun _ => .bind (preserves_setInode i _) fun _ =>
          .bind (keeps_brelse bh) fun _ => preserves_setInode i _

theorem preserves_syncInodesWith : Preserves Cache.Ok (syncInodesWith rd getblk) :=
  .forN fun i => .bind (preserves_waitOnInode i) fun _ => .bind .get fun _ =>
    .ite (preserves_writeInodeWith hget i) (.pure _)

theorem preserves_syncDevWith (dev : Dev) : Preserves Cache.Ok (syncDevWith rd getblk dev) :=
  .bind (keeps_flushDev dev) fun _ => .bind (preserves_syncInodesWith hget) fun _ =>
    keeps_flushDev dev

end

/-! ### `getblk` -/

/-- An unused buffer that `getblk` does not give up on is unused and clean in
the end. -/
theorem wp_cleanVictim {sync : Dev → CacheM m PUnit} (hsync : ∀ dev, Preserves Cache.Ok (sync dev))
    (bh : Buf m) (fuel : ℕ) {s : Cache m} (h : s.Ok) (hcount : (s.buf bh).count = 0) :
    wp (cleanVictim sync bh fuel)
      (fun r s' => s'.Ok ∧ (r = false → (s'.buf bh).count = 0 ∧ (s'.buf bh).dirt = false))
      (fun _ s' => s'.Ok) s := by
  induction fuel generalizing s with
  | zero => exact wp_throw.mpr h
  | succ fuel ih =>
    unfold cleanVictim
    rw [wp_bind, wp_get, wp_ite]
    refine ⟨fun hdirt => wp_pure.mpr ⟨h, fun _ => ⟨hcount, hdirt⟩⟩, fun _ => ?_⟩
    refine (hsync _ s h).next fun _ s₁ h₁ => ?_
    refine (keeps_waitOnBuffer bh s₁ h₁).next fun _ s₂ h₂ => ?_
    rw [wp_bind, wp_get, wp_ite]
    exact ⟨fun _ => wp_pure.mpr ⟨h₂, fun hf => nomatch hf⟩, fun hc => ih h₂ (not_not.mp hc)⟩

theorem preserves_getblk (fuel : ℕ) (dev : Dev) (block : BlockNr) :
    Preserves Cache.Ok (getblk rd fuel dev block : CacheM m (Buf m)) := by
  induction fuel generalizing dev block with
  | zero => exact .throw _
  | succ fuel ih =>
    refine .bind (keeps_getHashTable dev block) fun r => ?_
    cases r with
    | some bh => exact .pure bh
    | none =>
      refine .bind .get fun s => ?_
      split
      · exact .throw _
      · refine .bind (keeps_findVictim _ _ _ _) fun r => ?_
        cases r with
        | none => exact .throw _
        | some bh =>
          refine .bind (keeps_waitOnBuffer bh) fun _ => ?_
          intro s hs
          rw [wp_bind, wp_get, wp_ite]
          refine ⟨fun _ => ih dev block s hs, fun hcount => ?_⟩
          refine (wp_cleanVictim (preserves_syncDevWith ih) bh _ hs (not_not.mp hcount)).next
            fun r s₁ h₁ => ?_
          cases r with
          | true => exact ih dev block s₁ h₁.1
          | false =>
            rw [if_neg Bool.false_ne_true, wp_bind]
            refine wp_findBuffer h₁.1.shape (fun _ _ _ _ => ih dev block s₁ h₁.1) fun hnew => ?_
            rw [if_neg (by simp), wp_bind]
            refine wp_relabel h₁.1.shape hnew fun s₂ hs₂ => wp_pure.mpr ⟨hs₂.ok, ?_⟩
            have hrel : s₂.relabelled = s₁.buf bh :: s₁.relabelled :=
              congrArg Body.relabelled hs₂.body_eq
            rw [hrel]
            exact forall_mem_cons.mpr ⟨h₁.2 rfl, h₁.1.relabelled⟩

/-! ### Whole runs -/

/-- What the kernel does with the cache: the calls, and what their callers do
to the buffers, inodes and super-blocks in between. -/
inductive CacheCall (m : ℕ)
  | getblk (dev : Dev) (block : BlockNr)
  | getHashTable (dev : Dev) (block : BlockNr)
  | bread (dev : Dev) (block : BlockNr)
  | breada (dev : Dev) (first : BlockNr) (rest : List BlockNr)
  | brelse (bh : Buf m)
  | syncDev (dev : Dev)
  | sysSync
  | store (bh : Buf m) (data : Block) (uptodate dirt : Bool)
  | setInode (i : Fin nrInode) (n : CoreInode)
  | setSuper (i : Fin nrSuper) (sb : SuperBlock)

def CacheCall.run (rd : RamDisk) (fuel : ℕ) : CacheCall m → CacheM m PUnit
  | .getblk dev block => discard (Fs.getblk rd fuel dev block)
  | .getHashTable dev block => discard (Fs.getHashTable dev block)
  | .bread dev block => discard (Fs.bread rd fuel dev block)
  | .breada dev first rest => discard (Fs.breada rd fuel dev first rest)
  | .brelse bh => Fs.brelse bh
  | .syncDev dev => Fs.syncDev rd fuel dev
  | .sysSync => Fs.sysSync rd fuel
  | .store bh data uptodate dirt => do
      modify fun s => s.store bh data
      setBuf bh fun b => { b with uptodate := uptodate, dirt := dirt }
  | .setInode i n => modify fun s => s.setInode i fun _ => n
  | .setSuper i sb => modify fun s => { s with super := Function.update s.super i sb }

/-- The state after the calls. A call that sleeps leaves the others to go on; one
that does not come back for another reason ends the run. -/
def Cache.run (rd : RamDisk) (fuel : ℕ) (s : Cache m) : List (CacheCall m) → Cache m
  | [] => s
  | call :: calls =>
    match call.run rd fuel s with
    | .ok _ s' => s'.run rd fuel calls
    | .error .sleep s' | .error (.inodeLock _) s' => s'.run rd fuel calls
    | .error _ s' => s'

theorem preserves_sysSync (fuel : ℕ) : Preserves Cache.Ok (sysSync rd fuel : CacheM m PUnit) :=
  .bind (preserves_syncInodesWith (preserves_getblk fuel)) fun _ => .forN fun bh =>
    .bind (keeps_waitOnBuffer bh) fun _ => .bind .get fun _ =>
      .ite (keeps_llRwBlock _ bh) (.pure _)

theorem CacheCall.preserves_run (fuel : ℕ) (call : CacheCall m) :
    Preserves Cache.Ok (call.run rd fuel) := by
  cases call with
  | getblk dev block => exact .discard (preserves_getblk fuel dev block)
  | getHashTable dev block => exact .discard (keeps_getHashTable dev block)
  | bread dev block => exact .discard (keeps_breadWith (preserves_getblk fuel) dev block)
  | breada dev first rest =>
    exact .discard (keeps_breadaWith (preserves_getblk fuel) dev first rest)
  | brelse bh => exact keeps_brelse bh
  | syncDev dev => exact preserves_syncDevWith (preserves_getblk fuel) dev
  | sysSync => exact preserves_sysSync fuel
  | store bh data uptodate dirt =>
    exact .bind (keeps_store bh fun _ => data) fun _ => keeps_setBuf bh fun _ => rfl
  | setInode i n => exact preserves_setInode i _
  | setSuper i sb => exact .modify fun _ h => h.of_eq rfl rfl

theorem Cache.Ok.run {s : Cache m} (h : s.Ok) (fuel : ℕ) (calls : List (CacheCall m)) :
    (s.run rd fuel calls).Ok := by
  induction calls generalizing s with
  | nil => exact h
  | cons call calls ih =>
    have hcall : Preserves Cache.Ok (call.run rd fuel) := call.preserves_run fuel
    have hcall := hcall s h
    unfold Cache.run
    split
    next hrun => exact ih (hcall.of_ok hrun)
    next hrun => exact ih (hcall.of_error hrun)
    next hrun => exact ih (hcall.of_error hrun)
    next hrun => exact hcall.of_error hrun

/-- The buffers in the order of their addresses form the first free list. -/
theorem ring_bufferInit (s : Cache m) :
    Ring (bufferInit s).shape.nextFree (bufferInit s).shape.prevFree (finRange (m + 1)) := by
  refine ⟨nodup_finRange _, isChain_iff_getElem.mpr fun i hi => ?_⟩
  have hhead : (finRange (m + 1)).head? = some 0 := by simp [finRange_succ]
  simp only [hhead, Option.toList_some, length_append, length_finRange, length_singleton] at hi ⊢
  rw [getElem_append_left (by simp; omega), getElem_finRange, Fin.cast_mk]
  have hnext (j : Buf m) :
      (bufferInit s).shape.nextFree j = some (if j = Fin.last m then 0 else j + 1) := rfl
  have hprev (j : Buf m) :
      (bufferInit s).shape.prevFree j = some (if j = 0 then Fin.last m else j - 1) := rfl
  by_cases hlast : i = m
  · have hi' : (⟨i, by omega⟩ : Buf m) = Fin.last m := Fin.ext hlast
    rw [getElem_append_right (by simp; omega), getElem_singleton]
    refine ⟨?_, ?_⟩
    · rw [hnext, if_pos hi']
    · rw [hprev, if_pos rfl]
      exact congrArg some hi'.symm
  · have hi' : (⟨i, by omega⟩ : Buf m) ≠ Fin.last m := fun h => hlast (congrArg Fin.val h)
    have hsucc : (⟨i, by omega⟩ : Buf m) + 1 = ⟨i + 1, by omega⟩ :=
      Fin.ext (Fin.val_add_one_of_lt (Fin.lt_last_iff_ne_last.mpr hi'))
    rw [getElem_append_left (by simp; omega), getElem_finRange, Fin.cast_mk]
    refine ⟨?_, ?_⟩
    · rw [hnext, if_neg hi']
      exact congrArg some hsucc
    · rw [hprev, if_neg (by simp [Fin.ext_iff])]
      exact congrArg some (sub_eq_of_eq_add hsucc.symm)

theorem Shape.Ok.bufferInit (s : Cache m) : (bufferInit s).shape.Ok where
  free := ⟨_, ring_bufferInit s, mem_finRange⟩
  freeList := rfl
  queue h := ⟨[], .nil, fun bh => by simp [Cache.shape, Fs.bufferInit]⟩
  loose _ _ := ⟨rfl, rfl⟩
  unique _ _ h := absurd rfl h

/-- Starting from `buffer_init`, whatever the memory held before, every sequence
of calls leaves the free list and the hash queues well formed, at most one
buffer for a block, and has re-labelled only unused clean buffers. -/
theorem buffer_cache_well_formed (rd : RamDisk) (fuel : ℕ) (s : Cache m)
    (calls : List (CacheCall m)) : ((bufferInit s).run rd fuel calls).Ok :=
  Cache.Ok.run ⟨.bufferInit s, by simp [bufferInit]⟩ fuel calls

end LinuxRv.Fs
