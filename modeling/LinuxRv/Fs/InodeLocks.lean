import LinuxRv.Fs.CacheInvariant

/-!
Inode locks and the buffer cache.

`read_inode` and `write_inode` hold the lock of an inode while they ask for its
block. If the block is in the cache, or there is an unused clean buffer for it,
`getblk` comes back without touching the inodes. Otherwise it has to write a
dirty buffer out, and `sync_dev` goes through all inodes and waits for every
lock: also for the one that is held, which then is never given back.
-/

namespace LinuxRv.Fs

open ByteMemory Prog Links Function List Option Cache

variable {m : ℕ} {rd : RamDisk} {s : Cache m} {E : Stop → Cache m → Prop} {dev : Dev} {fuel : ℕ}
  {start tmp : Buf m} {best : Option (Buf m)} {io : InodeIo}

/-- Not a stop at the lock of an inode. -/
def NoLock (e : Stop) (_ : Cache m) : Prop := ∀ i, e ≠ .inodeLock i

/-! ### What does not look at inodes -/

section

variable {N : Fin nrInode → CoreInode} {α : Type}

/-- `c` leaves the inodes as they are and does not wait for one. -/
abbrev Calm (N : Fin nrInode → CoreInode) (c : CacheM m α) : Prop :=
  Keeps (fun s => s.inode = N) NoLock c

instance : IgnoresBuffers (m := m) (fun s => s.inode = N) NoLock :=
  ⟨fun h _ _ hinode => hinode.trans h, fun h _ => h⟩

theorem calm_setBuf (bh : Buf m) (f : BufferHead m → BufferHead m) : Calm N (setBuf bh f) :=
  .modify fun _ h => h

theorem calm_setAt (p : Option (Buf m)) (f : BufferHead m → BufferHead m) :
    Calm N (modify fun s => s.setAt p f : CacheM m PUnit) := by
  refine .modify fun s hs => ?_
  unfold setAt
  split
  · exact hs
  · exact hs

theorem calm_removeFromQueues (bh : Buf m) : Calm N (removeFromQueues bh) := by
  refine .bind .get fun s => .bind (calm_setAt _ _) fun _ => .bind (calm_setAt _ _) fun _ =>
    .bind (.modify fun s hs => ?_) fun _ => ?_
  · split
    · exact hs
    · exact hs
  · split
    · refine .bind (calm_setBuf _ _) fun _ => .bind (calm_setBuf _ _) fun _ =>
        .modify fun s hs => ?_
      split
      · exact hs
      · exact hs
    · exact keeps_stop nofun

theorem calm_insertIntoQueues (bh : Buf m) : Calm N (insertIntoQueues bh) := by
  refine .bind .get fun s => ?_
  split
  · exact keeps_stop nofun
  · refine .bind (calm_setBuf _ _) fun _ => .bind .get fun s => .bind (calm_setBuf _ _) fun _ =>
      .bind .get fun s => ?_
    split
    · exact keeps_stop nofun
    · exact .bind (calm_setBuf _ _) fun _ => .bind (calm_setBuf _ _) fun _ =>
        .bind (calm_setBuf _ _) fun _ => .bind .get fun _ => .ite (.pure _) (.bind .get fun _ =>
          .bind (calm_setBuf _ _) fun _ => .bind (.modify fun _ h => h) fun _ => calm_setAt _ _)

theorem calm_relabel (bh : Buf m) (dev : Dev) (block : BlockNr) : Calm N (relabel bh dev block) :=
  .bind (.modify fun _ h => h) fun _ => .bind (calm_setBuf _ _) fun _ =>
    .bind (calm_removeFromQueues bh) fun _ => .bind (calm_setBuf _ _) fun _ =>
      calm_insertIntoQueues bh

end

/-! ### Finding a buffer without writing one out -/

/-- The block is in the cache. -/
def Cache.Cached (s : Cache m) (dev : Dev) (block : BlockNr) : Prop :=
  ∃ b, (s.buf b).dev = dev ∧ (s.buf b).blocknr = block

/-- The buffer is unused, clean and unlocked. -/
def Cache.Spare (s : Cache m) (b : Buf m) : Prop := (s.buf b).count = 0 ∧ (s.buf b).badness = 0

/-- One round of the search. -/
theorem wp_findVictim_round {next : Buf m} {Q : Option (Buf m) → Cache m → Prop}
    (hnext : (s.buf tmp).nextFree = some next)
    (hbest : ∀ b ∈ best, (s.buf b).count = 0 ∧ (s.buf b).badness ≠ 0)
    (hspare : s.Spare tmp → Q (some tmp) s) (hgo : ¬ s.Spare tmp → ∀ best' : Option (Buf m),
      (∀ b ∈ best', (s.buf b).count = 0 ∧ (s.buf b).badness ≠ 0) →
      wp (if next = start then return best' else findVictim start fuel next best') Q E s) :
    wp (findVictim start (fuel + 1) tmp best) Q E s := by
  have hbetter (h : s.Spare tmp) : s.better tmp best = true := by
    cases best with
    | none => rfl
    | some b =>
      have hb := (hbest b rfl).2
      have hzero := h.2
      simp only [better, decide_eq_true_eq]
      omega
  rw [findVictim, wp_bind, wp_get]
  refine wp_ite.mpr ⟨fun h => wp_pure.mpr (hspare ⟨h.1, h.2.2⟩), fun h => ?_⟩
  have hno : ¬ s.Spare tmp := fun hs => h ⟨hs.1, hbetter hs, hs.2⟩
  dsimp only
  rw [hnext]
  apply hgo hno
  intro b hb
  split at hb
  · rename_i htake
    obtain rfl := mem_some_iff.mp hb
    exact ⟨htake.1, fun hzero => hno ⟨htake.1, hzero⟩⟩
  · exact hbest b hb

/-- The rest of the search through the free list: it finds a spare buffer if
there is one left. -/
theorem wp_findVictim {rest : List (Buf m)}
    (hchain : (tmp :: rest ++ [start]).IsChain (Link s.shape.nextFree s.shape.prevFree))
    (hstart : start ∉ rest) (hfuel : rest.length < fuel)
    (hbest : ∀ b ∈ best, (s.buf b).count = 0 ∧ (s.buf b).badness ≠ 0) :
    wp (findVictim start fuel tmp best) (fun r s' => s' = s ∧ (∀ bh ∈ r, (s.buf bh).count = 0) ∧
      ((∃ b ∈ tmp :: rest, s.Spare b) → ∃ bh, r = some bh ∧ s.Spare bh)) E s := by
  have hfound {tmp : Buf m} {r : List (Buf m)} (h : s.Spare tmp) : s = s ∧
      (∀ bh ∈ some tmp, (s.buf bh).count = 0) ∧
        ((∃ b ∈ r, s.Spare b) → ∃ bh, some tmp = some bh ∧ s.Spare bh) := by
    refine ⟨rfl, fun bh hbh => ?_, fun _ => ⟨tmp, rfl, h⟩⟩
    rw [← mem_some_iff.mp hbh]
    exact h.1
  induction rest generalizing tmp fuel best with
  | nil =>
    obtain ⟨fuel, rfl⟩ := Nat.exists_eq_succ_of_ne_zero (by omega : fuel ≠ 0)
    have hnext : (s.buf tmp).nextFree = some start := (isChain_cons_cons.mp hchain).1.1
    refine wp_findVictim_round hnext hbest hfound fun hno best' hbest' => ?_
    rw [if_pos rfl, wp_pure]
    refine ⟨rfl, fun bh hbh => (hbest' bh hbh).1, fun ⟨b, hb, hspare⟩ => ?_⟩
    rw [mem_singleton.mp hb] at hspare
    exact absurd hspare hno
  | cons nx rest ih =>
    obtain ⟨fuel, rfl⟩ := Nat.exists_eq_succ_of_ne_zero (by omega : fuel ≠ 0)
    obtain ⟨hlink, hrest⟩ := isChain_cons_cons.mp hchain
    obtain ⟨hne, hnot⟩ := not_or.mp (mt mem_cons.mpr hstart)
    refine wp_findVictim_round hlink.1 hbest hfound fun hno best' hbest' => ?_
    rw [if_neg (Ne.symm hne)]
    refine (ih hrest hnot (by simpa using hfuel) hbest').imp fun r s' h => ?_
    refine ⟨h.1, h.2.1, fun ⟨b, hb, hspare⟩ => h.2.2 ?_⟩
    rcases mem_cons.mp hb with rfl | hb
    · exact absurd hspare hno
    · exact ⟨b, hb, hspare⟩

/-- The whole search: the free list has all buffers. -/
theorem wp_findVictim_all (hok : s.shape.Ok) :
    wp (findVictim start (m + 1) start none) (fun r s' => s' = s ∧
      (∀ bh ∈ r, (s.buf bh).count = 0) ∧
      ((∃ b, s.Spare b) → ∃ bh, r = some bh ∧ s.Spare bh)) E s := by
  obtain ⟨l, hring, hall⟩ := hok.free
  obtain ⟨rest, hrest, hrot⟩ := hring.from (hall start)
  have hlen : (start :: rest).length ≤ m + 1 := by simpa using hrest.nodup.length_le_card
  have hnot : start ∉ rest := (nodup_cons.mp hrest.nodup).1
  have hfuel : rest.length < m + 1 := hlen
  refine (wp_findVictim hrest.closed hnot hfuel (by simp)).imp fun r s' h => ?_
  refine ⟨h.1, h.2.1, fun ⟨b, hspare⟩ => h.2.2 ⟨b, ?_, hspare⟩⟩
  exact hrot.mem_iff.mp (hall b)

theorem wp_getHashTable (hok : s.shape.Ok) {block : BlockNr} (hdev : dev ≠ 0) :
    wp (getHashTable dev block) (fun r s' => s'.inode = s.inode ∧
      (r = none → s' = s ∧ ¬ s.Cached dev block) ∧ (r.isSome → s.Cached dev block)) NoLock s := by
  rw [getHashTable, wp_bind]
  refine wp_findBuffer hok (fun bh _ hb hblock => ?_) fun hnone => ?_
  · have hwait : Calm s.inode (waitOnBuffer bh) := keeps_waitOnBuffer bh
    refine (calm_setBuf bh _ s rfl).next fun _ s₁ h₁ => hwait.next h₁ fun _ s₂ h₂ => ?_
    rw [wp_bind, wp_get]
    refine wp_ite.mpr ⟨fun _ => wp_pure.mpr ⟨h₂, nofun, fun _ => ⟨bh, hb, hblock⟩⟩, fun _ => ?_⟩
    exact (calm_setBuf bh _ s₂ h₂).next fun _ _ _ => wp_throw.mpr nofun
  · rw [wp_pure]
    exact ⟨rfl, fun _ => ⟨rfl, fun ⟨b, hb⟩ => hnone b hdev hb⟩, nofun⟩

/-- With the block in the cache, or a spare buffer, `getblk` does not look at
the inodes. -/
theorem wp_getblk_of_spare (hok : s.shape.Ok) {block : BlockNr} (hdev : dev ≠ 0)
    (h : s.Cached dev block ∨ ∃ b, s.Spare b) (fuel : ℕ) :
    wp (getblk rd fuel dev block) (fun _ s' => s'.inode = s.inode) NoLock s := by
  cases fuel with
  | zero => exact wp_throw.mpr nofun
  | succ fuel =>
    rw [getblk]
    refine (wp_getHashTable hok hdev).next fun r s₁ hr => ?_
    cases r with
    | some bh => exact wp_pure.mpr hr.1
    | none =>
      obtain ⟨rfl, hno⟩ := hr.2.1 rfl
      have hspare := h.resolve_left hno
      rw [wp_bind, wp_get]
      split
      · exact wp_throw.mpr nofun
      · rename_i start _
        refine (wp_findVictim_all hok).next fun r s₁ hr => ?_
        obtain ⟨rfl, _, hr⟩ := hr
        obtain ⟨bh, rfl, hcount, hbad⟩ := hr hspare
        have hlock : (s₁.buf bh).lock = false := by
          cases hl : (s₁.buf bh).lock with
          | false => rfl
          | true => simp [BufferHead.badness, hl] at hbad
        have hdirt : (s₁.buf bh).dirt = false := by
          cases hd : (s₁.buf bh).dirt with
          | false => rfl
          | true => simp [BufferHead.badness, hd] at hbad
        dsimp only
        rw [wp_bind, waitOnBuffer, wp_bind, wp_get, hlock, if_neg Bool.false_ne_true, wp_pure,
          wp_bind, wp_get, if_neg (not_not.mpr hcount), wp_bind, cleanVictim, wp_bind, wp_get,
          if_pos hdirt, wp_pure, if_neg Bool.false_ne_true, wp_bind]
        refine wp_findBuffer hok (fun b _ hb hblock => absurd ⟨b, hb, hblock⟩ hno) fun _ => ?_
        rw [if_neg (by simp)]
        exact (calm_relabel bh dev block s₁ rfl).next fun _ _ hs' => wp_pure.mpr hs'

/-! ### With an inode locked -/

section

variable {i : Fin nrInode} {α : Type}

/-- Whatever stops it. -/
def AnyEnd (_ : Stop) (_ : Cache m) : Prop := True

/-- The lock of an inode that the task holds. -/
def Cache.Locks (i : Fin nrInode) (s : Cache m) : Prop := (s.inode i).lock = true

instance : IgnoresBuffers (m := m) (Cache.Locks i) AnyEnd where
  congr {s s'} h _ _ hinode := by
    rw [Cache.Locks, hinode]
    exact h
  stop _ _ := trivial

theorem locks_waitOnInode (j : Fin nrInode) :
    Keeps (Cache.Locks i) AnyEnd (waitOnInode j : CacheM m PUnit) :=
  .bind .get fun _ => .ite (.throw fun _ _ => trivial) (.pure _)

theorem locks_setInode {j : Fin nrInode} (hne : j ≠ i) (f : CoreInode → CoreInode) :
    Keeps (Cache.Locks i) AnyEnd (modify fun s => s.setInode j f : CacheM m PUnit) := by
  refine .modify fun s hs => ?_
  show (update s.inode j (f (s.inode j)) i).lock = true
  rw [update_of_ne hne.symm]
  exact hs

/-- Waiting for the lock one holds. -/
theorem Cache.Locks.wp_waitOnInode {s : Cache m} (h : s.Locks i) {Q : PUnit → Cache m → Prop} :
    wp (waitOnInode i) Q AnyEnd s := by
  have hlock : (s.inode i).lock = true := h
  rw [waitOnInode, wp_bind, wp_get, if_pos hlock]
  exact wp_throw.mpr trivial

variable {getblk : Dev → BlockNr → CacheM m (Buf m)}
  (hget : ∀ dev block, Keeps (Cache.Locks i) AnyEnd (getblk dev block))

include hget

theorem locks_writeInodeWith (j : Fin nrInode) :
    Keeps (Cache.Locks i) AnyEnd (writeInodeWith rd getblk j) := by
  rcases eq_or_ne j i with rfl | hne
  · intro s hs
    exact wp_bind.mpr hs.wp_waitOnInode
  · refine .bind (locks_waitOnInode j) fun _ => .bind (locks_setInode hne _) fun _ =>
      .bind .get fun s => .ite (locks_setInode hne _) (.bind (keeps_getSuper _) fun sb => ?_)
    cases sb with
    | none => exact .throw fun _ _ => trivial
    | some sb =>
      refine .bind (keeps_breadWith hget _ _) fun r => ?_
      cases r with
      | none => exact .throw fun _ _ => trivial
      | some bh =>
        exact .bind (keeps_store bh _) fun _ => .bind (keeps_setBuf bh fun _ => rfl) fun _ =>
          .bind (locks_setInode hne _) fun _ => .bind (keeps_brelse bh) fun _ =>
            locks_setInode hne _

/-- `sync_inodes` does not get past the inode that is locked. -/
theorem Cache.Locks.wp_syncInodesWith {s : Cache m} (h : s.Locks i) :
    wp (syncInodesWith rd getblk) (fun _ _ => False) AnyEnd s := by
  unfold syncInodesWith
  refine (wp_forN (fun k s => s.Locks i ∧ k ≤ i.1) (fun k s hs => ?_) ⟨h, Nat.zero_le _⟩).imp
    fun _ s hs => absurd hs.2 (not_le.mpr i.isLt)
  rcases eq_or_ne k i with rfl | hne
  · exact wp_bind.mpr hs.1.wp_waitOnInode
  · have hlt : k.1 + 1 ≤ i.1 := by
      have hval : k.1 ≠ i.1 := Fin.val_ne_of_ne hne
      have hle := hs.2
      omega
    have hkeep : Keeps (Cache.Locks i) AnyEnd (do
        waitOnInode k
        let n := (← get).inode k
        if n.dirt ∧ n.pipe = false then writeInodeWith rd getblk k) :=
      .bind (locks_waitOnInode k) fun _ => .bind .get fun _ =>
        .ite (locks_writeInodeWith hget k) (.pure _)
    exact (hkeep s hs.1).imp fun _ s' hs' => ⟨hs', hlt⟩

theorem Cache.Locks.wp_syncDevWith {s : Cache m} (h : s.Locks i) (dev : Dev) :
    wp (syncDevWith rd getblk dev) (fun _ _ => False) AnyEnd s := by
  refine (keeps_flushDev dev).next h fun _ s₁ h₁ => ?_
  exact (h₁.wp_syncInodesWith hget).next fun _ _ hno => hno.elim

end

section

variable {i : Fin nrInode}

/-- A dirty buffer is not cleaned. -/
theorem locks_cleanVictim {sync : Dev → CacheM m PUnit}
    (hsync : ∀ (s : Cache m) dev, s.Locks i → wp (sync dev) (fun _ _ => False) AnyEnd s)
    (bh : Buf m) (fuel : ℕ) {s : Cache m} (h : s.Locks i) :
    wp (cleanVictim sync bh fuel) (fun _ s' => s' = s ∧ (s.buf bh).dirt = false) AnyEnd s := by
  cases fuel with
  | zero => exact wp_throw.mpr trivial
  | succ fuel =>
    rw [cleanVictim, wp_bind, wp_get]
    refine wp_ite.mpr ⟨fun hclean => wp_pure.mpr ⟨rfl, hclean⟩, fun _ => ?_⟩
    exact (hsync s _ h).next fun _ _ hno => hno.elim

theorem locks_getblk (fuel : ℕ) (dev : Dev) (block : BlockNr) :
    Keeps (Cache.Locks i) AnyEnd (getblk rd fuel dev block : CacheM m (Buf m)) := by
  induction fuel generalizing dev block with
  | zero => exact .throw fun _ _ => trivial
  | succ fuel ih =>
    have hsync (s : Cache m) (dev : Dev) (hs : s.Locks i) :
        wp (syncDevWith rd (getblk rd fuel) dev) (fun _ _ => False) AnyEnd s :=
      hs.wp_syncDevWith ih dev
    refine .bind (keeps_getHashTable dev block) fun r => ?_
    cases r with
    | some bh => exact .pure _
    | none =>
      refine .bind .get fun s => ?_
      split
      · exact .throw fun _ _ => trivial
      · refine .bind (keeps_findVictim _ _ _ _) fun r => ?_
        cases r with
        | none => exact .throw fun _ _ => trivial
        | some bh =>
          refine .bind (keeps_waitOnBuffer bh) fun _ => .bind .get fun s' => .ite (ih dev block) ?_
          refine .bind (fun s hs => (locks_cleanVictim hsync bh _ hs).imp fun _ s' h => ?_) fun r =>
            .ite (ih dev block) (.bind (keeps_findBuffer dev block) fun _ =>
              .ite (ih dev block) (.bind (fun s hs => ?_) fun _ => .pure _))
          · rw [h.1]
            exact hs
          · refine (calm_relabel bh dev block s rfl).mono (fun _ s' h => ?_) fun _ _ _ => trivial
            rw [Cache.Locks, h]
            exact hs

/-- Without a buffer to take, `getblk` does not come back. -/
theorem Cache.Locks.wp_getblk {s : Cache m} (h : s.Locks i) (hok : s.shape.Ok) {dev : Dev}
    {block : BlockNr} (hdev : dev ≠ 0) (hno : ¬ s.Cached dev block) (hspare : ∀ b, ¬ s.Spare b)
    (fuel : ℕ) : wp (getblk rd fuel dev block) (fun _ _ => False) AnyEnd s := by
  cases fuel with
  | zero => exact wp_throw.mpr trivial
  | succ fuel =>
    rw [getblk, wp_bind]
    refine (wp_getHashTable hok hdev).mono (fun r s₁ hr => ?_) fun _ _ _ => trivial
    cases r with
    | some bh => exact absurd (hr.2.2 rfl) hno
    | none =>
      obtain ⟨rfl, -⟩ := hr.2.1 rfl
      rw [wp_bind, wp_get]
      split
      · exact wp_throw.mpr trivial
      · rename_i start _
        refine (wp_findVictim_all hok).next fun r s₁ hr => ?_
        obtain ⟨rfl, hcount, -⟩ := hr
        cases r with
        | none => exact wp_throw.mpr trivial
        | some bh =>
          dsimp only
          rw [wp_bind, waitOnBuffer, wp_bind, wp_get]
          refine wp_ite.mpr ⟨fun _ => wp_throw.mpr trivial, fun hlock => ?_⟩
          have hdirt : (s₁.buf bh).dirt ≠ false := by
            intro hclean
            apply hspare bh
            refine ⟨hcount bh rfl, ?_⟩
            simp [BufferHead.badness, hclean, hlock]
          rw [wp_pure, wp_bind, wp_get, if_neg (not_not.mpr (hcount bh rfl)), wp_bind]
          refine (locks_cleanVictim (fun s dev hs => hs.wp_syncDevWith (locks_getblk fuel) dev)
            bh _ h).imp fun _ s₂ h₂ => ?_
          exact absurd h₂.2 hdirt

end

/-! ### Reading and writing inodes -/

/-- The two functions that hold the lock of an inode. -/
inductive InodeIo
  | read
  | write
  deriving DecidableEq

def InodeIo.run (rd : RamDisk) (fuel : ℕ) (i : Fin nrInode) : InodeIo → CacheM m PUnit
  | .read => readInodeWith rd (getblk rd fuel) i
  | .write => writeInodeWith rd (getblk rd fuel) i

def Cache.superOf (s : Cache m) (dev : Dev) : Option SuperBlock :=
  if dev = 0 then none
  else ((finRange nrSuper).find? fun k => (s.super k).dev == dev).map s.super

/-- The block the call asks for, if it does. -/
def InodeIo.block (s : Cache m) (i : Fin nrInode) (io : InodeIo) : Option (Dev × BlockNr) :=
  let n := s.inode i
  if io = .write ∧ (n.dirt = false ∨ n.dev = 0) then none
  else (s.superOf n.dev).map fun sb => (n.dev, inodeBlock sb n.num)

/-- The block is in the cache, or there is a spare buffer for it. -/
def InodeIo.Served (s : Cache m) (i : Fin nrInode) (io : InodeIo) : Prop :=
  ∀ k ∈ io.block s i, s.Cached k.1 k.2 ∨ ∃ b, s.Spare b

theorem wp_breadWith_of_spare (hok : s.shape.Ok) {block : BlockNr} (hdev : dev ≠ 0)
    (h : s.Cached dev block ∨ ∃ b, s.Spare b) (fuel : ℕ) :
    wp (breadWith rd (getblk rd fuel) dev block) (fun _ _ => True) NoLock s := by
  rw [breadWith]
  refine (wp_getblk_of_spare hok hdev h fuel).next fun bh s₁ _ => ?_
  have hcalm : IgnoresBuffers (m := m) (fun _ => True) NoLock :=
    ⟨fun h _ _ _ => h, fun he _ => he⟩
  exact Keeps.bind .get (fun _ => .ite (.pure _) (.bind (keeps_llRwBlock _ bh) fun _ =>
    .bind (keeps_waitOnBuffer bh) fun _ => .bind .get fun _ =>
      .ite (.pure _) (.bind (keeps_brelse bh) fun _ => .pure _))) s₁ trivial

/-- With the inode locked and no buffer to take, `bread` does not come back. -/
theorem Cache.Locks.wp_breadWith {i : Fin nrInode} (h : s.Locks i) (hok : s.shape.Ok)
    {block : BlockNr} (hdev : dev ≠ 0) (hno : ¬ s.Cached dev block) (hspare : ∀ b, ¬ s.Spare b)
    (fuel : ℕ) : wp (breadWith rd (getblk rd fuel) dev block) (fun _ _ => False) AnyEnd s :=
  (h.wp_getblk hok hdev hno hspare fuel).next fun _ _ hfalse => hfalse.elim

theorem wp_getSuper {Q : Option SuperBlock → Cache m → Prop} (hsleep : E .sleep s)
    (h : Q (s.superOf dev) s) : wp (getSuper dev) Q E s := by
  rw [getSuper, wp_bind, wp_get]
  unfold superOf at h
  split
  · rename_i h0
    rw [if_pos h0] at h
    exact wp_pure.mpr h
  · rename_i h0
    rw [if_neg h0] at h
    split
    · rename_i hnone
      rw [hnone] at h
      exact wp_pure.mpr h
    · rename_i k hk
      rw [hk] at h
      exact wp_ite.mpr ⟨fun _ => wp_throw.mpr hsleep, fun _ => wp_pure.mpr h⟩

/-- The inode locked. -/
def Cache.lock (s : Cache m) (i : Fin nrInode) : Cache m :=
  s.setInode i fun n => { n with lock := true }

theorem lock_inode (s : Cache m) (i : Fin nrInode) :
    (s.lock i).inode i = { s.inode i with lock := true } := update_self ..

/-- What the two calls have in common: the lock is taken, and then the block is
asked for. -/
theorem wp_inodeIo {i : Fin nrInode} {P : Prop}
    (hwait : (s.inode i).lock = true → E (.inodeLock i) s) (hstop : ∀ e s', NoLock e s' → E e s')
    (hnone : io.block s i = none → P) (hbread : ∀ k, io.block s i = some k →
      wp (breadWith rd (getblk rd fuel) k.1 k.2) (fun _ _ => P) E (s.lock i)) :
    wp (io.run rd fuel i) (fun _ _ => P) E s := by
  have hset (f : Cache m → Cache m) : Keeps (fun _ => P) E (modify f : CacheM m PUnit) :=
    .modify fun _ h => h
  have hcalm : IgnoresBuffers (m := m) (fun _ => P) E :=
    ⟨fun h _ _ _ => h, fun he _ => hstop _ _ he⟩
  have hsuper : (s.lock i).superOf (s.inode i).dev = s.superOf (s.inode i).dev := rfl
  have hlocked : (s.setInode i fun n => { n with lock := true }) = s.lock i := rfl
  have hinode := lock_inode s i
  cases io with
  | read =>
    rw [InodeIo.run, readInodeWith, wp_bind, waitOnInode, wp_bind, wp_get]
    refine wp_ite.mpr ⟨fun hlock => wp_throw.mpr (hwait hlock), fun _ => ?_⟩
    rw [wp_pure, wp_bind, wp_modify, wp_bind, wp_get, wp_bind]
    simp only [hlocked, hinode]
    refine wp_getSuper (hstop _ _ nofun) ?_
    rw [hsuper]
    cases hsup : s.superOf (s.inode i).dev with
    | none => exact wp_throw.mpr (hstop _ _ nofun)
    | some sb =>
      have hblock : InodeIo.block s i .read =
          some ((s.inode i).dev, inodeBlock sb (s.inode i).num) := by
        simp [InodeIo.block, hsup]
      refine (hbread _ hblock).next fun r s₁ hP => ?_
      cases r with
      | none => exact wp_throw.mpr (hstop _ _ nofun)
      | some bh =>
        exact Keeps.bind .get (fun _ => .bind (hset _) fun _ =>
          .bind (keeps_brelse bh) fun _ => hset _) s₁ hP
  | write =>
    rw [InodeIo.run, writeInodeWith, wp_bind, waitOnInode, wp_bind, wp_get]
    refine wp_ite.mpr ⟨fun hlock => wp_throw.mpr (hwait hlock), fun _ => ?_⟩
    rw [wp_pure, wp_bind, wp_modify, wp_bind, wp_get]
    simp only [hlocked, hinode]
    refine wp_ite.mpr ⟨fun hidle => ?_, fun hbusy => wp_bind.mpr ?_⟩
    · have hblock : InodeIo.block s i .write = none := if_pos ⟨rfl, hidle⟩
      exact wp_modify.mpr (hnone hblock)
    · refine wp_getSuper (hstop _ _ nofun) ?_
      rw [hsuper]
      cases hsup : s.superOf (s.inode i).dev with
      | none => exact wp_throw.mpr (hstop _ _ nofun)
      | some sb =>
        have hblock : InodeIo.block s i .write =
            some ((s.inode i).dev, inodeBlock sb (s.inode i).num) := by
          rw [InodeIo.block, if_neg (fun h => hbusy h.2), hsup]
          rfl
        refine (hbread _ hblock).next fun r s₁ hP => ?_
        cases r with
        | none => exact wp_throw.mpr (hstop _ _ nofun)
        | some bh =>
          exact Keeps.bind (hset _) (fun _ =>
            .bind (keeps_setBuf bh (by exact fun _ => rfl)) fun _ => .bind (hset _) fun _ =>
              .bind (keeps_brelse bh) fun _ => hset _) s₁ hP

theorem dev_ne_of_block {i : Fin nrInode} {k : Dev × BlockNr} (h : io.block s i = some k) :
    k.1 ≠ 0 := by
  unfold InodeIo.block at h
  dsimp only at h
  split at h
  · cases h
  · obtain ⟨sb, hsup, rfl⟩ := map_eq_some_iff.mp h
    intro h0
    change (s.inode i).dev = 0 at h0
    rw [superOf, if_pos h0] at hsup
    cases hsup

/-- A cache of one buffer, with the ramdisk mounted. -/
def oneBuffer : Cache 0 where
  buf _ := ⟨fun _ => 0, 0, 0, false, false, 0, false, none, none, none, none⟩
  hashTable _ := none
  freeList := none
  request _ := ⟨none, .read, 0, 0, none⟩
  currentRequest := none
  inode _ := ⟨fun _ => 0, 0, 0, false, false, false⟩
  super k := ⟨if k = 0 then rdDev else 0, 1, 1, false⟩
  image _ _ := 0
  relabelled := []
  stored _ _ _ := 0

/-- A block is read, changed and given back, and an inode is changed. -/
def dirtyCalls : List (CacheCall 0) :=
  [.bread rdDev 9, .store 0 (fun _ => 1) true true, .brelse 0,
    .setInode 0 ⟨fun _ => 0, rdDev, 1, false, true, false⟩]

end LinuxRv.Fs
