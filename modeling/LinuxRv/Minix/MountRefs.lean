import LinuxRv.Minix.InodeRefs

/-!
References to inodes from mounted file systems.

The table of super blocks holds references of its own: a mounted file system
has one to the directory it covers, the root file system one to its root. The
other references come from outside of the file system; `base ip` is their
number.
-/

namespace LinuxRv.Minix

open ByteMemory Prog LinuxRv.Fs RefCount Function Option

/-- `s_isup` and `s_imount` of the super blocks. -/
def mounts (super : Fin nrSuper → SuperBlock) (i : Fin nrSuper) : Option Ino × Option Ino :=
  ((super i).isup, (super i).imount)

/-- References from the table of super blocks. -/
def superRefs (super : Fin nrSuper → SuperBlock) (ip : Ino) : ℕ :=
  occurrences (fun i => (super i).isup) ip + occurrences (fun i => (super i).imount) ip

/-- An entry of the table that is not in use refers to nothing, and only the
root file system has `s_isup`. -/
structure SuperInv (rootDev : Dev) (super : Fin nrSuper → SuperBlock) : Prop where
  empty : ∀ i, (super i).dev = 0 → (super i).isup = none ∧ (super i).imount = none
  root : ∀ i, (super i).isup ≠ none → (super i).dev = rootDev

structure Refs (rootDev : Dev) (mm : Mm.State) (pipe : Ino → Bool) (base : Ino → ℕ) (s : Fs) :
    Prop where
  holds : Holds ⟨mm, pipe, s.super⟩ (fun ip => base ip + superRefs s.super ip) s
  super : SuperInv rootDev s.super

theorem superRefs_le (super : Fin nrSuper → SuperBlock) (ip : Ino) : superRefs super ip ≤ 16 := by
  have h (g : Fin nrSuper → Option Ino) : occurrences g ip ≤ 8 := by
    rw [occurrences]
    exact (Finset.card_filter_le _ _).trans (by simp [nrSuper])
  exact Nat.add_le_add (h _) (h _)

theorem Room.add_super {n : ℕ} {base : Ino → ℕ} (h : Room (n + 16) base)
    (super : Fin nrSuper → SuperBlock) : Room n fun ip => base ip + superRefs super ip := by
  intro ip
  have hbase := h ip
  have hsuper := superRefs_le super ip
  dsimp only
  omega

/-- A reference from outside. -/
theorem addRef_add (base refs : Ino → ℕ) (ip : Ino) :
    addRef (fun ip => base ip + refs ip) ip = fun ip' => addRef base ip ip' + refs ip' := by
  funext ip'
  by_cases h : ip' = ip
  · rw [h, addRef_self, addRef_self]
    omega
  · rw [addRef_of_ne _ h, addRef_of_ne _ h]

section

variable {F : Still} {devName pathname : Word} {s' : Fs} {super : Fin nrSuper → SuperBlock}
  {rd : RamDisk} {rootDev : Dev} {mm : Mm.State} {pipe : Ino → Bool} {base : Ino → ℕ} {s : Fs}
  {α : Type} {cur : Current} {ip : Ino} {E : Halt → Fs → Prop} {base' : Ino → ℕ} {c : FsM α}
  {mode : BitVec 16} {name : Word}

/-- After an operation that leaves the mounts alone. -/
theorem Refs.of_holds (h : Refs rootDev mm pipe base s)
    (h' : Holds ⟨mm, pipe, s.super⟩ (fun ip => base' ip + superRefs s.super ip) s') :
    Refs rootDev mm pipe base' s' :=
  have hsuper : s'.super = s.super := h'.super
  ⟨hsuper ▸ h', hsuper ▸ h.super⟩

theorem Refs.of_addRef (h : Refs rootDev mm pipe base s)
    (h' : Holds ⟨mm, pipe, s.super⟩ (addRef (fun ip => base ip + superRefs s.super ip) ip) s') :
    Refs rootDev mm pipe (addRef base ip) s' :=
  h.of_holds (addRef_add base (superRefs s.super) ip ▸ h')

theorem Refs.holds_addRef (h : Refs rootDev mm pipe (addRef base ip) s) :
    Holds ⟨mm, pipe, s.super⟩ (addRef (fun ip => base ip + superRefs s.super ip) ip) s :=
  addRef_add base (superRefs s.super) ip ▸ h.holds

/-- What leaves references and super blocks alone keeps `Refs`, and all that is
known about the super blocks. -/
theorem keeps_refs {P : (Fin nrSuper → SuperBlock) → Prop}
    (hc : ∀ F refs, Keeps (Holds F refs) NotFree c) :
    Keeps (fun s => Refs rootDev mm pipe base s ∧ P s.super) NotFree c := by
  rintro s ⟨h, hP⟩
  refine (hc _ _ s h.holds).imp fun _ s' h' => ⟨h.of_holds h', ?_⟩
  have hsuper : s'.super = s.super := h'.super
  exact hsuper ▸ hP

theorem Refs.wp_steady (h : Refs rootDev mm pipe base s)
    (hc : ∀ F refs, Holds F refs s → wp c (fun _ => Holds F refs) NotFree s) :
    wp c (fun _ => Refs rootDev mm pipe base) NotFree s :=
  (hc _ _ h.holds).imp fun _ _ h' => h.of_holds h'

theorem Refs.wp_iput (h : Refs rootDev mm pipe (addRef base ip) s) (hip : pipe ip = false) :
    wp (iput rd (some ip)) (fun _ => Refs rootDev mm pipe base) NotFree s :=
  (h.holds_addRef.wp_iput hip).imp fun _ _ h' => h.of_holds h'

/-- The result of a search: nothing, or an inode with a reference. -/
def FoundRef (rootDev : Dev) (mm : Mm.State) (pipe : Ino → Bool) (base : Ino → ℕ)
    (o : Option Ino) (s : Fs) : Prop :=
  match o with
  | none => Refs rootDev mm pipe base s
  | some ip => Refs rootDev mm pipe (addRef base ip) s ∧ pipe ip = false

theorem Refs.of_found {o : Option Ino} (h : Refs rootDev mm pipe base s)
    (h' : Found ⟨mm, pipe, s.super⟩ (fun ip => base ip + superRefs s.super ip) o s') :
    FoundRef rootDev mm pipe base o s' := by
  cases o with
  | none => exact h.of_holds h'
  | some ip => exact ⟨h.of_addRef h'.1, h'.2⟩

/-- The inodes a task starts from are no pipes. -/
def Current.NoPipe (pipe : Ino → Bool) (cur : Current) : Prop :=
  ∀ ip, cur.root = some ip ∨ cur.pwd = some ip → pipe ip = false

theorem Current.NoPipe.plain (h : cur.NoPipe pipe) (super : Fin nrSuper → SuperBlock) :
    cur.Plain ⟨mm, pipe, super⟩ :=
  ⟨fun ip hip => h ip (.inl hip), fun ip hip => h ip (.inr hip)⟩

theorem Refs.wp_namei (h : Refs rootDev mm pipe base s) (hcur : cur.NoPipe pipe)
    (hroom : Room 18 base) : wp (namei rd cur pathname) (FoundRef rootDev mm pipe base) NotFree s :=
  (h.holds.wp_namei (hcur.plain _) (hroom.add_super _)).imp fun _ _ h' => h.of_found h'

theorem Refs.wp_openNamei {flag mode : Word} (h : Refs rootDev mm pipe base s)
    (hcur : cur.NoPipe pipe) (hroom : Room 18 base) : wp (openNamei rd cur pathname flag mode)
      (fun r => FoundRef rootDev mm pipe base r.toOption) NotFree s :=
  (h.holds.wp_openNamei (hcur.plain _) (hroom.add_super _)).imp fun _ _ h' => h.of_found h'

/-! ### Pipes -/

/-- No stop of the memory manager is that of `iput`. -/
def Quiet (e : Mm.Halt) : Prop := Halt.ofMm e ≠ .panic "iput: trying to free free inode"

theorem quiet_panic : ∀ m ∈ Mm.panics, Quiet (.panic m) := by
  simp [Mm.panics, Quiet, Halt.ofMm]

theorem quiet_exit (code : ℕ) : Quiet (.exit code) := fun h => nomatch h

theorem wp_liftMm_quiet {c : Mm.M α} (hc : Mm.Stops Quiet c) {Q : α → Fs → Prop}
    (hQ : ∀ a mm, Q a { s with mm := mm }) : wp (liftMm c) Q NotFree s := by
  rw [wp_liftMm]
  exact (hc _ trivial).mono (fun a mm _ => hQ a mm) fun e mm he => he

theorem Refs.setMm (h : Refs rootDev mm pipe base s) (mm' : Mm.State) :
    Refs rootDev mm' pipe base { s with mm := mm' } :=
  ⟨⟨rfl, h.holds.count, h.holds.pipe, h.holds.noDevice, h.holds.live, rfl, h.holds.mounted⟩,
    h.super⟩

/-- An inode becomes a pipe, or is one no longer. -/
theorem Refs.setPipe (base' : Ino → ℕ) {n : MInode} (h : Refs rootDev mm pipe base s)
    (hcount : n.count.toNat = base' ip + superRefs s.super ip)
    (hother : ∀ ip', ip' ≠ ip → base' ip' = base ip')
    (hpipe : n.pipe = true → n.dev = 0 ∧ n.count ≠ 0 ∧ ∀ i, (s.super i).imount ≠ some ip) :
    Refs rootDev mm (update pipe ip n.pipe) base' (s.setInode ip n) := by
  have hself : (s.setInode ip n).inode ip = n := update_self ..
  have hne {ip' : Ino} (hi : ip' ≠ ip) : (s.setInode ip n).inode ip' = s.inode ip' :=
    update_of_ne hi ..
  refine ⟨⟨h.holds.mm, fun ip' => ?_, fun ip' => ?_, fun ip' hp => ?_, fun ip' hp => ?_, rfl,
    fun i ip' hi => ⟨?_, (h.holds.mounted i ip' hi).2⟩⟩, h.super⟩ <;> by_cases hip : ip' = ip
  · rw [hip, hself, hcount]
    rfl
  · rw [hne hip, h.holds.count, hother ip' hip]
    rfl
  · rw [hip, hself]
    exact (update_self ip n.pipe pipe).symm
  · rw [hne hip, h.holds.pipe]
    exact (update_of_ne hip n.pipe pipe).symm
  · subst hip
    rw [hself]
    exact (hpipe (by simpa using hp)).1
  · rw [hne hip]
    exact h.holds.noDevice ip' (by simpa [hip] using hp)
  · subst hip
    refine fun h0 => (hpipe (by simpa using hp)).2.1 (BitVec.eq_of_toNat_eq ?_)
    exact hcount.trans h0
  · rw [hother ip' hip]
    exact h.holds.live ip' (by simpa [hip] using hp)
  · subst hip
    change update pipe ip' n.pipe ip' = false
    rw [update_self]
    exact Bool.eq_false_iff.mpr fun hp => (hpipe hp).2.2 i hi
  · exact (update_of_ne hip n.pipe pipe).trans (h.holds.mounted i ip' hi).1

/-- After the last reference to a pipe is gone its page is free. -/
theorem Refs.wp_iput_pipe (h : Refs rootDev s.mm pipe (addRef base ip) s) (hip : pipe ip = true) :
    wp (iput rd (some ip)) (fun _ s' => ∃ pipe', (∀ ip, pipe' ip = true → pipe ip = true) ∧
      Refs rootDev s'.mm pipe' base s') NotFree s := by
  have hcount := h.holds.count ip
  rw [addRef_self] at hcount
  have hpos : (s.inode ip).count ≠ 0 := by
    intro h0
    rw [h0] at hcount
    change 0 = _ at hcount
    omega
  have hdown : ((s.inode ip).count - 1).toNat = base ip + superRefs s.super ip := by
    have hlt := (s.inode ip).count.isLt
    have hone : (1 : BitVec 16).toNat = 1 := rfl
    rw [BitVec.toNat_sub, hone, hcount]
    omega
  have hother (ip' : Ino) (hne : ip' ≠ ip) : base ip' = addRef base ip ip' :=
    (addRef_of_ne _ hne).symm
  have hpipe : (s.inode ip).pipe = true := (h.holds.pipe ip).trans hip
  have hdev : (s.inode ip).dev = 0 := h.holds.noDevice ip hip
  have hunmounted (i : Fin nrSuper) : (s.super i).imount ≠ some ip := fun hi => by
    have hfalse : pipe ip = false := (h.holds.mounted i ip hi).1
    rw [hip] at hfalse
    cases hfalse
  rw [iput, wp_bind, readInodeTable, wp_bind, wp_get, wp_pure, if_neg hpos, if_pos hpipe, wp_bind,
    updateInode, wp_modify, wp_ite]
  refine ⟨fun hmore => wp_pure.mpr ?_, fun hlast => wp_bind.mpr ?_⟩
  · refine ⟨_, fun ip' hp => ?_, h.setPipe base hdown hother fun _ => ⟨hdev, hmore, hunmounted⟩⟩
    by_cases hi : ip' = ip
    · rw [hi, hip]
    · simpa [hi] using hp
  · refine wp_liftMm_quiet (Mm.stops_freePage quiet_panic) fun _ mm => ?_
    have hzero : base ip + superRefs s.super ip = 0 := by
      rw [← hdown, not_not.mp hlast]
      rfl
    rw [updateInode, wp_modify]
    refine ⟨update pipe ip false, fun ip' hp => ?_, ?_⟩
    · by_cases hi : ip' = ip
      · simp [hi] at hp
      · simpa [hi] using hp
    · have hset := (h.setMm mm).setPipe base (n := { s.inode ip with
        count := 0, dirt := false, pipe := false }) hzero.symm hother (by simp)
      simpa [Fs.setInode] using hset

/-- `iput` takes one reference away. -/
theorem Refs.wp_iput_any (h : Refs rootDev s.mm pipe (addRef base ip) s) :
    wp (iput rd (some ip)) (fun _ s' => ∃ pipe', (∀ ip, pipe' ip = true → pipe ip = true) ∧
      Refs rootDev s'.mm pipe' base s') NotFree s := by
  cases hip : pipe ip with
  | true => exact h.wp_iput_pipe hip
  | false =>
    refine (h.wp_iput hip).imp fun _ s' h' => ⟨pipe, fun _ hp => hp, ?_⟩
    have hmm : s'.mm = s.mm := h'.holds.mm
    rwa [hmm]

/-- A new pipe has two references, and had none. -/
theorem Refs.wp_getPipeInode (h : Refs rootDev mm pipe base s) : wp (getPipeInode rd)
    (fun o s' => match o with
      | none => Refs rootDev s'.mm pipe base s'
      | some ip => base ip = 0 ∧
          Refs rootDev s'.mm (update pipe ip true) (addRef (addRef base ip) ip) s')
    NotFree s := by
  refine h.holds.wp_getEmptyInode.next fun ip s' h' => wp_bind.mpr ?_
  obtain ⟨h', hip, hzero, hdev⟩ := h'
  have hfree : base ip = 0 ∧ superRefs s.super ip = 0 := Nat.add_eq_zero_iff.mp hzero
  have htaken := h.of_addRef h'
  have hsuper : s'.super = s.super := h'.super
  refine wp_liftMm_quiet Mm.stops_getFreePage fun page mm => ?_
  rw [wp_bind, updateInode, wp_modify, wp_ite]
  have hzero' : base ip + superRefs s'.super ip = 0 := by rw [hsuper, hfree.1, hfree.2]
  refine ⟨fun _ => ?_, fun _ => ?_⟩
  · rw [wp_bind, updateInode, wp_modify, wp_pure]
    have hpipe : (s'.inode ip).pipe = pipe ip := h'.pipe ip
    have hset := (htaken.setMm mm).setPipe base
      (n := { s'.inode ip with size := page, count := 0 }) hzero'.symm
      (fun ip' hne => (addRef_of_ne _ hne).symm) fun hp => ?_
    · have hsame : update pipe ip (s'.inode ip).pipe = pipe := by
        rw [hpipe, update_eq_self]
      rw [hsame] at hset
      simpa [Fs.setInode] using hset
    · exact absurd (hip.symm.trans (hpipe.symm.trans hp)) Bool.false_ne_true
  · rw [wp_bind, updateInode, wp_modify, wp_pure]
    refine ⟨hfree.1, ?_⟩
    have hset := (htaken.setMm mm).setPipe (addRef (addRef base ip) ip) (n := { s'.inode ip with
        size := page
        count := 2
        zone := update (update (s'.inode ip).zone 1 0) 0 0
        pipe := true })
      (by rw [addRef_self, addRef_self, hfree.1, hsuper, hfree.2]; rfl)
      (fun ip' hne => addRef_of_ne _ hne) fun _ => ⟨hdev, by simp, fun i hi => ?_⟩
    · simpa [Fs.setInode] using hset
    · have hpos : 0 < occurrences (fun i => (s'.super i).imount) ip := occurrences_pos hi
      have hno : superRefs s'.super ip = 0 := (Nat.add_eq_zero_iff.mp hzero').2
      exact absurd (Nat.add_eq_zero_iff.mp hno).2 (Nat.ne_of_gt hpos)

/-! ### Changing the table -/

theorem mounts_update {i : Fin nrSuper} (sb : SuperBlock) (hisup : sb.isup = (super i).isup)
    (himount : sb.imount = (super i).imount) : mounts (update super i sb) = mounts super := by
  funext j
  by_cases hj : j = i
  · rw [mounts, mounts, hj, update_self, hisup, himount]
  · rw [mounts, mounts, update_of_ne hj]

theorem superRefs_of_mounts {super' : Fin nrSuper → SuperBlock}
    (h : mounts super' = mounts super) : superRefs super' = superRefs super := by
  have hpart {g : Option Ino × Option Ino → Option Ino} :
      (fun i => g (mounts super' i)) = fun i => g (mounts super i) := by rw [h]
  funext ip
  exact congrArg₂ (fun g g' => occurrences g ip + occurrences g' ip) (hpart (g := Prod.fst))
    (hpart (g := Prod.snd))

/-- Entry `i` becomes `sb`, with the references that are then right. -/
theorem Refs.replace {i : Fin nrSuper} (sb : SuperBlock) (h : Refs rootDev mm pipe base s)
    (h' : Holds ⟨mm, pipe, s.super⟩ (fun ip => base' ip + superRefs (update s.super i sb) ip) s')
    (hzero : sb.dev = 0 → sb.isup = none ∧ sb.imount = none)
    (hroot : sb.isup ≠ none → sb.dev = rootDev)
    (hpipe : ∀ ip, sb.imount = some ip → pipe ip = false) :
    Refs rootDev mm pipe base' { s' with super := update s.super i sb } := by
  -- what is true of the new entry and of all old ones
  have hall (P : SuperBlock → Prop) (hnew : P sb) (hold : ∀ j, P (s.super j)) (j : Fin nrSuper) :
      P (update s.super i sb j) :=
    (forall_update_iff s.super fun _ sb => P sb).mpr ⟨hnew, fun j _ => hold j⟩ j
  refine ⟨⟨h'.mm, h'.count, h'.pipe, h'.noDevice, h'.live, rfl, ?_⟩,
    hall (fun sb => sb.dev = 0 → sb.isup = none ∧ sb.imount = none) hzero h.super.empty,
    hall (fun sb => sb.isup ≠ none → sb.dev = rootDev) hroot h.super.root⟩
  refine hall (fun sb => ∀ ip, sb.imount = some ip → pipe ip = false ∧ sb.dev ≠ 0)
    (fun ip hip => ⟨hpipe ip hip, fun h0 => ?_⟩) h.holds.mounted
  rw [(hzero h0).2] at hip
  cases hip

theorem Refs.setSuper {i : Fin nrSuper} (sb : SuperBlock) (h : Refs rootDev mm pipe base s)
    (hisup : sb.isup = (s.super i).isup) (himount : sb.imount = (s.super i).imount)
    (hzero : sb.dev = 0 → sb.isup = none ∧ sb.imount = none)
    (hroot : sb.isup ≠ none → sb.dev = rootDev) :
    Refs rootDev mm pipe base { s with super := update s.super i sb } := by
  refine h.replace sb ?_ hzero hroot fun ip hip => (h.holds.mounted i ip (himount ▸ hip)).1
  rw [superRefs_of_mounts (mounts_update sb hisup himount)]
  exact h.holds

/-- `Refs`, with known mounts. -/
abbrev Steady (rootDev : Dev) (mm : Mm.State) (pipe : Ino → Bool) (base : Ino → ℕ)
    (m : Fin nrSuper → Option Ino × Option Ino) (s : Fs) : Prop :=
  Refs rootDev mm pipe base s ∧ mounts s.super = m

variable {m : Fin nrSuper → Option Ino × Option Ino}

theorem wp_updateSuper {i : Fin nrSuper} {f : SuperBlock → SuperBlock} {Q : PUnit → Fs → Prop} :
    wp (updateSuper i f) Q E s ↔
      Q ⟨⟩ { s with super := update s.super i (f (s.super i)) } := wp_modify

theorem keeps_brelseMap {refs : Ino → ℕ} {dev : Dev} {map : Fin 8 → Option BlockNr} :
    Keeps (Holds F refs) NotFree (brelseMap dev map) := by
  refine .forN fun i => ?_
  split
  · exact .pure _
  · exact keeps_brelse

/-- `get_super` finds an entry of the device. -/
theorem wp_getSuper {dev : Dev} {Q : Option (Fin nrSuper) → Fs → Prop} (hnone : Q none s)
    (hsome : ∀ i, (s.super i).dev = dev → dev ≠ 0 → Q (some i) s) : wp (getSuper dev) Q E s := by
  rw [getSuper, wp_bind, wp_get, wp_ite]
  refine ⟨fun _ => wp_pure.mpr hnone, fun hdev => wp_pure.mpr ?_⟩
  cases hfind : (List.finRange nrSuper).find? fun i => (s.super i).dev = dev with
  | none => exact hnone
  | some i => exact hsome i (by simpa using List.find?_some hfind) hdev

theorem keeps_putSuper {dev : Dev} :
    Keeps (Steady rootDev mm pipe base m) NotFree (putSuper rootDev dev) := by
  rintro s ⟨h, hm⟩
  refine wp_ite.mpr ⟨fun _ => wp_pure.mpr ⟨h, hm⟩, fun hdev => wp_bind.mpr ?_⟩
  refine wp_getSuper (wp_pure.mpr ⟨h, hm⟩) fun i hi hne => ?_
  rw [wp_bind, wp_get, wp_ite]
  refine ⟨fun _ => wp_pure.mpr ⟨h, hm⟩, fun himount => ?_⟩
  have hisup : (s.super i).isup = none := by
    by_contra hsome
    exact hdev (hi.symm.trans (h.super.root i hsome))
  rw [wp_bind, wp_updateSuper]
  have h' := h.setSuper (i := i) { s.super i with dev := 0 } rfl rfl
    (fun _ => ⟨hisup, not_not.mp himount⟩) (fun hsome => absurd hisup hsome)
  have hm' : mounts (update s.super i { s.super i with dev := 0 }) = m :=
    (mounts_update { s.super i with dev := 0 } rfl rfl).trans hm
  have hmaps (map : Fin 8 → Option BlockNr) :
      Keeps (Steady rootDev mm pipe base m) NotFree (brelseMap dev map) :=
    keeps_refs (P := fun super => mounts super = m) fun _ _ => keeps_brelseMap
  exact (hmaps _).bind (fun _ => hmaps _) _ ⟨h', hm'⟩

theorem keeps_invalidateInodes {refs : Ino → ℕ} {dev : Dev} :
    Keeps (Holds F refs) NotFree (invalidateInodes dev) := by
  refine .forN fun ip => keeps_readInodeTable.bind fun n => .ite ?_ (.pure _)
  exact .modify fun s h => h.setInode refs (h.count ip) (fun _ _ => rfl) (h.pipe ip)
    (fun _ => rfl) (h.live ip)

theorem keeps_checkDiskChange {dev : Dev} :
    Keeps (Steady rootDev mm pipe base m) NotFree (checkDiskChange rootDev dev) :=
  Keeps.ite (Keeps.pure _) ((Keeps.forN fun _ => Keeps.get.bind fun _ => Keeps.ite
    keeps_putSuper (Keeps.pure _)).bind fun _ => keeps_refs (P := fun super => mounts super = m)
      fun _ _ => keeps_invalidateInodes)

/-! ### Mounting -/

theorem keeps_readMap {refs : Ino → ℕ} {dev : Dev} {count n : ℕ} {block : BlockNr} :
    Keeps (Holds F refs) NotFree (readMap rd dev count n block) := by
  induction n generalizing block with
  | zero => exact .pure _
  | succ n ih =>
    refine .ite (.throw fun _ _ => by simp [NotFree]) (keeps_bread.bind fun b => ?_)
    exact .ite (ih.bind fun l => .pure _) (.pure _)

/-- Entry `i` is for `dev` and refers to nothing yet. -/
def Fresh (i : Fin nrSuper) (dev : Dev) (super : Fin nrSuper → SuperBlock) : Prop :=
  (super i).dev = dev ∧ (super i).isup = none ∧ (super i).imount = none

/-- What `read_super` returns. -/
def SuperRead (rootDev dev : Dev) (mm : Mm.State) (pipe : Ino → Bool) (base : Ino → ℕ)
    (m : Fin nrSuper → Option Ino × Option Ino) (o : Option (Fin nrSuper)) (s : Fs) : Prop :=
  Steady rootDev mm pipe base m s ∧ ∀ i, o = some i → (s.super i).dev = dev ∧ dev ≠ 0

/-- While `read_super` fills entry `i`. -/
abbrev Reading (rootDev dev : Dev) (mm : Mm.State) (pipe : Ino → Bool) (base : Ino → ℕ)
    (m : Fin nrSuper → Option Ino × Option Ino) (i : Fin nrSuper) (s : Fs) : Prop :=
  Refs rootDev mm pipe base s ∧ mounts s.super = m ∧ Fresh i dev s.super

section

variable {i : Fin nrSuper} {dev : Dev} (hdev : dev ≠ 0)

include hdev

theorem Reading.update (sb : SuperBlock) (h : Reading rootDev dev mm pipe base m i s)
    (hsb : sb.dev = dev ∧ sb.isup = none ∧ sb.imount = none) :
    Reading rootDev dev mm pipe base m i { s with super := update s.super i sb } := by
  obtain ⟨h, hm, hfresh⟩ := h
  have hisup := hsb.2.1.trans hfresh.2.1.symm
  have himount := hsb.2.2.trans hfresh.2.2.symm
  refine ⟨h.setSuper _ hisup himount (fun h0 => absurd (hsb.1.symm.trans h0) hdev)
    (fun hsome => absurd hsb.2.1 hsome), (mounts_update sb hisup himount).trans hm, ?_⟩
  change Fresh i dev (Function.update s.super i sb)
  rw [Fresh, update_self]
  exact hsb

omit hdev in
theorem Reading.wp_steady {c : FsM α} (h : Reading rootDev dev mm pipe base m i s)
    (hc : ∀ F refs, Keeps (Holds F refs) NotFree c) :
    wp c (fun _ => Reading rootDev dev mm pipe base m i) NotFree s :=
  keeps_refs (P := fun super => mounts super = m ∧ Fresh i dev super) hc s h

omit hdev in
/-- The entry is given up. -/
theorem Reading.wp_drop (h : Reading rootDev dev mm pipe base m i s) :
    wp (do updateSuper i fun sb => { sb with dev := 0 }; return none)
      (SuperRead rootDev dev mm pipe base m) NotFree s := by
  obtain ⟨h, hm, hfresh⟩ := h
  rw [wp_bind, wp_updateSuper, wp_pure]
  exact ⟨⟨h.setSuper _ rfl rfl (fun _ => hfresh.2) (fun hsome => absurd hfresh.2.1 hsome),
    (mounts_update { s.super i with dev := 0 } rfl rfl).trans hm⟩, fun i hi => nomatch hi⟩

theorem Reading.wp_readMaps (h : Reading rootDev dev mm pipe base m i s) :
    wp (readMaps rd dev i) (SuperRead rootDev dev mm pipe base m) NotFree s := by
  rw [readMaps, wp_bind, wp_get]
  refine (wp_steady h fun _ _ => keeps_readMap).next fun l s h => ?_
  refine (wp_steady h fun _ _ => keeps_readMap).next fun l' s h => ?_
  have h' := update hdev { s.super i with imap := mapOf l, zmap := mapOf l' } h h.2.2
  rw [wp_bind, wp_updateSuper]
  refine wp_ite.mpr ⟨fun _ => ?_, fun _ => ?_⟩
  · refine (wp_steady h' fun _ _ => keeps_brelseMap).next fun _ s h => ?_
    refine (wp_steady h fun _ _ => keeps_brelseMap).next fun _ s h => ?_
    exact wp_drop h
  · split
    · refine (wp_steady h' fun _ _ => keeps_updateData).next fun _ s h => ?_
      refine (wp_steady h fun _ _ => keeps_updateData).next fun _ s h => ?_
      refine wp_pure.mpr ⟨⟨h.1, h.2.1⟩, fun j hj => ?_⟩
      rw [← some.inj hj]
      exact ⟨h.2.2.1, hdev⟩
    · exact wp_panic (by decide)

end

theorem Refs.wp_readSuper {dev : Dev} (h : Refs rootDev mm pipe base s) :
    wp (readSuper rd rootDev dev) (SuperRead rootDev dev mm pipe base (mounts s.super))
      NotFree s := by
  have hnone {s' : Fs} (h' : Steady rootDev mm pipe base (mounts s.super) s') :
      SuperRead rootDev dev mm pipe base (mounts s.super) none s' := ⟨h', fun i hi => nomatch hi⟩
  refine wp_ite.mpr ⟨fun _ => wp_pure.mpr (hnone ⟨h, rfl⟩), fun hdev => ?_⟩
  refine (keeps_checkDiskChange s ⟨h, rfl⟩).next fun _ s h => wp_bind.mpr ?_
  refine wp_getSuper ?_ fun i hi hne => wp_pure.mpr ⟨h, fun j hj => ?_⟩
  · rw [wp_bind, wp_get]
    split
    · exact wp_pure.mpr (hnone h)
    · next i hfind =>
      have hempty := h.1.super.empty i (by simpa using List.find?_some hfind)
      have hset := h.1.setSuper (i := i) { s.super i with dev := dev, isup := none, imount := none }
        hempty.1.symm hempty.2.symm (fun h0 => absurd h0 hdev) (fun hsome => absurd rfl hsome)
      have hfresh : Fresh i dev (update s.super i
          { s.super i with dev := dev, isup := none, imount := none }) := by
        rw [Fresh, update_self]
        exact ⟨rfl, rfl, rfl⟩
      have hm := (mounts_update { s.super i with dev := dev, isup := none, imount := none }
        hempty.1.symm hempty.2.symm).trans h.2
      rw [wp_bind, wp_updateSuper]
      have hread : Reading rootDev dev mm pipe base _ i _ := ⟨hset, hm, hfresh⟩
      refine (Reading.wp_steady hread fun _ _ => keeps_bread).next
        fun b s h => wp_ite.mpr ⟨fun _ => ?_, fun _ => Reading.wp_drop h⟩
      rw [wp_bind, wp_get, wp_bind, wp_updateSuper]
      have h' := Reading.update hdev (SuperBlock.ofBlock (s.data dev 1) (s.super i)) h h.2.2
      refine (Reading.wp_steady h' fun _ _ => keeps_brelse).next fun _ s h =>
        wp_ite.mpr ⟨fun _ => Reading.wp_drop h, fun _ => Reading.wp_readMaps hdev h⟩
  · rw [← some.inj hj]
    exact ⟨hi, hne⟩

/-- `iput` at the end of a call. -/
theorem Refs.wp_iput_ret {ret : ℤ} (h : Refs rootDev mm pipe (addRef base ip) s)
    (hip : pipe ip = false) :
    wp (do iput rd (some ip); return ret) (fun _ => Refs rootDev mm pipe base) NotFree s :=
  (h.wp_iput hip).next fun _ _ h => wp_pure.mpr h

/-- An entry refers to one inode more: `o` before, `some ip` after. -/
theorem superRefs_mount {i : Fin nrSuper} (hnone : (super i).imount = none) (ip ip' : Ino) :
    superRefs (update super i { super i with imount := some ip }) ip' =
      addRef (superRefs super) ip ip' := by
  have hisup : (fun j => (update super i { super i with imount := some ip } j).isup) =
      fun j => (super j).isup := by
    funext j
    by_cases hj : j = i
    · rw [hj, update_self]
    · rw [update_of_ne hj]
  have himount := occurrences_update (g := fun j => (super j).imount)
    (f := fun j => (update super i { super i with imount := some ip } j).imount) i
    (fun j hj => by rw [update_of_ne hj]) ip'
  simp only [hnone, update_self, reduceCtorEq, if_false, some.injEq, Nat.add_zero] at himount
  rw [superRefs, hisup, himount]
  by_cases h : ip' = ip
  · rw [h, addRef_self, if_pos rfl, superRefs, Nat.add_assoc]
  · rw [addRef_of_ne _ h, if_neg (Ne.symm h), superRefs, Nat.add_zero]

/-- The reference the call holds becomes that of the mount. -/
theorem Refs.mount {i : Fin nrSuper} (h : Refs rootDev mm pipe (addRef base ip) s)
    (hip : pipe ip = false) (hdev : (s.super i).dev ≠ 0) (hnone : (s.super i).imount = none) :
    Refs rootDev mm pipe base { s with
      super := update s.super i { s.super i with imount := some ip } } := by
  have hrefs (ip' : Ino) : addRef base ip ip' + superRefs s.super ip' = base ip' +
      superRefs (update s.super i { s.super i with imount := some ip }) ip' := by
    rw [superRefs_mount hnone]
    by_cases hi : ip' = ip
    · rw [hi, addRef_self, addRef_self]
      omega
    · rw [addRef_of_ne _ hi, addRef_of_ne _ hi]
  exact h.replace _ (funext hrefs ▸ h.holds) (fun h0 => absurd h0 hdev) (h.super.root i)
    fun ip' hip' => some.inj hip' ▸ hip

theorem Refs.wp_mountOn {dev : Dev} {dir : Ino} (h : Refs rootDev mm pipe (addRef base dir) s)
    (hdir : pipe dir = false) :
    wp (mountOn rd rootDev dev dir) (fun _ => Refs rootDev mm pipe base) NotFree s := by
  refine (h.wp_steady fun _ _ => keeps_readInodeTable s).next fun n s h => ?_
  refine wp_ite.mpr ⟨fun _ => h.wp_iput_ret hdir, fun _ => wp_ite.mpr
    ⟨fun _ => h.wp_iput_ret hdir, fun _ => h.wp_readSuper.next fun o s h => ?_⟩⟩
  cases o with
  | none => exact h.1.1.wp_iput_ret hdir
  | some i =>
    have hdev : (s.super i).dev ≠ 0 := (h.2 i rfl).1 ▸ (h.2 i rfl).2
    replace h := h.1
    rw [wp_bind, wp_get, wp_ite]
    refine ⟨fun _ => h.1.wp_iput_ret hdir, fun hnone => ?_⟩
    rw [wp_bind, readInodeTable, wp_bind, wp_get, wp_pure, wp_ite]
    refine ⟨fun _ => h.1.wp_iput_ret hdir, fun _ => ?_⟩
    rw [wp_bind, wp_updateSuper]
    have h' := h.1.mount hdir hdev (not_not.mp hnone)
    refine (h'.wp_steady fun _ _ => keeps_updateInode (by simp) _).next fun _ s h => wp_pure.mpr h

theorem Refs.wp_blockDevice {err : ℤ} (h : Refs rootDev mm pipe base s)
    (hcur : cur.NoPipe pipe) (hroom : Room 18 base) :
    wp (blockDevice rd cur devName err) (fun _ => Refs rootDev mm pipe base) NotFree s := by
  refine (h.wp_namei hcur hroom).next fun o s h => ?_
  cases o with
  | none => exact wp_pure.mpr h
  | some ip =>
    obtain ⟨h, hip⟩ := h
    refine (h.wp_steady fun _ _ => keeps_readInodeTable s).next fun n s h => ?_
    exact (h.wp_iput hip).next fun _ s h => wp_pure.mpr h

theorem Refs.wp_sysMount {dirName : Word} (h : Refs rootDev mm pipe base s)
    (hcur : cur.NoPipe pipe) (hroom : Room 18 base) :
    wp (sysMount rd rootDev cur devName dirName) (fun _ => Refs rootDev mm pipe base)
      NotFree s := by
  refine (h.wp_blockDevice hcur hroom).next fun r s h => ?_
  cases r with
  | error e => exact wp_pure.mpr h
  | ok dev =>
    refine (h.wp_namei hcur hroom).next fun o s h => ?_
    cases o with
    | none => exact wp_pure.mpr h
    | some dir => exact wp_mountOn h.1 h.2

/-- The table without the mount of entry `i`. -/
def unmounted (super : Fin nrSuper → SuperBlock) (i : Fin nrSuper) : Fin nrSuper → SuperBlock :=
  update super i { super i with imount := none }

theorem superRefs_unmounted {i : Fin nrSuper} (hsome : (super i).imount = some ip) :
    superRefs super = addRef (superRefs (unmounted super i)) ip := by
  have hnone : (unmounted super i i).imount = none := by rw [unmounted, update_self]
  have hback : update (unmounted super i) i
      { unmounted super i i with imount := some ip } = super := by
    rw [unmounted, update_self, update_idem, ← hsome]
    exact update_eq_self ..
  funext ip'
  rw [← superRefs_mount hnone ip ip', hback]

/-- After `iput` of the directory it was mounted on. -/
theorem Refs.unmount {i : Fin nrSuper} (h : Refs rootDev mm pipe base s)
    (hdev : (s.super i).dev ≠ 0)
    (h' : Holds ⟨mm, pipe, s.super⟩ (fun ip => base ip + superRefs (unmounted s.super i) ip) s') :
    Refs rootDev mm pipe base { s' with super := unmounted s'.super i } := by
  have hsuper : s'.super = s.super := h'.super
  rw [hsuper]
  exact h.replace _ h' (fun h0 => absurd h0 hdev) (h.super.root i) fun ip hip => nomatch hip

theorem Refs.wp_sysUmount (h : Refs rootDev mm pipe base s)
    (hcur : cur.NoPipe pipe) (hroom : Room 18 base) :
    wp (sysUmount rd rootDev cur devName) (fun _ => Refs rootDev mm pipe base) NotFree s := by
  refine (h.wp_blockDevice hcur hroom).next fun r s h => ?_
  cases r with
  | error e => exact wp_pure.mpr h
  | ok dev =>
    refine wp_ite.mpr ⟨fun _ => wp_pure.mpr h, fun hroot => wp_bind.mpr ?_⟩
    refine wp_getSuper (wp_pure.mpr h) fun i hi hdev => ?_
    rw [wp_bind, wp_get]
    split
    · exact wp_pure.mpr h
    · next mounted himount =>
      refine wp_ite.mpr ⟨fun _ => wp_pure.mpr h, fun _ => wp_bind.mpr ?_⟩
      have hisup : (s.super i).isup = none := by
        by_contra hsome
        exact hroot (hi.symm.trans (h.super.root i hsome))
      have hholds := h.holds
      rw [superRefs_unmounted himount, funext fun ip => Nat.add_comm (base ip) _,
        ← addRef_add, funext fun ip => Nat.add_comm _ (base ip)] at hholds
      refine (keeps_updateInode (by simp) s hholds).imp fun _ s' h' => ?_
      refine (h'.wp_iput (h.holds.mounted i mounted himount).1).next fun _ s' h' => ?_
      have hgone := h.unmount (hi ▸ hdev) h'
      rw [wp_bind, wp_updateSuper, hisup, wp_bind, iput, wp_pure, wp_bind, wp_updateSuper]
      have hsame : s'.super = s.super := h'.super
      have hnone : (unmounted s'.super i i).isup = none := by
        rw [unmounted, update_self, hsame]
        exact hisup
      refine (keeps_putSuper _ ⟨hgone.setSuper { unmounted s'.super i i with isup := none }
        hnone.symm rfl (fun h0 => ?_) fun hsome => absurd rfl hsome, rfl⟩).next fun _ s h => ?_
      · refine absurd ?_ (hi ▸ hdev : (s.super i).dev ≠ 0)
        have hdev' : (unmounted s'.super i i).dev = 0 := h0
        rwa [unmounted, update_self, hsame] at hdev'
      · exact (h.1.wp_steady fun _ _ => keeps_syncDev s).next fun _ s h => wp_pure.mpr h

/-! ### The root file system -/

/-- The tables before `mount_root`. -/
structure Fs.Unused (s : Fs) : Prop where
  count : ∀ ip, (s.inode ip).count = 0
  pipe : ∀ ip, (s.inode ip).pipe = false
  super : ∀ i, mounts s.super i = (none, none)

theorem superRefs_of_none
    (h : ∀ i, mounts super i = (none, none)) (ip : Ino) : superRefs super ip = 0 := by
  have hpart (g : Fin nrSuper → Option Ino) (hg : ∀ i, g i = none) : occurrences g ip = 0 :=
    occurrences_eq_zero_iff.mpr fun i hi => nomatch (hg i).symm.trans hi
  exact Nat.add_eq_zero_iff.mpr ⟨hpart _ fun i => congrArg Prod.fst (h i),
    hpart _ fun i => congrArg Prod.snd (h i)⟩

theorem Fs.Unused.refs (h : s.Unused) : Refs rootDev s.mm (fun _ => false) (fun _ => 0)
    { s with super := fun i => { s.super i with dev := 0 } } := by
  have hzero (ip : Ino) := superRefs_of_none h.super ip
  refine ⟨⟨rfl, fun ip => ?_, h.pipe, (fun ip hp => nomatch hp), (fun ip hp => nomatch hp), rfl,
    fun i ip hi => ?_⟩, fun i _ => ?_, fun i hi => ?_⟩
  · rw [h.count]
    exact (hzero ip).symm.trans (Nat.zero_add _).symm
  · have hnone : (s.super i).imount = none := congrArg Prod.snd (h.super i)
    cases hnone.symm.trans hi
  · exact ⟨congrArg Prod.fst (h.super i), congrArg Prod.snd (h.super i)⟩
  · exact absurd (congrArg Prod.fst (h.super i)) hi

theorem superRefs_root {i : Fin nrSuper} (h : ∀ i, mounts super i = (none, none)) (mi ip : Ino) :
    superRefs (update super i { super i with isup := some mi, imount := some mi }) ip =
      if mi = ip then 2 else 0 := by
  have hpart (g : SuperBlock → Option Ino) (hg : ∀ i, g (super i) = none)
      (hnew : g { super i with isup := some mi, imount := some mi } = some mi) :
      occurrences (fun j => g (update super i
        { super i with isup := some mi, imount := some mi } j)) ip = if mi = ip then 1 else 0 := by
    have hnone : occurrences (fun j => g (super j)) ip = 0 :=
      occurrences_eq_zero_iff.mpr fun j hj => nomatch (hg j).symm.trans hj
    have hupdate := occurrences_update (g := fun j => g (super j)) (f := fun j => g
      (update super i { super i with isup := some mi, imount := some mi } j)) i
      (fun j hj => by rw [update_of_ne hj]) ip
    rw [hnone, hg, if_neg nofun, update_self, hnew, Nat.zero_add, Nat.add_zero] at hupdate
    simpa only [some.injEq] using hupdate
  rw [superRefs, hpart SuperBlock.isup (fun i => congrArg Prod.fst (h i)) rfl,
    hpart SuperBlock.imount (fun i => congrArg Prod.snd (h i)) rfl]
  split <;> rfl

/-- The root inode with its four references, two of which are of the super block. -/
theorem refs_root {i : Fin nrSuper} (hnone : ∀ i, mounts s.super i = (none, none))
    (hdev : (s.super i).dev = rootDev) (hne : rootDev ≠ 0)
    (h : Holds ⟨mm, fun _ => false, s.super⟩ (addRef (fun _ => 0) ip) s) :
    Refs rootDev mm (fun _ => false) (addRef (addRef (fun _ => 0) ip) ip)
      { s.setInode ip { s.inode ip with count := (s.inode ip).count + 3 } with
        super := update s.super i { s.super i with isup := some ip, imount := some ip } } := by
  have hall (P : SuperBlock → Prop) (hnew : P { s.super i with isup := some ip, imount := some ip })
      (hold : ∀ sb, sb.isup = none → sb.imount = none → P sb) (j : Fin nrSuper) :
      P (update s.super i { s.super i with isup := some ip, imount := some ip } j) := by
    by_cases hj : j = i
    · rwa [hj, update_self]
    · rw [update_of_ne hj]
      exact hold _ (congrArg Prod.fst (hnone j)) (congrArg Prod.snd (hnone j))
  refine ⟨⟨h.mm, fun ip' => ?_, fun ip' => ?_, by simp, by simp,
    rfl, ?_⟩, ?_, ?_⟩
  · dsimp only
    rw [superRefs_root hnone]
    have hcount := h.count ip'
    by_cases hip : ip' = ip
    · subst hip
      rw [addRef_self] at hcount
      simp [Fs.setInode, addRef, BitVec.toNat_add, hcount]
    · rw [addRef_of_ne _ hip] at hcount
      simp [Fs.setInode, hip, addRef, Ne.symm hip, hcount]
  · by_cases hip : ip' = ip
    · subst hip
      simpa [Fs.setInode] using h.pipe ip'
    · simpa [Fs.setInode, hip] using h.pipe ip'
  · exact hall (fun sb => ∀ ip, sb.imount = some ip → false = false ∧ sb.dev ≠ 0)
      (fun _ _ => ⟨rfl, hdev ▸ hne⟩) fun sb _ h ip hip => absurd (h.symm.trans hip) (by simp)
  · exact hall (fun sb => sb.dev = 0 → sb.isup = none ∧ sb.imount = none)
      (fun h0 => absurd (hdev.symm.trans h0) hne) fun sb h h' _ => ⟨h, h'⟩
  · exact hall (fun sb => sb.isup ≠ none → sb.dev = rootDev) (fun _ => hdev)
      fun sb h _ hsome => absurd h hsome


theorem Fs.Unused.wp_mountRoot (h : s.Unused) : wp (mountRoot rd rootDev)
    (fun mi s' => Refs rootDev s.mm (fun _ => false) (addRef (addRef (fun _ => 0) mi) mi) s')
    NotFree s := by
  rw [mountRoot, wp_bind, wp_modify]
  refine h.refs.wp_readSuper.next fun o s' h' => ?_
  cases o with
  | none => exact wp_panic (by decide)
  | some i =>
    obtain ⟨⟨h', hm⟩, hi⟩ := h'
    obtain ⟨hdev, hne⟩ := hi i rfl
    have hnone (i : Fin nrSuper) : mounts s'.super i = (none, none) := by
      rw [hm]
      exact h.super i
    have hzero : (fun ip => 0 + superRefs s'.super ip) = fun _ => 0 := by
      funext ip
      rw [superRefs_of_none hnone]
    have hholds := h'.holds
    rw [hzero] at hholds
    refine (hholds.wp_iget fun _ => by decide).next fun mi s'' h'' => ?_
    obtain ⟨h'', -⟩ := h''
    have hsuper : s''.super = s'.super := h''.super
    rw [wp_bind, updateInode, wp_modify, wp_bind, wp_updateSuper, wp_bind, wp_get, wp_ite]
    refine ⟨fun _ => wp_pure.mpr ?_, fun _ => wp_panic (by decide)⟩
    rw [← hsuper] at hnone hdev h''
    exact refs_root hnone hdev hne h''

/-! ### The calls on names -/

theorem Refs.wp_sysMknod {filename : Word} {dev : BitVec 16} (h : Refs rootDev mm pipe base s)
    (hcur : cur.NoPipe pipe) (hroom : Room 19 base) :
    wp (sysMknod rd cur filename mode dev) (fun _ => Refs rootDev mm pipe base) NotFree s :=
  (h.holds.wp_sysMknod (hcur.plain _) ((hroom.mono (by decide)).add_super _)).imp fun _ _ h' =>
    h.of_holds h'

theorem Refs.wp_sysMkdir (h : Refs rootDev mm pipe base s) (hcur : cur.NoPipe pipe)
    (hroom : Room 19 base) :
    wp (sysMkdir rd cur pathname mode) (fun _ => Refs rootDev mm pipe base) NotFree s :=
  (h.holds.wp_sysMkdir (hcur.plain _) ((hroom.mono (by decide)).add_super _)).imp fun _ _ h' =>
    h.of_holds h'

theorem Refs.wp_sysRmdir (h : Refs rootDev mm pipe base s) (hcur : cur.NoPipe pipe)
    (hroom : Room 19 base) :
    wp (sysRmdir rd cur name) (fun _ => Refs rootDev mm pipe base) NotFree s :=
  (h.holds.wp_sysRmdir (hcur.plain _) (hroom.add_super _)).imp fun _ _ h' => h.of_holds h'

theorem Refs.wp_sysUnlink (h : Refs rootDev mm pipe base s) (hcur : cur.NoPipe pipe)
    (hroom : Room 19 base) :
    wp (sysUnlink rd cur name) (fun _ => Refs rootDev mm pipe base) NotFree s :=
  (h.holds.wp_sysUnlink (hcur.plain _) (hroom.add_super _)).imp fun _ _ h' => h.of_holds h'

theorem Refs.wp_sysLink {oldname newname : Word} (h : Refs rootDev mm pipe base s)
    (hcur : cur.NoPipe pipe) (hroom : Room 19 base) :
    wp (sysLink rd cur oldname newname) (fun _ => Refs rootDev mm pipe base) NotFree s :=
  (h.holds.wp_sysLink (hcur.plain _) (hroom.add_super _)).imp fun _ _ h' => h.of_holds h'

end

end LinuxRv.Minix
