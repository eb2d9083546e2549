import LinuxRv.Proc.PipeOrder

/-!
Nobody sleeps on a pipe for nothing.

`sleep_on` is only called right after `wake_up`, so that never more than one
process is asleep on `i_wait`, and every way out of a call goes through
`wake_up`. The exception is a process that dies of a byte of its buffer after
it has moved an index: it only wakes the other side if it was the last to have
its end open.
-/

namespace LinuxRv.Pipe

open ByteMemory Minix Proc Function Finset Sys

variable {ι : Type}

namespace Sys

variable {e : End}

/-- The ends that are open. -/
def ends (s : Sys ι) : ℕ :=
  (if (s.holders .reads).card = 0 then 0 else 1) + (if (s.holders .writes).card = 0 then 0 else 1)

/-- `i_wait` has whoever is asleep, and `i_count` counts the open ends. -/
structure Waits (s : Sys ι) : Prop where
  single : ∀ p, s.asleep p → s.wait = some p
  count : s.inode.count.toNat = s.ends

/-- The reason for which a process is asleep. -/
def Stopped (s : Sys ι) : Place ι → Prop
  | .reading _ _ => pipeSize s.inode = 0 ∧ s.holders .writes ≠ ∅
  | .writing _ _ => pipeSize s.inode = 4095 ∧ s.holders .reads ≠ ∅
  | _ => False

structure Awake (s : Sys ι) : Prop extends s.Waits where
  stopped : ∀ p, s.asleep p → s.Stopped (s.place p)

/-- Nobody is asleep. -/
structure Up (s : Sys ι) : Prop where
  awake : ∀ p, s.asleep p = false
  count : s.inode.count.toNat = s.ends

variable {s : Sys ι}

theorem Up.toAwake (h : s.Up) : s.Awake where
  single p hp := by rw [h.awake p] at hp; cases hp
  count := h.count
  stopped p hp := by rw [h.awake p] at hp; cases hp

/-- `i_count == 2`: both ends are open. -/
theorem Waits.open_of_count (h : s.Waits) (hcount : s.inode.count = 2) :
    s.holders .reads ≠ ∅ ∧ s.holders .writes ≠ ∅ := by
  have htwo : s.ends = 2 := by
    rw [← h.count, hcount]
    rfl
  unfold ends at htwo
  constructor
  · rintro hempty
    rw [hempty] at htwo
    simp at htwo
    split at htwo <;> omega
  · rintro hempty
    rw [hempty] at htwo
    simp at htwo
    split at htwo <;> omega

variable [DecidableEq ι] {me : ι}

theorem asleep_wake (tmp : Option ι) (p : ι) :
    (s.wake tmp).asleep p ↔ s.asleep p ∧ tmp ≠ some p := by
  cases tmp with
  | none => simp [wake]
  | some q =>
    rcases eq_or_ne q p with rfl | hne
    · simp [wake]
    · simp [wake, update_of_ne hne.symm, hne]

theorem Waits.wakeUp (h : s.Waits) : s.wakeUp.Up := by
  refine ⟨fun p => ?_, h.count⟩
  rw [← Bool.not_eq_true]
  intro hp
  obtain ⟨hasleep, hne⟩ := (asleep_wake s.wait p).mp hp
  exact hne (h.single p hasleep)

theorem Up.ret (h : s.Up) (value : ℤ) (bytes : List Byte) : (s.ret me value bytes).Up :=
  ⟨h.awake, h.count⟩

/-- Going to sleep for a reason, right after `wake_up`. -/
theorem Up.sleepOn (h : s.Up) {place : Option ι → Place ι} (hp : s.Stopped (place s.wait)) :
    (s.sleepOn me place).Awake := by
  have hme (p : ι) (hasleep : (s.sleepOn me place).asleep p) : p = me := by
    by_contra hne
    have hold : (s.sleepOn me place).asleep p = s.asleep p := update_of_ne hne ..
    rw [hold, h.awake p] at hasleep
    cases hasleep
  refine ⟨⟨?_, h.count⟩, ?_⟩
  · intro p hasleep
    rw [hme p hasleep]
    rfl
  · intro p hasleep
    rw [hme p hasleep]
    show s.Stopped (update s.place me (place s.wait) me)
    rwa [update_self]

/-! ### Closing an end -/

/-- The state when `me` no longer has the end. -/
def drop (s : Sys ι) (me : ι) (e : End) : Sys ι :=
  { s with holders := update s.holders e ((s.holders e).erase me) }

theorem close_of_mem (h : me ∈ s.holders e) :
    s.close me e = if (s.holders e).erase me = ∅ then (s.drop me e).iput else s.drop me e := by
  unfold close
  rw [if_pos h]
  simp only [update_self]
  rfl

theorem ends_drop_of_empty (h : me ∈ s.holders e) (hlast : (s.holders e).erase me = ∅) :
    (s.drop me e).ends + 1 = s.ends := by
  have hcard : (s.holders e).card ≠ 0 := card_ne_zero_of_mem h
  cases e with
  | reads => simp [ends, drop, hlast, hcard]; omega
  | writes => simp [ends, drop, hlast, hcard]

theorem ends_drop_of_ne (h : me ∈ s.holders e) (hmore : (s.holders e).erase me ≠ ∅) :
    (s.drop me e).ends = s.ends := by
  have hcard : (s.holders e).card ≠ 0 := card_ne_zero_of_mem h
  have hcard' : ((s.holders e).erase me).card ≠ 0 := by simpa using hmore
  cases e with
  | reads => simp only [ends, drop, update_self, hcard, hcard']; rfl
  | writes => simp only [ends, drop, update_self, hcard, hcard']; rfl

@[simp] theorem iput_count (s : Sys ι) : s.iput.inode.count = s.inode.count - 1 := by
  unfold iput
  dsimp only
  split <;> rfl

@[simp] theorem iput_asleep (s : Sys ι) : s.iput.asleep = s.wakeUp.asleep := by
  unfold iput
  dsimp only
  split <;> rfl

@[simp] theorem iput_holders (s : Sys ι) : s.iput.holders = s.holders := by
  unfold iput
  dsimp only
  split <;> rfl

/-- The last process to close an end wakes whoever is asleep. -/
theorem Waits.iput_drop (h : s.Waits) (hmem : me ∈ s.holders e)
    (hlast : (s.holders e).erase me = ∅) : (s.drop me e).iput.Up := by
  have hends := ends_drop_of_empty hmem hlast
  have hcount := h.count
  refine ⟨fun p => ?_, ?_⟩
  · rw [iput_asleep]
    exact h.wakeUp.awake p
  · have hlt := s.inode.count.isLt
    have hrest : (s.drop me e).iput.ends = (s.drop me e).ends := by rw [ends, iput_holders, ends]
    rw [hrest, iput_count]
    show (s.inode.count - 1).toNat = _
    rw [BitVec.toNat_sub, show BitVec.toNat (1 : BitVec 16) = 1 from rfl]
    omega

theorem Waits.close_last (h : s.Waits) (hlast : s.holders e = {me}) : (s.close me e).Up := by
  have hmem : me ∈ s.holders e := by simp [hlast]
  have hempty : (s.holders e).erase me = ∅ := by simp [hlast]
  rw [close_of_mem hmem, if_pos hempty]
  exact h.iput_drop hmem hempty

theorem Waits.close (h : s.Waits) (e : End) : (s.close me e).Waits := by
  by_cases hmem : me ∈ s.holders e
  · rw [close_of_mem hmem]
    split
    · rename_i hlast
      exact (h.iput_drop hmem hlast).toAwake.toWaits
    · rename_i hmore
      refine ⟨h.single, ?_⟩
      rw [ends_drop_of_ne hmem hmore]
      exact h.count
  · unfold Sys.close
    rwa [if_neg hmem]

theorem Up.close (h : s.Up) (e : End) : (s.close me e).Up := by
  by_cases hmem : me ∈ s.holders e
  · rw [close_of_mem hmem]
    split
    · rename_i hlast
      exact h.toAwake.iput_drop hmem hlast
    · rename_i hmore
      refine ⟨h.awake, ?_⟩
      rw [ends_drop_of_ne hmem hmore]
      exact h.count
  · unfold Sys.close
    rwa [if_neg hmem]

theorem Stopped.drop (hmore : (s.holders e).erase me ≠ ∅) {place : Place ι} (h : s.Stopped place) :
    (s.drop me e).Stopped place := by
  have hopen (e' : End) (hne : s.holders e' ≠ ∅) : (s.drop me e).holders e' ≠ ∅ := by
    rcases eq_or_ne e' e with rfl | hother
    · simpa [Sys.drop] using hmore
    · simpa [Sys.drop, hother] using hne
  cases place with
  | user | dead => exact h
  | reading c tmp => exact ⟨h.1, hopen .writes h.2⟩
  | writing c tmp => exact ⟨h.1, hopen .reads h.2⟩

theorem Awake.close (h : s.Awake) (e : End) : (s.close me e).Awake := by
  by_cases hmem : me ∈ s.holders e
  · rw [close_of_mem hmem]
    split
    · rename_i hlast
      exact (h.toWaits.iput_drop hmem hlast).toAwake
    · rename_i hmore
      refine ⟨⟨h.single, ?_⟩, fun p hp => (h.stopped p hp).drop hmore⟩
      rw [ends_drop_of_ne hmem hmore]
      exact h.count
  · unfold Sys.close
    rwa [if_neg hmem]

theorem close_place (s : Sys ι) (e : End) : (s.close me e).place = s.place := by
  unfold close iput
  dsimp only
  split_ifs <;> rfl

theorem close_holders (s : Sys ι) (e : End) :
    (s.close me e).holders = update s.holders e ((s.holders e).erase me) := by
  by_cases hmem : me ∈ s.holders e
  · rw [close_of_mem hmem]
    split
    · rw [iput_holders]
      rfl
    · rfl
  · rw [close, if_neg hmem, erase_eq_of_notMem hmem, update_eq_self]

/-- A process that dies and was the last to have an end. -/
theorem Waits.exit_last (h : s.Waits) (hlast : s.holders e = {me}) : (s.exit me).Up := by
  have hclosed : ((s.close me .reads).close me .writes).Up := by
    cases e with
    | reads => exact (h.close_last hlast).close .writes
    | writes =>
      apply (h.close .reads).close_last
      rw [close_holders, update_of_ne (by decide), hlast]
  exact ⟨hclosed.awake, hclosed.count⟩

theorem Awake.exit (h : s.Awake) (hme : (s.place me).isUser) : (s.exit me).Awake := by
  have hclosed : ((s.close me .reads).close me .writes).Awake := (h.close .reads).close .writes
  have hplace : ((s.close me .reads).close me .writes).place = s.place := by
    rw [close_place, close_place]
  refine ⟨⟨hclosed.single, hclosed.count⟩, fun p hp => ?_⟩
  have hstopped := hclosed.stopped p hp
  rw [hplace] at hstopped
  rcases eq_or_ne p me with rfl | hne
  · -- a process in user mode is not asleep
    cases hp : s.place p with
    | user | dead => rw [hp] at hstopped; exact hstopped.elim
    | reading | writing => rw [hp] at hme; cases hme
  · show Stopped _ (update ((s.close me .reads).close me .writes).place me .dead p)
    rw [update_of_ne hne, hplace]
    exact hstopped

/-! ### Calls -/

theorem Waits.readPipe (h : s.Waits) {c : Call Unit} (hkill : s.holders .reads = {me} ∨ c.Sound)
    (fuel : ℕ) : (s.readPipe me fuel c).Awake := by
  induction fuel generalizing s c with
  | zero => exact (h.wakeUp.ret _ _).toAwake
  | succ fuel ih =>
    have htake : (s.takeChunk c).Waits := ⟨h.single, h.count⟩
    unfold readPipe
    split
    · exact (h.wakeUp.ret _ _).toAwake
    split
    · rename_i hempty
      split
      · exact (h.wakeUp.ret _ _).toAwake
      · rename_i hcount
        exact h.wakeUp.sleepOn ⟨hempty, (h.open_of_count (not_not.mp hcount)).2⟩
    split
    · rename_i hcut
      rcases hkill with hlast | hc
      · exact (htake.exit_last hlast).toAwake
      · rw [Fifo.readBytes_eq hc, Ring.length_contents] at hcut
        exact absurd hcut (lt_irrefl _)
    · rename_i hwhole
      apply ih htake
      apply hkill.imp_right
      intro hc
      have hlen : (s.readBytes c).length = s.readChars c := by
        rw [Fifo.readBytes_eq hc, Ring.length_contents]
      exact hc.advance hlen (by unfold readChars; omega)

theorem Waits.writePipe (h : s.Waits) {c : Call Byte} (hkill : s.holders .writes = {me} ∨ c.Sound)
    (fuel : ℕ) : (s.writePipe me fuel c).Awake := by
  induction fuel generalizing s c with
  | zero => exact (h.wakeUp.ret _ _).toAwake
  | succ fuel ih =>
    have haccept : (s.acceptChunk c).Waits := ⟨h.single, h.count⟩
    unfold writePipe
    split
    · exact (h.wakeUp.ret _ _).toAwake
    split
    · rename_i hfull
      split
      · have hup (signal : ι → Word) : ({ s.wakeUp with signal := signal } : Sys ι).Up :=
          ⟨h.wakeUp.awake, h.wakeUp.count⟩
        exact ((hup _).ret _ _).toAwake
      · rename_i hcount
        have hsize : pipeSize s.inode = 4095 := by
          have hle := pipeSize_le s.inode
          omega
        exact h.wakeUp.sleepOn ⟨hsize, (h.open_of_count (not_not.mp hcount)).1⟩
    split
    · rename_i hcut
      rcases hkill with hlast | hc
      · exact (haccept.exit_last hlast).toAwake
      · rw [Fifo.length_writeBytes hc] at hcut
        exact absurd hcut (lt_irrefl _)
    · apply ih haccept
      apply hkill.imp_right
      intro hc
      exact hc.advance (Fifo.length_writeBytes hc) (by unfold writeChars; omega)

theorem Awake.wake (h : s.Awake) (tmp : Option ι) : (s.wake tmp).Awake where
  single p hp := h.single p ((asleep_wake tmp p).mp hp).1
  count := h.count
  stopped p hp := h.stopped p ((asleep_wake tmp p).mp hp).1

end Sys

/-! ### One reader and one writer -/

/-- The end of the call a process is in. -/
def Place.inCall : Place ι → Option End
  | .reading _ _ => some .reads
  | .writing _ _ => some .writes
  | _ => none

/-- The ends belong to `r` and `w`, and a process has the end of the call it is
in. -/
structure Sys.Paired (r w : ι) (s : Sys ι) : Prop where
  reads : s.holders .reads ⊆ {r}
  writes : s.holders .writes ⊆ {w}
  held : ∀ p e, (s.place p).inCall = some e → p ∈ s.holders e

namespace Sys.Paired

variable {r w me : ι} {s : Sys ι}

theorem eq_singleton (h : s.Paired r w) : (me ∈ s.holders .reads → s.holders .reads = {me}) ∧
      (me ∈ s.holders .writes → s.holders .writes = {me}) := by
  constructor
  · intro hmem
    obtain rfl := mem_singleton.mp (h.reads hmem)
    exact Finset.Subset.antisymm h.reads (singleton_subset_iff.mpr hmem)
  · intro hmem
    obtain rfl := mem_singleton.mp (h.writes hmem)
    exact Finset.Subset.antisymm h.writes (singleton_subset_iff.mpr hmem)

variable [DecidableEq ι]

theorem held_update (h : s.Paired r w) {place : Place ι}
    (hp : ∀ e, place.inCall = some e → me ∈ s.holders e) (p : ι) (e : End)
    (hin : (update s.place me place p).inCall = some e) : p ∈ s.holders e := by
  rcases eq_or_ne p me with rfl | hne
  · rw [update_self] at hin
    exact hp e hin
  · rw [update_of_ne hne] at hin
    exact h.held p e hin

theorem ret (h : s.Paired r w) (value : ℤ) (bytes : List Byte) :
    (s.ret me value bytes).Paired r w :=
  ⟨h.reads, h.writes, h.held_update (fun e (hin : Place.user.inCall = some e) => nomatch hin)⟩

theorem sleepOn (h : s.Paired r w) {place : Option ι → Place ι} {e : End}
    (hin : (place s.wait).inCall = some e) (hmem : me ∈ s.holders e) :
    (s.sleepOn me place).Paired r w := by
  refine ⟨h.reads, h.writes, h.held_update fun e' hin' => ?_⟩
  rw [hin] at hin'
  cases hin'
  exact hmem

theorem exit (h : s.Paired r w) : (s.exit me).Paired r w := by
  have hholders (e : End) : (s.exit me).holders e = (s.holders e).erase me := by
    show ((s.close me .reads).close me .writes).holders e = _
    rw [close_holders, close_holders]
    cases e <;> simp
  refine ⟨?_, ?_, ?_⟩
  · rw [hholders]
    exact (erase_subset _ _).trans h.reads
  · rw [hholders]
    exact (erase_subset _ _).trans h.writes
  · intro p e hin
    have hplace : (s.exit me).place = update s.place me .dead := by
      show update ((s.close me .reads).close me .writes).place me .dead = _
      rw [close_place, close_place]
    rw [hplace] at hin
    rw [hholders]
    rcases eq_or_ne p me with rfl | hne
    · rw [update_self] at hin
      cases hin
    · rw [update_of_ne hne] at hin
      exact mem_erase.mpr ⟨hne, h.held p e hin⟩

theorem close (h : s.Paired r w) (hme : (s.place me).isUser) (e : End) :
    (s.close me e).Paired r w := by
  have hsub (e' : End) : (s.close me e).holders e' ⊆ s.holders e' := by
    rw [close_holders]
    rcases eq_or_ne e' e with rfl | hne
    · rw [update_self]
      exact erase_subset _ _
    · rw [update_of_ne hne]
  refine ⟨(hsub _).trans h.reads, (hsub _).trans h.writes, fun p e' hin => ?_⟩
  rw [close_place] at hin
  have hne : p ≠ me := by
    rintro rfl
    cases hp : s.place p with
    | user | dead => rw [hp] at hin; cases hin
    | reading | writing => rw [hp] at hme; cases hme
  rw [close_holders]
  rcases eq_or_ne e' e with rfl | hother
  · rw [update_self]
    exact mem_erase.mpr ⟨hne, h.held p e' hin⟩
  · rw [update_of_ne hother]
    exact h.held p e' hin

theorem readPipe (h : s.Paired r w) (hmem : me ∈ s.holders .reads) (c : Call Unit) (fuel : ℕ) :
    (s.readPipe me fuel c).Paired r w := by
  have hwake {s : Sys ι} (h : s.Paired r w) : s.wakeUp.Paired r w := ⟨h.reads, h.writes, h.held⟩
  induction fuel generalizing s c with
  | zero => exact (hwake h).ret _ _
  | succ fuel ih =>
    have htake : (s.takeChunk c).Paired r w := ⟨h.reads, h.writes, h.held⟩
    unfold readPipe
    split_ifs
    · exact (hwake h).ret _ _
    · exact (hwake h).ret _ _
    · exact (hwake h).sleepOn rfl hmem
    · exact htake.exit
    · exact ih htake hmem _

theorem writePipe (h : s.Paired r w) (hmem : me ∈ s.holders .writes) (c : Call Byte) (fuel : ℕ) :
    (s.writePipe me fuel c).Paired r w := by
  have hwake {s : Sys ι} (h : s.Paired r w) : s.wakeUp.Paired r w := ⟨h.reads, h.writes, h.held⟩
  induction fuel generalizing s c with
  | zero => exact (hwake h).ret _ _
  | succ fuel ih =>
    have haccept : (s.acceptChunk c).Paired r w := ⟨h.reads, h.writes, h.held⟩
    have hsignal (signal : ι → Word) : ({ s.wakeUp with signal := signal } : Sys ι).Paired r w :=
      ⟨h.reads, h.writes, h.held⟩
    unfold writePipe
    dsimp only
    split_ifs
    · exact (hwake h).ret _ _
    · exact (hsignal _).ret _ _
    · exact (hsignal _).ret _ _
    · exact (hwake h).sleepOn rfl hmem
    · exact haccept.exit
    · exact ih haccept hmem _

end Sys.Paired

/-! ### Runs -/

variable [DecidableEq ι]

/-- A call that goes on dies of its buffer only with the last hold on its
end. -/
def Sys.SafePlace (s : Sys ι) (me : ι) : Place ι → Prop
  | .reading c _ => s.holders .reads = {me} ∨ c.Sound
  | .writing c _ => s.holders .writes = {me} ∨ c.Sound
  | _ => True

def Sys.Safe (s : Sys ι) : Event ι → Prop
  | .read me count buf => s.holders .reads = {me} ∨ ∀ o < count, (buf o).isSome
  | .write me count buf => s.holders .writes = {me} ∨ ∀ o < count, (buf o).isSome
  | .resume me => s.SafePlace me (s.place me)
  | _ => True

theorem Sys.Awake.fork {s : Sys ι} (h : s.Awake) {me child : ι} (hchild : (s.place child).isDead) :
    (s.fork me child).Awake := by
  have hempty (e : End) : (s.fork me child).holders e = ∅ ↔ s.holders e = ∅ := by
    by_cases hmem : me ∈ s.holders e
    · have hne : s.holders e ≠ ∅ := ne_empty_of_mem hmem
      simp [Sys.fork, hmem, hne]
    · simp [Sys.fork, hmem]
  have hends : (s.fork me child).ends = s.ends := by
    simp only [ends, card_eq_zero, hempty]
  refine ⟨⟨h.single, ?_⟩, fun p hp => ?_⟩
  · rw [hends]
    exact h.count
  · have hstopped := h.stopped p hp
    have hne : p ≠ child := by
      rintro rfl
      cases hplace : s.place p with
      | dead => rw [hplace] at hstopped; exact hstopped
      | user | reading | writing => rw [hplace] at hchild; cases hchild
    show (s.fork me child).Stopped (update s.place child .user p)
    rw [update_of_ne hne]
    cases hplace : s.place p with
    | user | dead => rw [hplace] at hstopped; exact hstopped.elim
    | reading | writing =>
      rw [hplace] at hstopped
      exact ⟨hstopped.1, (hempty _).not.mpr hstopped.2⟩

theorem Sys.Awake.step {s : Sys ι} (h : s.Awake) {ev : Event ι} (hev : s.Enabled ev)
    (hsafe : s.Safe ev) : (s.step ev).Awake := by
  cases ev with
  | read me count buf => exact h.toWaits.readPipe (hsafe.imp_right Call.sound_start) count
  | write me count buf => exact h.toWaits.writePipe (hsafe.imp_right Call.sound_start) count
  | resume me =>
    show (s.resume me).Awake
    have hplace : s.SafePlace me (s.place me) := hsafe
    unfold resume
    rcases hp : s.place me with _ | ⟨c, tmp⟩ | ⟨c, tmp⟩ | _
    · exact h
    · rw [hp] at hplace
      exact (h.wake tmp).toWaits.readPipe hplace c.count
    · rw [hp] at hplace
      exact (h.wake tmp).toWaits.writePipe hplace c.count
    · exact h
  | close me e => exact h.close e
  | exit me => exact h.exit hev
  | fork me child => exact h.fork hev.2

/-- No process is made. -/
def Event.NoFork : Event ι → Prop
  | .fork .. => False
  | _ => True

theorem Sys.Paired.step {r w : ι} {s : Sys ι} (h : s.Paired r w) {ev : Event ι}
    (hev : s.Enabled ev) (hfork : ev.NoFork) : (s.step ev).Paired r w := by
  have hwake (tmp : Option ι) : (s.wake tmp).Paired r w := ⟨h.reads, h.writes, h.held⟩
  cases ev with
  | read me count buf => exact h.readPipe hev.2 _ _
  | write me count buf => exact h.writePipe hev.2 _ _
  | resume me =>
    have hheld := h.held me
    show (s.resume me).Paired r w
    unfold resume
    rcases hp : s.place me with _ | ⟨c, tmp⟩ | ⟨c, tmp⟩ | _
    · exact h
    · rw [hp] at hheld
      exact (hwake tmp).readPipe (hheld _ rfl) _ _
    · rw [hp] at hheld
      exact (hwake tmp).writePipe (hheld _ rfl) _ _
    · exact h
  | close me e => exact h.close hev.1 e
  | exit me => exact h.exit
  | fork me child => exact hfork.elim

omit [DecidableEq ι] in
/-- Alone with its end, a process may die of its buffer. -/
theorem Sys.Paired.safe {r w : ι} {s : Sys ι} (h : s.Paired r w) {ev : Event ι}
    (hev : s.Enabled ev) : s.Safe ev := by
  cases ev with
  | read me count buf => exact Or.inl (h.eq_singleton.1 hev.2)
  | write me count buf => exact Or.inl (h.eq_singleton.2 hev.2)
  | resume me =>
    have hheld := h.held me
    show s.SafePlace me (s.place me)
    rcases hp : s.place me with _ | ⟨c, tmp⟩ | ⟨c, tmp⟩ | _
    · trivial
    · rw [hp] at hheld
      exact Or.inl (h.eq_singleton.1 (hheld _ rfl))
    · rw [hp] at hheld
      exact Or.inl (h.eq_singleton.2 (hheld _ rfl))
    · trivial
  | close | exit | fork => trivial

/-- `r` has one end and `w` the other, and nobody is in a call. -/
structure Sys.Between (r w : ι) (s : Sys ι) : Prop where
  ne : r ≠ w
  reads : s.holders .reads = {r}
  writes : s.holders .writes = {w}
  count : s.inode.count = 2
  awake : ∀ p, s.asleep p = false
  places : ∀ p, (s.place p).inCall = none

theorem Sys.Between.reach {r w : ι} {s₀ s : Sys ι} (h₀ : s₀.Between r w)
    (h : Sys.Reach Event.NoFork s₀ s) : s.Awake ∧ s.Paired r w := by
  induction h with
  | start =>
    have hup : s₀.Up := by
      refine ⟨h₀.awake, ?_⟩
      rw [h₀.count, ends, h₀.reads, h₀.writes]
      rfl
    refine ⟨hup.toAwake, h₀.reads.subset, h₀.writes.subset, fun p e hin => ?_⟩
    rw [h₀.places p] at hin
    cases hin
  | step ev _ hev hfork ih =>
    exact ⟨ih.1.step hev (ih.2.safe hev), ih.2.step hev hfork⟩

/-- Between any number of readers and writers, as long as no buffer kills. -/
theorem awake_of_noFault {s₀ s : Sys ι} (h₀ : s₀.Fresh) (hup : s₀.Up)
    (h : Sys.Reach Event.NoFault s₀ s) : s.Awake := by
  induction h with
  | start => exact hup.toAwake
  | step ev hreach hev hfault ih =>
    apply ih.step hev
    have hfifo := h₀.fifo_of_reach hreach
    cases ev with
    | read me count buf => exact Or.inr hfault
    | write me count buf => exact Or.inr hfault
    | resume me =>
      have hsound := hfifo.places me
      show Sys.SafePlace _ me _
      rcases hp : place _ me with _ | ⟨c, tmp⟩ | ⟨c, tmp⟩ | _
      · trivial
      · rw [hp] at hsound
        exact Or.inr hsound
      · rw [hp] at hsound
        exact Or.inr hsound
      · trivial
    | close | exit | fork => trivial

theorem awake_of_noFault_after_read : ∃ s, Sys.Reach Event.NoFault newPipe s ∧ s.asleep 0 ∧ s.Awake := by
  have hr : newPipe.Enabled (.read 0 5 fun _ => some ()) := by decide
  have hreach : Sys.Reach Event.NoFault newPipe _ := .step _ .start hr fun _ _ => rfl
  exact ⟨_, hreach, by decide, awake_of_noFault newPipe_fresh ⟨fun _ => rfl, rfl⟩ hreach⟩

end LinuxRv.Pipe
