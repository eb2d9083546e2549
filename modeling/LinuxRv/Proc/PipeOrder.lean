import LinuxRv.Proc.Pipe
import Mathlib.Data.List.TakeWhile

/-!
The order of the bytes in a pipe.

The page is a ring with the bytes that were accepted and not yet taken, from
the tail on, as long as no copy is cut short: head and tail are moved before
the bytes are.
-/

namespace LinuxRv.Pipe

open ByteMemory Minix Proc Function BitVec List

variable {chars : ℕ} {n : MInode} {byte : ℕ → Option Byte} {β : Type}

/-! ### Head and tail -/

/-- Both are places in the page. -/
structure InPage (n : MInode) : Prop where
  head : pipeHead n < 4096
  tail : pipeTail n < 4096

theorem pipeSize_eq (n : MInode) : pipeSize n = (pipeHead n + 2 ^ 32 - pipeTail n) % 4096 := by
  have hmask (x : Word) : (x &&& 0xfff).toNat = x.toNat % 4096 := by
    rw [toNat_and]
    exact Nat.and_two_pow_sub_one_eq_mod x.toNat 12
  have hhead := (n.zone 0).isLt
  have htail := (n.zone 1).isLt
  unfold pipeSize pipeHead pipeTail
  rw [hmask, toNat_sub, toNat_setWidth, toNat_setWidth]
  omega

theorem pipeSize_le (n : MInode) : pipeSize n ≤ 4095 := by
  rw [pipeSize_eq]
  omega

/-- The bytes in the page end at the head. -/
theorem InPage.tail_add_size (h : InPage n) : (pipeTail n + pipeSize n) % 4096 = pipeHead n := by
  have hhead := h.head
  have htail := h.tail
  rw [pipeSize_eq]
  omega

theorem toNat_advance (n : MInode) (z : Fin 9) (chars : ℕ) :
    ((advance n z chars).zone z).toNat = ((n.zone z).toNat + chars) % 4096 := by
  simp only [advance, update_self, toNat_and, toNat_add, toNat_ofNat]
  rw [show BitVec.toNat (0xfff : BitVec 16) = 2 ^ 12 - 1 from rfl, Nat.and_two_pow_sub_one_eq_mod]
  omega

theorem pipeTail_advance (n : MInode) (chars : ℕ) :
    pipeTail (advance n 1 chars) = (pipeTail n + chars) % 4096 :=
  toNat_advance n 1 chars

theorem pipeHead_advance (n : MInode) (chars : ℕ) :
    pipeHead (advance n 0 chars) = (pipeHead n + chars) % 4096 :=
  toNat_advance n 0 chars

@[simp] theorem pipeHead_advance_tail (n : MInode) (chars : ℕ) :
    pipeHead (advance n 1 chars) = pipeHead n := rfl

@[simp] theorem pipeTail_advance_head (n : MInode) (chars : ℕ) :
    pipeTail (advance n 0 chars) = pipeTail n := rfl

theorem InPage.advance_tail (h : InPage n) (hc : chars ≤ pipeSize n) :
    InPage (advance n 1 chars) ∧ pipeSize (advance n 1 chars) = pipeSize n - chars := by
  have hle := pipeSize_le n
  have hhead := h.head
  have htail := pipeTail_advance n chars
  have hsize := pipeSize_eq n
  have hold := h.tail
  refine ⟨⟨hhead, ?_⟩, ?_⟩
  · rw [htail]
    omega
  · rw [pipeSize_eq, pipeHead_advance_tail, htail]
    omega

theorem InPage.advance_head (h : InPage n) (hc : pipeSize n + chars ≤ 4095) :
    InPage (advance n 0 chars) ∧ pipeSize (advance n 0 chars) = pipeSize n + chars := by
  have htail := h.tail
  have hhead := pipeHead_advance n chars
  have hsize := pipeSize_eq n
  have hold := h.head
  refine ⟨⟨?_, htail⟩, ?_⟩
  · rw [hhead]
    omega
  · rw [pipeSize_eq, pipeTail_advance_head, hhead]
    omega

/-! ### Copies -/

/-- A copy that no place cuts short. -/
theorem copyLoop_of_some {f : ℕ → Byte} (h : ∀ o < chars, byte o = some (f o)) :
    copyLoop byte chars = (range chars).map f := by
  have hmap : (range chars).map byte = ((range chars).map f).map some := by
    rw [map_map]
    apply map_congr_left
    intro o ho
    exact h o (mem_range.mp ho)
  have htake : (((range chars).map f).map some).takeWhile Option.isSome =
      ((range chars).map f).map some := by
    rw [takeWhile_eq_self_iff]
    simp
  unfold copyLoop
  rw [hmap, htake, reduceOption, filterMap_map]
  simp

theorem length_copyLoop_of_isSome (h : ∀ o < chars, (byte o).isSome) :
    (copyLoop byte chars).length = chars := by
  have hsome (o : ℕ) (ho : o < chars) : byte o = some ((byte o).getD 0) := by
    obtain ⟨b, hb⟩ := Option.isSome_iff_exists.mp (h o ho)
    rw [hb]
    rfl
  rw [copyLoop_of_some hsome]
  simp

/-! ### The invariant -/

variable {ι : Type}

/-- The bytes in the page. -/
def Sys.buffered (s : Sys ι) : List Byte :=
  Ring.contents 4096 s.page (pipeTail s.inode) (pipeSize s.inode)

/-- The bytes moved are counted, and no place of the buffer kills. -/
structure Call.Sound {β : Type} (c : Call β) : Prop where
  moved : c.bytes.length = c.moved
  whole : ∀ o < c.moved + c.count, (c.buf o).isSome

def Place.Sound : Place ι → Prop
  | .reading c _ => c.Sound
  | .writing c _ => c.Sound
  | _ => True

/-- The value is the number of bytes moved; `-1` is for a call that moved
none. -/
def Result.Exact (r : Result) : Prop :=
  r.value = r.bytes.length ∨ r.value = -1 ∧ r.bytes = []

structure Sys.Fifo (s : Sys ι) : Prop where
  inPage : InPage s.inode
  order : s.accepted = s.taken ++ s.buffered
  results : ∀ r ∈ s.results, r.Exact
  places : ∀ p, (s.place p).Sound

theorem Call.Sound.advance {c : Call β} {bytes : List Byte} (h : c.Sound)
    (hlen : bytes.length = chars) (hle : chars ≤ c.count) : (c.advance chars bytes).Sound := by
  constructor
  · show (c.bytes ++ bytes).length = c.moved + chars
    rw [length_append, h.moved, hlen]
  · intro o ho
    apply h.whole
    have hlt : o < c.moved + chars + (c.count - chars) := ho
    omega

namespace Sys.Fifo

variable {c : Call Unit} {s : Sys ι} {me : ι}

/-- What neither moves a byte nor an index. -/
theorem congr {s' : Sys ι} (h : s.Fifo) (hzone : s'.inode.zone = s.inode.zone)
    (hpage : s'.page = s.page) (haccepted : s'.accepted = s.accepted) (htaken : s'.taken = s.taken)
    (hresults : ∀ r ∈ s'.results, r.Exact) (hplaces : ∀ p, (s'.place p).Sound) : s'.Fifo := by
  have hhead : pipeHead s'.inode = pipeHead s.inode := by rw [pipeHead, hzone, pipeHead]
  have htail : pipeTail s'.inode = pipeTail s.inode := by rw [pipeTail, hzone, pipeTail]
  have hsize : pipeSize s'.inode = pipeSize s.inode := by rw [pipeSize, hzone, pipeSize]
  refine ⟨⟨?_, ?_⟩, ?_, hresults, hplaces⟩
  · rw [hhead]
    exact h.inPage.head
  · rw [htail]
    exact h.inPage.tail
  · rw [haccepted, htaken, Sys.buffered, hpage, htail, hsize]
    exact h.order

/-! ### Rounds -/

/-- A round of a read takes the first bytes. -/
theorem readBytes_eq (hc : c.Sound) :
    s.readBytes c = Ring.contents 4096 s.page (pipeTail s.inode) (s.readChars c) := by
  have hcount : s.readChars c ≤ c.count := by
    unfold readChars
    omega
  have hend : pipeTail s.inode + s.readChars c ≤ 4096 ∨ s.readChars c = 0 := by
    unfold readChars
    omega
  have hcopy (o : ℕ) (ho : o < s.readChars c) :
      (c.buf (c.moved + o)).map (fun _ => s.page (pipeTail s.inode + o)) =
        some (s.page (pipeTail s.inode + o)) := by
    obtain ⟨u, hu⟩ := Option.isSome_iff_exists.mp (hc.whole (c.moved + o) (by omega))
    rw [hu, Option.map_some]
  rw [readBytes, copyLoop_of_some hcopy]
  rcases hend with hend | hzero
  · rw [Ring.contents_of_le hend]
  · rw [hzero]
    rfl

theorem takeChunk (h : s.Fifo) (hc : c.Sound) : (s.takeChunk c).Fifo := by
  have hsize : s.readChars c ≤ pipeSize s.inode := by
    unfold readChars
    omega
  obtain ⟨hpage, hrest⟩ := h.inPage.advance_tail hsize
  refine ⟨hpage, ?_, h.results, h.places⟩
  have hsplit : s.buffered = s.readBytes c ++ Ring.contents 4096 s.page
      (pipeTail s.inode + s.readChars c) (pipeSize s.inode - s.readChars c) := by
    rw [readBytes_eq hc, ← Ring.contents_add, Nat.add_sub_cancel' hsize]
    rfl
  have hnew : (s.takeChunk c).buffered = Ring.contents 4096 s.page
      (pipeTail s.inode + s.readChars c) (pipeSize s.inode - s.readChars c) := by
    show Ring.contents 4096 s.page (pipeTail (advance s.inode 1 (s.readChars c)))
      (pipeSize (advance s.inode 1 (s.readChars c))) = _
    rw [hrest, pipeTail_advance, Ring.contents_mod]
  calc s.accepted = s.taken ++ s.buffered := h.order
    _ = (s.taken ++ s.readBytes c) ++ (s.takeChunk c).buffered := by
      rw [hsplit, hnew, List.append_assoc]

theorem length_writeBytes {c : Call Byte} (hc : c.Sound) :
    (s.writeBytes c).length = s.writeChars c := by
  apply length_copyLoop_of_isSome
  intro o ho
  have hle : s.writeChars c ≤ c.count := by
    unfold writeChars
    omega
  exact hc.whole _ (by omega)

theorem acceptChunk (h : s.Fifo) {c : Call Byte} (hc : c.Sound) : (s.acceptChunk c).Fifo := by
  have hlen := length_writeBytes hc (s := s)
  have hroom : pipeSize s.inode + s.writeChars c ≤ 4095 := by
    have hle := pipeSize_le s.inode
    unfold writeChars
    omega
  have hend : pipeHead s.inode + s.writeChars c ≤ 4096 := by
    have hlt := h.inPage.head
    unfold writeChars
    omega
  obtain ⟨hpage, hsize⟩ := h.inPage.advance_head hroom
  refine ⟨hpage, ?_, h.results, h.places⟩
  have hnew : (s.acceptChunk c).buffered = s.buffered ++ s.writeBytes c := by
    show Ring.contents 4096 (Ring.store s.page (pipeHead s.inode) (s.writeBytes c))
      (pipeTail s.inode) (pipeSize (advance s.inode 0 (s.writeChars c))) = _
    rw [hsize, ← hlen]
    exact Ring.contents_store h.inPage.tail_add_size (by omega) (by omega)
  calc s.accepted ++ s.writeBytes c = s.taken ++ s.buffered ++ s.writeBytes c := by rw [h.order]
    _ = s.taken ++ (s.acceptChunk c).buffered := by rw [hnew, List.append_assoc]

/-! ### Operations -/

variable [DecidableEq ι]

theorem wake (h : s.Fifo) (tmp : Option ι) : (s.wake tmp).Fifo :=
  h.congr rfl rfl rfl rfl h.results h.places

theorem wakeUp (h : s.Fifo) : s.wakeUp.Fifo := h.congr rfl rfl rfl rfl h.results h.places

theorem places_update (h : s.Fifo) {place : Place ι} (hp : place.Sound) (p : ι) :
    (update s.place me place p).Sound := by
  rcases eq_or_ne p me with rfl | hne
  · rwa [update_self]
  · rw [update_of_ne hne]
    exact h.places p

theorem ret (h : s.Fifo) {value : ℤ} {bytes : List Byte} (hr : Result.Exact ⟨value, bytes⟩) :
    (s.ret me value bytes).Fifo := by
  refine h.congr rfl rfl rfl rfl ?_ ?_
  · intro r hmem
    rcases mem_append.mp hmem with hmem | hmem
    · exact h.results r hmem
    · rw [mem_singleton.mp hmem]
      exact hr
  · exact h.places_update trivial

theorem sleepOn (h : s.Fifo) {place : Option ι → Place ι} (hp : (place s.wait).Sound) :
    (s.sleepOn me place).Fifo :=
  h.congr rfl rfl rfl rfl h.results (h.places_update hp)

theorem iput (h : s.Fifo) : s.iput.Fifo := by
  unfold Sys.iput
  dsimp only
  split
  · exact h.congr rfl rfl rfl rfl h.results h.places
  · exact h.congr rfl rfl rfl rfl h.results h.places

theorem close (h : s.Fifo) (e : End) : (s.close me e).Fifo := by
  have hheld (holders : End → Finset ι) : ({ s with holders := holders } : Sys ι).Fifo :=
    h.congr rfl rfl rfl rfl h.results h.places
  unfold Sys.close
  dsimp only
  split
  · split
    · exact (hheld _).iput
    · exact hheld _
  · exact h

theorem exit (h : s.Fifo) : (s.exit me).Fifo := by
  have hclosed : ((s.close me .reads).close me .writes).Fifo := (h.close .reads).close .writes
  exact hclosed.congr rfl rfl rfl rfl hclosed.results (hclosed.places_update trivial)

theorem fork (h : s.Fifo) (child : ι) : (s.fork me child).Fifo :=
  h.congr rfl rfl rfl rfl h.results (h.places_update trivial)

theorem readPipe (h : s.Fifo) (hc : c.Sound) (fuel : ℕ) : (s.readPipe me fuel c).Fifo := by
  -- the rounds: each keeps the invariant and goes on with a sound call
  induction fuel generalizing s c with
  | zero => exact h.wakeUp.ret (Or.inl (by rw [hc.moved]))
  | succ fuel ih =>
    have hret : (s.wakeUp.ret me c.moved c.bytes).Fifo := h.wakeUp.ret (Or.inl (by rw [hc.moved]))
    have hlen : (s.readBytes c).length = s.readChars c := by
      rw [readBytes_eq hc, Ring.length_contents]
    have hle : s.readChars c ≤ c.count := by
      unfold readChars
      omega
    unfold Sys.readPipe
    split
    · exact hret
    split
    · split
      · exact hret
      · exact h.wakeUp.sleepOn hc
    split
    · omega
    · exact ih (h.takeChunk hc) (hc.advance hlen hle)

theorem writePipe (h : s.Fifo) {c : Call Byte} (hc : c.Sound) (fuel : ℕ) :
    (s.writePipe me fuel c).Fifo := by
  induction fuel generalizing s c with
  | zero => exact h.wakeUp.ret (Or.inl (by rw [hc.moved]))
  | succ fuel ih =>
    have hret : (s.wakeUp.ret me c.moved c.bytes).Fifo := h.wakeUp.ret (Or.inl (by rw [hc.moved]))
    have hle : s.writeChars c ≤ c.count := by
      unfold writeChars
      omega
    have hlen := length_writeBytes hc (s := s)
    unfold Sys.writePipe
    split
    · exact hret
    split
    · split
      · have hsignal (signal : ι → Word) : ({ s.wakeUp with signal := signal } : Sys ι).Fifo :=
          h.wakeUp.congr rfl rfl rfl rfl h.results h.places
        apply (hsignal _).ret
        split
        · exact Or.inr ⟨rfl, length_eq_zero_iff.mp (by rw [hc.moved]; assumption)⟩
        · exact Or.inl (by rw [hc.moved])
      · exact h.wakeUp.sleepOn hc
    split
    · omega
    · exact ih (h.acceptChunk hc) (hc.advance hlen hle)

end Sys.Fifo

/-! ### Runs -/

/-- A pipe of `sys_pipe`: empty, with nobody in a call. -/
structure Sys.Fresh (s : Sys ι) : Prop where
  head : s.inode.zone 0 = 0
  tail : s.inode.zone 1 = 0
  accepted : s.accepted = []
  taken : s.taken = []
  results : s.results = []
  places : ∀ p, (s.place p).isUser ∨ (s.place p).isDead

theorem Sys.Fresh.fifo {s : Sys ι} (h : s.Fresh) : s.Fifo := by
  have hhead : pipeHead s.inode = 0 := by rw [pipeHead, h.head]; rfl
  have htail : pipeTail s.inode = 0 := by rw [pipeTail, h.tail]; rfl
  have hsize : pipeSize s.inode = 0 := by rw [pipeSize_eq, hhead, htail]; rfl
  refine ⟨⟨by omega, by omega⟩, ?_, ?_, ?_⟩
  · rw [h.accepted, h.taken, buffered, hsize]
    rfl
  · intro r hr
    rw [h.results] at hr
    cases hr
  · intro p
    rcases hp : s.place p with _ | ⟨c, tmp⟩ | ⟨c, tmp⟩ | _
    · trivial
    · simpa [hp, Place.isUser, Place.isDead] using h.places p
    · simpa [hp, Place.isUser, Place.isDead] using h.places p
    · trivial

variable [DecidableEq ι]

/-- No place of the buffer of a call kills. -/
def Event.NoFault : Event ι → Prop
  | .read _ count buf => ∀ o < count, (buf o).isSome
  | .write _ count buf => ∀ o < count, (buf o).isSome
  | _ => True

theorem Call.sound_start {count : ℕ} {buf : ℕ → Option β} (h : ∀ o < count, (buf o).isSome) :
    (start count buf).Sound :=
  ⟨rfl, fun o ho => h o (by simpa [start] using ho)⟩

theorem Sys.Fifo.step {s : Sys ι} (h : s.Fifo) {ev : Event ι} (hev : ev.NoFault) :
    (s.step ev).Fifo := by
  cases ev with
  | read me count buf => exact h.readPipe (Call.sound_start hev) count
  | write me count buf => exact h.writePipe (Call.sound_start hev) count
  | resume me =>
    have hplace := h.places me
    show (s.resume me).Fifo
    unfold resume
    rcases hp : s.place me with _ | ⟨c, tmp⟩ | ⟨c, tmp⟩ | _
    · exact h
    · rw [hp] at hplace
      exact (h.wake tmp).readPipe hplace c.count
    · rw [hp] at hplace
      exact (h.wake tmp).writePipe hplace c.count
    · exact h
  | close me e => exact h.close e
  | exit me => exact h.exit
  | fork me child => exact h.fork child

theorem Sys.Fresh.fifo_of_reach {s₀ s : Sys ι} (h₀ : s₀.Fresh)
    (h : Sys.Reach Event.NoFault s₀ s) : s.Fifo := by
  induction h with
  | start => exact h₀.fifo
  | step ev _ _ hev ih => exact ih.step hev

/-- What is taken from a pipe is what was put in, in order, whoever reads and
writes and wherever they sleep. -/
theorem pipe_order {s₀ s : Sys ι} (h₀ : s₀.Fresh) (h : Sys.Reach Event.NoFault s₀ s) :
    s.taken <+: s.accepted ∧ s.accepted = s.taken ++ s.buffered ∧ s.buffered.length ≤ 4095 ∧
      ∀ r ∈ s.results, r.value = r.bytes.length ∨ r.value = -1 ∧ r.bytes = [] := by
  have hfifo := h₀.fifo_of_reach h
  refine ⟨⟨s.buffered, hfifo.order.symm⟩, hfifo.order, ?_, hfifo.results⟩
  rw [Sys.buffered, Ring.length_contents]
  exact pipeSize_le s.inode

/-- A new pipe; process 0 reads, process 1 writes. -/
def newPipe : Sys (Fin 2) where
  inode := { MInode.cleared with count := 2, pipe := true }
  page o := .ofNat 8 o
  wait := none
  asleep _ := false
  signal _ := 0
  holders
    | .reads => {0}
    | .writes => {1}
  place _ := .user
  accepted := []
  taken := []
  results := []

theorem newPipe_fresh : newPipe.Fresh :=
  ⟨rfl, rfl, rfl, rfl, rfl, fun _ => Or.inl rfl⟩

/-- Two bytes are written and read. -/
theorem pipe_order_two : newPipe.Fresh ∧ ∃ s, Sys.Reach Event.NoFault newPipe s ∧ s.taken = [7, 7] ∧
      s.taken <+: s.accepted := by
  have hw : newPipe.Enabled (.write 1 2 fun _ => some 7) := by decide
  have hr : (newPipe.step (.write 1 2 fun _ => some 7)).Enabled (.read 0 5 fun _ => some ()) := by
    decide
  have hwrite : Sys.Reach Event.NoFault newPipe _ := .step _ .start hw fun _ _ => rfl
  have hreach : Sys.Reach Event.NoFault newPipe _ := .step _ hwrite hr fun _ _ => rfl
  exact ⟨newPipe_fresh, _, hreach, by decide, (pipe_order newPipe_fresh hreach).1⟩

/-- A writer that dies of its first byte has moved the head: the reader takes
what was in the page. -/
theorem pipe_order_fails :
    newPipe.Fresh ∧ ∃ s, Sys.Reach (fun _ => True) newPipe s ∧ s.accepted = [] ∧
      s.taken = [0, 1, 2] ∧ ¬ s.taken <+: s.accepted := by
  have hw : newPipe.Enabled (.write 1 3 fun _ => none) := by decide
  have hr : (newPipe.step (.write 1 3 fun _ => none)).Enabled (.read 0 3 fun _ => some ()) := by
    decide
  have hwrite : Sys.Reach (fun _ => True) newPipe _ := .step _ .start hw trivial
  have hreach : Sys.Reach (fun _ => True) newPipe _ := .step _ hwrite hr trivial
  exact ⟨newPipe_fresh, _, hreach, by decide, by decide, by decide⟩

end LinuxRv.Pipe
