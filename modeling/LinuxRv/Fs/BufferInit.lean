import LinuxRv.Lib.ByteMemory

/-!
How `buffer_init` (`fs/buffer.c`) divides the buffer memory.

The heads of the buffers grow upward from `start_buffer` and their blocks
downward from `buffer_end`, until the next block would reach the next head.
-/

namespace LinuxRv.Fs.BufferInit

open ByteMemory Function BitVec Nat

/-- `struct buffer_head`, with its pointers. -/
structure Head where
  data : Word
  blocknr : Word
  dev : BitVec 16
  uptodate : Byte
  dirt : Byte
  count : Byte
  lock : Byte
  wait : Word
  prev : Word
  next : Word
  prevFree : Word
  nextFree : Word

/-- `sizeof(struct buffer_head)` -/
def headSize : Word := 36

structure State where
  head : Word → Head
  h : Word
  b : Word
  nrBuffers : ℕ
  freeList : Word
  hashTable : Fin 307 → Word

/-- A round of the loop that makes a buffer of the block at `b`. -/
def State.add (s : State) (b : Word) : State :=
  { s with
    head := update s.head s.h { s.head s.h with
      dev := 0, dirt := 0, count := 0, lock := 0, uptodate := 0, wait := 0, next := 0, prev := 0
      data := b, prevFree := s.h - headSize, nextFree := s.h + headSize }
    h := s.h + headSize
    nrBuffers := s.nrBuffers + 1
    b := if b = 0x100000 then 0xa0000 else b }

/-- `while ((b -= BLOCK_SIZE) >= (void *) (h+1))` -/
def initLoop : ℕ → State → Option State
  | 0, _ => none
  | fuel + 1, s =>
    if s.h + headSize ≤ s.b - 1024 then initLoop fuel (s.add (s.b - 1024))
    else some { s with b := s.b - 1024 }

/-- The ends of the free list are tied together. -/
def State.close (s : State) (startBuffer : Word) : State :=
  let h := s.h - headSize
  let head := update s.head startBuffer { s.head startBuffer with prevFree := h }
  { s with
    head := update head h { head h with nextFree := startBuffer }
    h := h, freeList := startBuffer, hashTable := fun _ => 0 }

def bufferInit (fuel : ℕ) (startBuffer bufferEnd : Word) (s : State) : Option State :=
  let b := if bufferEnd = 0x100000 then 0xa0000 else bufferEnd
  (initLoop fuel { s with h := startBuffer, b := b, nrBuffers := 0 }).map (·.close startBuffer)

/-- The head of buffer `i`. -/
def headAt (startBuffer : Word) (i : ℕ) : Word := startBuffer + .ofNat 32 (36 * i)

/-- `NR_BUFFERS` heads, each with its own block below `buffer_end` and above the
heads, in one cycle. -/
structure Laid (startBuffer bufferEnd : Word) (s : State) : Prop where
  free : s.freeList = startBuffer
  below : ∀ i < s.nrBuffers, (s.head (headAt startBuffer i)).data.toNat + 1024 ≤ bufferEnd.toNat
  above : ∀ i < s.nrBuffers, startBuffer.toNat + 36 * s.nrBuffers ≤
    (s.head (headAt startBuffer i)).data.toNat
  apart : ∀ i < s.nrBuffers, ∀ j < s.nrBuffers, i ≠ j →
    (s.head (headAt startBuffer i)).data.toNat + 1024 ≤ (s.head (headAt startBuffer j)).data.toNat ∨
    (s.head (headAt startBuffer j)).data.toNat + 1024 ≤ (s.head (headAt startBuffer i)).data.toNat
  next : ∀ i < s.nrBuffers, (s.head (headAt startBuffer i)).nextFree =
    headAt startBuffer ((i + 1) % s.nrBuffers)
  prev : ∀ i < s.nrBuffers, (s.head (headAt startBuffer ((i + 1) % s.nrBuffers))).prevFree =
    headAt startBuffer i

/-- How many buffers there is room for. -/
def fits (startBuffer bufferEnd : Word) : ℕ := (bufferEnd.toNat - startBuffer.toNat) / 1060

/-- The block of buffer `i`. -/
def blockAt (bufferEnd : Word) (i : ℕ) : Word := bufferEnd - .ofNat 32 (1024 * (i + 1))

section

variable {start e : Word} {s : State}

theorem headAt_succ (k : ℕ) : headAt start k + headSize = headAt start (k + 1) := by
  rw [headAt, headAt, Nat.mul_succ, ofNat_add, BitVec.add_assoc]
  rfl

theorem headAt_sub (k : ℕ) : headAt start (k + 1) - headSize = headAt start k := by
  rw [← headAt_succ, add_sub_cancel]

/-- After `k` rounds. -/
structure Rounds (start e : Word) (k : ℕ) (s : State) : Prop where
  h : s.h = headAt start k
  nrBuffers : s.nrBuffers = k
  head : ∀ i < k, (s.head (headAt start i)).data = blockAt e i ∧
    (s.head (headAt start i)).prevFree = headAt start i - headSize ∧
    (s.head (headAt start i)).nextFree = headAt start (i + 1)

variable (hle : start.toNat ≤ e.toNat) (hhole : 0x100000 ≤ start.toNat ∨ e.toNat ≤ 0xa0000)

section

variable {i k : ℕ}

include hle

theorem toNat_headAt (hi : i ≤ fits start e) : (headAt start i).toNat = start.toNat + 36 * i := by
  have := e.isLt
  unfold fits at hi
  rw [headAt, toNat_add, toNat_ofNat]
  omega

theorem toNat_blockAt (hi : i < fits start e) : (blockAt e i).toNat = e.toNat - 1024 * (i + 1) := by
  have := e.isLt
  unfold fits at hi
  rw [blockAt, toNat_sub, toNat_ofNat]
  omega

theorem headAt_inj {j : ℕ} (hi : i ≤ fits start e) (hj : j ≤ fits start e)
    (h : headAt start i = headAt start j) : i = j := by
  have := congrArg BitVec.toNat h
  rw [toNat_headAt hle hi, toNat_headAt hle hj] at this
  omega

include hhole in
theorem Rounds.add (h : Rounds start e k s) (hb : s.b - 1024 = blockAt e k)
    (hk : k < fits start e) : Rounds start e (k + 1) (s.add (s.b - 1024)) ∧
      (s.add (s.b - 1024)).b - 1024 = blockAt e (k + 1) := by
  have hblock := toNat_blockAt hle hk
  have hhigh : blockAt e k ≠ 0x100000 := fun heq => by
    rw [heq, show (0x100000 : Word).toNat = 0x100000 from rfl] at hblock
    unfold fits at hk
    omega
  refine ⟨⟨?_, congrArg (· + 1) h.nrBuffers, fun i hi => ?_⟩, ?_⟩
  · exact (congrArg (· + headSize) h.h).trans (headAt_succ k)
  · change (update s.head s.h _ _).data = _ ∧ (update s.head s.h _ _).prevFree = _ ∧
      (update s.head s.h _ _).nextFree = _
    rcases Nat.lt_succ_iff_lt_or_eq.mp hi with hi | rfl
    · have hne : headAt start i ≠ s.h := fun heq =>
        hi.ne (headAt_inj hle (hi.trans hk).le hk.le (heq.trans h.h))
      rw [update_of_ne hne]
      exact h.head i hi
    · rw [h.h, update_self]
      exact ⟨hb, rfl, headAt_succ i⟩
  · change (if s.b - 1024 = 0x100000 then _ else s.b - 1024) - 1024 = _
    rw [hb, if_neg hhigh, blockAt, blockAt, mul_succ _ (k + 1)]
    bv_omega

/-- There is room for another buffer. -/
theorem Rounds.room (h : Rounds start e k s) (hb : s.b - 1024 = blockAt e k)
    (hk : k < fits start e) : s.h + headSize ≤ s.b - 1024 := by
  rw [h.h, hb, headAt_succ, le_def, toNat_headAt hle hk, toNat_blockAt hle hk]
  unfold fits at hk
  omega

include hhole in
/-- As long as there is room, there is another round; then the loop ends. -/
theorem Rounds.initLoop {m : ℕ} (h : Rounds start e k s) (hb : s.b - 1024 = blockAt e k)
    (hm : k + m = fits start e) (htwo : 2 ≤ fits start e)
    (hend : 1024 * (fits start e + 1) ≤ e.toNat) :
    ∃ s', BufferInit.initLoop (m + 1) s = some s' ∧ Rounds start e (fits start e) s' := by
  induction m generalizing k s with
  | zero =>
    obtain rfl : k = fits start e := hm
    refine ⟨{ s with b := s.b - 1024 }, ?_, h.h, h.nrBuffers, h.head⟩
    have hlt := e.isLt
    have hroom : e.toNat - start.toNat < 1060 * (fits start e + 1) :=
      lt_mul_div_succ _ (by decide)
    have hused : 1060 * fits start e ≤ e.toNat - start.toNat := mul_div_le ..
    have hhead : (headAt start (fits start e + 1)).toNat =
        start.toNat + 36 * (fits start e + 1) := by
      rw [headAt, toNat_add, toNat_ofNat]
      omega
    have hblock : (blockAt e (fits start e)).toNat = e.toNat - 1024 * (fits start e + 1) := by
      rw [blockAt, toNat_sub, toNat_ofNat]
      omega
    rw [BufferInit.initLoop, if_neg]
    rw [h.h, hb, headAt_succ, le_def, hhead, hblock]
    omega
  | succ m ih =>
    have hk : k < fits start e := by omega
    obtain ⟨hadd, hb'⟩ := h.add hle hhole hb hk
    obtain ⟨s', hs', h'⟩ := ih hadd hb' (by omega)
    exact ⟨s', (if_pos (h.room hle hb hk)).trans hs', h'⟩

end

theorem State.data_close (a : Word) : ((s.close start).head a).data = (s.head a).data := by
  simp only [close, update_apply]
  split
  · rename_i ha
    rw [← ha]
    split <;> simp_all
  · split <;> simp_all

theorem State.nextFree_close (a : Word) : ((s.close start).head a).nextFree =
    if a = s.h - headSize then start else (s.head a).nextFree := by
  simp only [close, update_apply]
  split
  · rfl
  · split <;> simp_all

theorem State.prevFree_close (a : Word) : ((s.close start).head a).prevFree =
    if a = start then s.h - headSize else (s.head a).prevFree := by
  simp only [close, update_apply]
  split
  · rename_i ha
    rw [← ha]
    split <;> simp_all
  · split <;> simp_all

end

/-- If at least two buffers fit into the buffer memory, the hole from 640K to 1M
is not part of it, and one more block would not begin below address 0, then
`buffer_init` lays out as many buffers as fit. -/
theorem buffers_laid_out {start e : Word} (s : State) (hle : start.toNat ≤ e.toNat)
    (htwo : 2 ≤ fits start e) (hhole : 0x100000 ≤ start.toNat ∨ e.toNat ≤ 0xa0000)
    (hend : 1024 * (fits start e + 1) ≤ e.toNat) :
    ∃ s', bufferInit (fits start e + 1) start e s = some s' ∧ s'.nrBuffers = fits start e ∧
      Laid start e s' := by
  have hhigh : e ≠ 0x100000 := by
    rintro rfl
    have : (0x100000 : Word).toNat = 0x100000 := rfl
    unfold fits at htwo
    omega
  have hfirst : Rounds start e 0 { s with h := start, b := e, nrBuffers := 0 } :=
    ⟨(BitVec.add_zero start).symm, rfl, fun i hi => absurd hi i.not_lt_zero⟩
  obtain ⟨s', hs', h'⟩ := hfirst.initLoop hle hhole rfl (Nat.zero_add _) htwo hend
  refine ⟨s'.close start, ?_, h'.nrBuffers, ?_⟩
  · rw [bufferInit, if_neg hhigh, hs']
    rfl
  have hblock {i : ℕ} (hi : i < fits start e) := toNat_blockAt hle hi
  have hused : 1060 * fits start e ≤ e.toNat - start.toNat := mul_div_le ..
  obtain ⟨n, hn⟩ : ∃ n, fits start e = n + 1 := ⟨fits start e - 1, by omega⟩
  have hzero : headAt start 0 = start := BitVec.add_zero start
  have hinj {i j : ℕ} (hi : i < n + 1) (hj : j < n + 1) : headAt start i = headAt start j ↔ i = j :=
    ⟨headAt_inj hle (by omega) (by omega), fun h => h ▸ rfl⟩
  rw [hn] at h' hblock hused
  have hdata {i : ℕ} (hi : i < n + 1) : ((s'.close start).head (headAt start i)).data.toNat =
      e.toNat - 1024 * (i + 1) := by
    rw [State.data_close, (h'.head i hi).1, hblock hi]
  have hnr : (s'.close start).nrBuffers = n + 1 := h'.nrBuffers
  have hlast : s'.h - headSize = headAt start n := by rw [h'.h, headAt_sub]
  refine ⟨rfl, fun i hi => ?_, fun i hi => ?_, fun i hi j hj hij => ?_, fun i hi => ?_,
    fun i hi => ?_⟩
  all_goals rw [hnr] at *
  · rw [hdata hi]
    omega
  · rw [hdata hi]
    omega
  · rw [hdata hi, hdata hj]
    omega
  · rw [State.nextFree_close, hlast]
    by_cases hin : i = n
    · rw [hin, if_pos rfl, mod_self, hzero]
    · rw [if_neg ((hinj hi n.lt_succ_self).not.mpr hin), (h'.head i hi).2.2,
        mod_eq_of_lt (by omega)]
  · rw [State.prevFree_close, hlast]
    by_cases hin : i = n
    · rw [hin, mod_self, if_pos hzero]
    · have hnext : i + 1 < n + 1 := by omega
      have hne : headAt start (i + 1) ≠ start := fun heq =>
        i.succ_ne_zero ((hinj hnext n.succ_pos).mp (heq.trans hzero.symm))
      rw [mod_eq_of_lt hnext, if_neg hne, (h'.head _ hnext).2.1, headAt_sub]

/-- The kernel at 2G, with a megabyte for buffers. -/
theorem buffers_laid_out_megabyte : ∃ s s', bufferInit 990 0x80040000 0x80140000 s = some s' ∧
    s'.nrBuffers = 989 ∧ Laid 0x80040000 0x80140000 s' :=
  ⟨_, buffers_laid_out ⟨fun _ => ⟨0, 0, 0, 0, 0, 0, 0, 0, 0, 0, 0, 0⟩, 0, 0, 0, 0, fun _ => 0⟩
    (by decide) (by decide) (by decide) (by decide)⟩

theorem initLoop_add {fuel : ℕ} {s s' : State} (h : initLoop fuel s = some s')
    (hmore : s.h + headSize ≤ s.b - 1024) : ∃ f, initLoop f (s.add (s.b - 1024)) = some s' := by
  cases fuel with
  | zero => cases h
  | succ fuel =>
    rw [initLoop, if_pos hmore] at h
    exact ⟨fuel, h⟩

/-- Heads below `h` are not written any more. -/
theorem initLoop_keeps {fuel : ℕ} {s s' : State} {a : Word} (h : initLoop fuel s = some s')
    (ha : a.toNat < s.h.toNat) (hh : s.h.toNat + 36 < 2 ^ 32) (hb : s.b.toNat % 1024 ≤ 900) :
    s'.head a = s.head a ∧ s.nrBuffers ≤ s'.nrBuffers := by
  induction fuel generalizing s with
  | zero => cases h
  | succ fuel ih =>
    rw [initLoop] at h
    split at h
    · rename_i hmore
      have hnext : (s.h + headSize).toNat = s.h.toNat + 36 := by
        rw [toNat_add, show headSize.toNat = 36 from rfl]
        omega
      have hlow : (s.b - 1024).toNat % 1024 ≤ 900 := by
        rw [toNat_sub, show (1024 : Word).toNat = 1024 from rfl]
        omega
      rw [le_def, hnext] at hmore
      have hlt := (s.b - 1024).isLt
      obtain ⟨hhead, hnr⟩ := ih h (show a.toNat < (s.h + headSize).toNat by omega)
        (show (s.h + headSize).toNat + 36 < _ by omega) (by
          change (if s.b - 1024 = 0x100000 then 0xa0000 else s.b - 1024 : Word).toNat % 1024 ≤ 900
          split
          · decide
          · exact hlow)
      refine ⟨hhead.trans (update_of_ne (fun heq => ?_) ..), (le_succ _).trans hnr⟩
      rw [heq] at ha
      exact lt_irrefl _ ha
    · cases h
      exact ⟨rfl, le_rfl⟩

/-- Two buffers fit between 0 and 2500, and a third one gets a block at the end
of the address space. -/
theorem third_buffer_outside : 2 ≤ fits 0 2500 ∧ ∀ fuel s s',
    bufferInit fuel 0 2500 s = some s' → ¬ Laid 0 2500 s' := by
  refine ⟨by decide, fun fuel s s' hrun hlaid => ?_⟩
  have hle : (0 : Word).toNat ≤ (2500 : Word).toNat := by decide
  have hhole : 0x100000 ≤ (0 : Word).toNat ∨ (2500 : Word).toNat ≤ 0xa0000 := by decide
  rw [bufferInit, if_neg (by decide)] at hrun
  obtain ⟨s₁, hloop, rfl⟩ := Option.map_eq_some_iff.mp hrun
  have h₀ : Rounds 0 2500 0 { s with h := 0, b := 2500, nrBuffers := 0 } :=
    ⟨rfl, rfl, fun i hi => absurd hi i.not_lt_zero⟩
  obtain ⟨f, hloop⟩ := initLoop_add hloop (h₀.room hle rfl (by decide))
  obtain ⟨h₁, hb₁⟩ := h₀.add hle hhole rfl (by decide)
  obtain ⟨f, hloop⟩ := initLoop_add hloop (h₁.room hle hb₁ (by decide))
  obtain ⟨h₂, hb₂⟩ := h₁.add hle hhole hb₁ (by decide)
  generalize State.add _ _ = s₂ at hloop h₂ hb₂
  -- the block of the third buffer is below address 0
  obtain ⟨f, hloop⟩ := initLoop_add hloop (by rw [h₂.h, hb₂]; decide)
  have hkeeps := initLoop_keeps (a := 72) hloop
    (show _ < (s₂.h + headSize).toNat by rw [h₂.h]; decide)
    (show (s₂.h + headSize).toNat + 36 < _ by rw [h₂.h]; decide)
    (show (if s₂.b - 1024 = 0x100000 then _ else s₂.b - 1024 : Word).toNat % 1024 ≤ 900 by
      rw [hb₂]; decide)
  have hnr : 2 < s₁.nrBuffers := by
    refine lt_of_lt_of_le ?_ hkeeps.2
    change 2 < s₂.nrBuffers + 1
    rw [h₂.nrBuffers]
    decide
  have hbelow := hlaid.below 2 hnr
  rw [State.data_close, show headAt 0 2 = 72 from rfl, hkeeps.1] at hbelow
  have hdata : ((s₂.add (s₂.b - 1024)).head 72).data = blockAt 2500 2 :=
    (congrArg Head.data ((congrArg (update s₂.head · _ 72) h₂.h).trans (update_self ..))).trans hb₂
  rw [hdata] at hbelow
  exact absurd hbelow (by decide)

end LinuxRv.Fs.BufferInit
