import LinuxRv.Mm.Memory
import Mathlib.Tactic.IntervalCases

/-!
Page-table entries bit by bit, frames as windows of memory, and one
specification for each function that hands out, returns or fills a frame.

Two frames are the same or do not overlap, so a write inside one frame is
invisible in every other one; `word_setWord` and `word_fillN` are the two forms
in which the rest of the development uses that.
-/

namespace LinuxRv.Mm

open ByteMemory Prog BitVec

variable {e flags p q v : Word} {f : ℕ → Byte} {i j n o : ℕ} {μ : Mem}

/-! ### Page-table entries -/

theorem getLsbD_ptePhys (e : Word) (hi : i < 32) :
    (ptePhys e).getLsbD i = (decide (12 ≤ i) && e.getLsbD (i - 2)) := by
  unfold ptePhys
  interval_cases i <;> simp

theorem getLsbD_physPpn (p : Word) (hi : i < 32) :
    (physPpn p).getLsbD i = (decide (10 ≤ i) && p.getLsbD (i + 2)) := by
  unfold physPpn
  interval_cases i <;> simp

/-- Only bits 10 to 29 of an entry matter for the page it points to. -/
theorem ptePhys_congr {e' : Word} (h : ∀ i, 10 ≤ i → i < 30 → e.getLsbD i = e'.getLsbD i) :
    ptePhys e = ptePhys e' := by
  apply eq_of_getLsbD_eq
  intro i hi
  rw [getLsbD_ptePhys e hi, getLsbD_ptePhys e' hi]
  by_cases h12 : 12 ≤ i
  · rw [h (i - 2) (by omega) (by omega)]
  · simp [h12]

theorem getLsbD_flags (hf : flags.toNat < 1024) (hi : 10 ≤ i) : flags.getLsbD i = false :=
  Nat.testBit_lt_two_pow (lt_of_lt_of_le hf (Nat.pow_le_pow_right (n := 2) (by decide) hi))

/-- Outside the page number an entry is the flags it was made with. -/
theorem physPpn_or_and {mask : Word} (hmask : mask &&& 0x3ffffc00 = 0) :
    (physPpn p ||| flags) &&& mask = flags &&& mask := by
  apply eq_of_getLsbD_eq
  intro i hi
  rw [getLsbD_and, getLsbD_and, getLsbD_or, getLsbD_physPpn p hi]
  by_cases hppn : 10 ≤ i ∧ i < 30
  · have hbit := congrArg (fun m : Word => m.getLsbD i) hmask
    have hone : (0x3ffffc00 : Word).getLsbD i = true := by
      obtain ⟨h1, h2⟩ := hppn
      interval_cases i <;> rfl
    simp only [getLsbD_and, hone, Bool.and_true] at hbit
    rw [hbit]
    simp
  · by_cases h10 : 10 ≤ i
    · rw [getLsbD_of_ge p (i + 2) (by omega)]
      simp
    · simp [h10]

theorem ptePhys_and_not_w (e : Word) : ptePhys (e &&& ~~~pteW) = ptePhys e := by
  refine ptePhys_congr fun i h1 h2 => ?_
  have hw : pteW.getLsbD i = false := getLsbD_flags (by decide) h1
  simp [hw]
  omega

theorem ptePhys_or_w (e : Word) : ptePhys (e ||| pteW) = ptePhys e := by
  refine ptePhys_congr fun i h1 h2 => ?_
  have hw : pteW.getLsbD i = false := getLsbD_flags (by decide) h1
  simp [hw]

/-- The flags every user mapping has: valid, readable, user, accessed, dirty. -/
def pteUserBits : Word := pteV ||| pteR ||| pteU ||| pteA ||| pteD

/-- The two bits of a page number that lead beyond 32-bit addresses. -/
def pteHigh : Word := 0xc0000000

/-- The bits that are the same in all user mappings. -/
def pteUserMask : Word := pteHigh ||| pteUserBits

theorem and_not_w_userMask (e : Word) : (e &&& ~~~pteW) &&& pteUserMask = e &&& pteUserMask := by
  rw [BitVec.and_assoc]
  rfl

theorem or_w_userMask (e : Word) : (e ||| pteW) &&& pteUserMask = e &&& pteUserMask := by
  rw [and_or_distrib_right, show pteW &&& pteUserMask = 0#32 from rfl, or_zero]

/-- Reading some of the bits an entry has under a mask. -/
theorem and_of_and_mask {mask bits m : Word} (h : e &&& mask = bits) (hm : mask &&& m = m) :
    e &&& m = bits &&& m := by
  rw [← hm, ← BitVec.and_assoc, h, ← h, BitVec.and_assoc, BitVec.and_assoc, hm, hm]

theorem and_pteV_of_userMask (h : e &&& pteUserMask = pteUserBits) : e &&& pteV ≠ 0 := by
  rw [and_of_and_mask h rfl]
  decide

theorem and_not_w_and_w (e : Word) : (e &&& ~~~pteW) &&& pteW = 0 := by
  rw [BitVec.and_assoc]
  simp [pteW]

theorem or_w_and_w (e : Word) : (e ||| pteW) &&& pteW ≠ 0 := by
  have h : (e ||| pteW) &&& pteW = pteW := by
    apply eq_of_getLsbD_eq
    intro i hi
    simp only [getLsbD_and, getLsbD_or]
    cases e.getLsbD i <;> simp
  rw [h]
  decide

/-! ### Frames -/

/-- An address `get_free_page` can return. -/
def IsFrame (p : Word) : Prop := ∃ n < pagingPages, p = frame n

theorem toNat_ramBase : ramBase.toNat = 2 ^ 31 := rfl

theorem toNat_ramEnd : ramEnd.toNat = 2 ^ 31 + 4096 * pagingPages := rfl

theorem toNat_frame (hn : n < pagingPages) : (frame n).toNat = 2 ^ 31 + 4096 * n := by
  unfold pagingPages at hn
  simp only [frame, toNat_add, toNat_ofNat, toNat_ramBase]
  omega

theorem frame_inj {n' : ℕ} (hn : n < pagingPages) (hn' : n' < pagingPages)
    (h : frame n = frame n') : n = n' := by
  have := congrArg BitVec.toNat h
  rw [toNat_frame hn, toNat_frame hn'] at this
  omega

theorem mapNr_frame (hn : n < pagingPages) : mapNr (frame n) = n := by
  have hsub : (frame n - ramBase).toNat = 4096 * n := by
    unfold pagingPages at hn
    exact toNat_add_ofNat_sub_self ramBase (by omega)
  rw [mapNr, toNat_ushiftRight, hsub, Nat.shiftRight_eq_div_pow]
  omega

theorem ramBase_le_frame (hn : n < pagingPages) : ramBase ≤ frame n := by
  rw [le_def, toNat_frame hn, toNat_ramBase]
  omega

theorem frame_lt_ramEnd (hn : n < pagingPages) : frame n < ramEnd := by
  rw [lt_def, toNat_frame hn, toNat_ramEnd]
  omega

theorem frame_ne_zero (hn : n < pagingPages) : frame n ≠ 0 := by
  intro h
  have := congrArg BitVec.toNat h
  rw [toNat_frame hn] at this
  simp at this

theorem getLsbD_frame (hn : n < pagingPages) (hi : i < 12) : (frame n).getLsbD i = false := by
  rw [getLsbD, toNat_frame hn, show 2 ^ 31 + 4096 * n = 2 ^ 12 * (2 ^ 19 + n) by omega,
    Nat.testBit_two_pow_mul]
  simp
  omega

theorem ptePhys_frame (hn : n < pagingPages) (hf : flags.toNat < 1024) :
    ptePhys (physPpn (frame n) ||| flags) = frame n := by
  apply eq_of_getLsbD_eq
  intro i hi
  rw [getLsbD_ptePhys _ hi]
  by_cases h12 : 12 ≤ i
  · rw [getLsbD_or, getLsbD_flags hf (by omega), getLsbD_physPpn _ (by omega)]
    have h1 : 10 ≤ i - 2 := by omega
    have h2 : i - 2 + 2 = i := by omega
    simp [h12, h1, h2]
  · simp [h12, getLsbD_frame hn (by omega : i < 12)]

/-! ### Words and bytes of a frame -/

theorem frame_offset (n o : ℕ) : frame n + .ofNat 32 o = ramBase + .ofNat 32 (4096 * n + o) :=
  offset_add _ _ _

theorem word_setWord (hp : IsFrame p) (hq : IsFrame q)
    (hi : i < ptrsPerPage) (hj : j < ptrsPerPage) :
    word (setWord μ p i v) q j = if q = p ∧ j = i then v else word μ q j := by
  by_cases h : q = p ∧ j = i
  · obtain ⟨rfl, rfl⟩ := h
    simp [word, setWord]
  · obtain ⟨n, hn, rfl⟩ := hp
    obtain ⟨n', hn', rfl⟩ := hq
    have hne : n' ≠ n ∨ j ≠ i := by
      by_contra hc
      push Not at hc
      exact h ⟨by rw [hc.1], hc.2⟩
    unfold ptrsPerPage at hi hj
    unfold pagingPages at hn hn'
    rw [if_neg h, word, word, setWord, frame_offset, frame_offset]
    exact load32_store32_of_disjoint _ _ _ (by omega) (by omega) (by omega)

theorem word_fillN (hp : IsFrame p) (hq : IsFrame q) (hne : q ≠ p) (hj : j < ptrsPerPage) :
    word (fillN 4096 μ p f) q j = word μ q j := by
  obtain ⟨n, hn, rfl⟩ := hp
  obtain ⟨n', hn', rfl⟩ := hq
  have hne : n' ≠ n := fun h => hne (by rw [h])
  unfold ptrsPerPage at hj
  unfold pagingPages at hn hn'
  rw [word, word, frame_offset]
  have h := loadN_fillN_of_disjoint (n := 4096) (k := 4) μ ramBase (o := 4096 * n)
    (p := 4096 * n' + 4 * j) f (by omega) (by omega) (by omega)
  exact h

theorem word_fillN_zero (hj : j < ptrsPerPage) : word (fillN 4096 μ p fun _ => 0) p j = 0 := by
  unfold ptrsPerPage at hj
  have h : loadN 4 (fillN 4096 μ p fun _ => 0) (p + .ofNat 32 (4 * j)) =
      loadN 4 (fun _ => 0) (p + .ofNat 32 (4 * j)) := by
    refine loadN_congr fun k hk => ?_
    rw [offset_add]
    exact fillN_of_lt (by rw [toNat_add_ofNat_sub_self p (by omega)]; omega)
  exact h.trans (loadN_zero 4 _)

/-- A byte of another frame does not see a word store. -/
theorem setWord_apply (hp : IsFrame p) (hq : IsFrame q) (hne : q ≠ p) (hi : i < ptrsPerPage)
    (ho : o < 4096) : setWord μ p i v (q + .ofNat 32 o) = μ (q + .ofNat 32 o) := by
  obtain ⟨n, hn, rfl⟩ := hp
  obtain ⟨n', hn', rfl⟩ := hq
  have hne : n' ≠ n := fun h => hne (by rw [h])
  unfold ptrsPerPage at hi
  unfold pagingPages at hn hn'
  rw [setWord, frame_offset, frame_offset]
  exact storeN_of_le (n := 4) (le_toNat_offset_sub ramBase (by omega) (by omega) (by omega))

theorem fillN_apply_ne (hp : IsFrame p) (hq : IsFrame q) (hne : q ≠ p) (ho : o < 4096) :
    fillN 4096 μ p f (q + .ofNat 32 o) = μ (q + .ofNat 32 o) := by
  obtain ⟨n, hn, rfl⟩ := hp
  obtain ⟨n', hn', rfl⟩ := hq
  have hne : n' ≠ n := fun h => hne (by rw [h])
  unfold pagingPages at hn hn'
  rw [frame_offset]
  exact fillN_of_le (le_toNat_offset_sub ramBase (by omega) (by omega) (by omega))

theorem fillN_apply_self (ho : o < 4096) : fillN 4096 μ p f (p + .ofNat 32 o) = f o := by
  have h : (p + .ofNat 32 o - p).toNat = o := toNat_add_ofNat_sub_self p (by omega)
  rw [fillN_of_lt (by omega), h]

/-! ### Filling a frame -/

/-- One more word of a fill. -/
theorem setWord_fillN {k : ℕ} (hk : k < ptrsPerPage)
    (hv : ∀ i < 4, v.extractLsb' (8 * i) 8 = f (4 * k + i)) :
    setWord (fillN (4 * k) μ p f) p k v = fillN (4 * (k + 1)) μ p f := by
  unfold ptrsPerPage at hk
  funext b
  have hb := (b - p).isLt
  have hsub : (b - (p + .ofNat 32 (4 * k))).toNat = (2 ^ 32 - 4 * k + (b - p).toNat) % 2 ^ 32 := by
    have hp := p.isLt
    simp only [toNat_sub, toNat_add, toNat_ofNat]
    omega
  unfold setWord store32
  rcases Nat.lt_or_ge (b - p).toNat (4 * k) with hlt | hge
  · rw [storeN_of_le (n := 4) (by omega), fillN_of_lt hlt, fillN_of_lt (by omega)]
  · rcases Nat.lt_or_ge (b - p).toNat (4 * (k + 1)) with hlt' | hge'
    · have hd : (b - (p + .ofNat 32 (4 * k))).toNat = (b - p).toNat - 4 * k := by omega
      rw [storeN_of_lt (n := 4) (by omega), fillN_of_lt hlt', hd]
      refine (hv _ (by omega)).trans ?_
      congr 1
      omega
    · rw [storeN_of_le (n := 4) (by omega), fillN_of_le hge, fillN_of_le hge']

theorem fillN_zero_length (μ : Mem) (p : Word) (f : ℕ → Byte) : fillN 0 μ p f = μ := by
  funext b
  exact fillN_of_le (Nat.zero_le _)

section

variable {Q : PUnit → State → Prop} {n : ℕ} {E : Halt → State → Prop} {s : State}

@[simp] theorem wp_readWord {p : Word} {i : ℕ} {Q : Word → State → Prop} :
    wp (readWord p i) Q E s ↔ Q (word s.mem p i) s := by
  simp [readWord]

@[simp] theorem wp_writeWord {p v : Word} {i : ℕ} :
    wp (writeWord p i v) Q E s ↔ Q ⟨⟩ (s.setMem (setWord s.mem p i v)) := by
  simp [writeWord]

@[simp] theorem wp_readCount {Q : Byte → State → Prop} :
    wp (readCount n) Q E s ↔ Q (s.memMap n) s := by
  simp [readCount]

@[simp] theorem wp_writeCount {c : Byte} : wp (writeCount n c) Q E s ↔ Q ⟨⟩ (s.setCount n c) := by
  simp [writeCount]

@[simp] theorem mem_setMem (μ : Mem) : (s.setMem μ).mem = μ := rfl
@[simp] theorem memMap_setMem (μ : Mem) : (s.setMem μ).memMap = s.memMap := rfl
@[simp] theorem mem_setCount (n : ℕ) (c : Byte) : (s.setCount n c).mem = s.mem := rfl
@[simp] theorem memMap_setCount (n : ℕ) (c : Byte) :
    (s.setCount n c).memMap = Function.update s.memMap n c := rfl

theorem wp_zeroPage (p : Word) :
    wp (zeroPage p) (fun _ s' => s' = s.setMem (fillN 4096 s.mem p fun _ => 0)) E s := by
  refine (wp_forN (fun k s' => s' = s.setMem (fillN (4 * k) s.mem p fun _ => 0)) ?_ ?_).imp
    fun _ s' h => by simpa only [ptrsPerPage] using h
  · rintro k _ rfl
    rw [wp_writeWord, mem_setMem, setWord_fillN k.isLt fun i hi => by interval_cases i <;> rfl]
    rfl
  · rw [Nat.mul_zero, fillN_zero_length]
    rfl

/-- A page is copied byte for byte; source and destination are frames, so they
do not overlap. -/
theorem wp_copyPage {src dst : Word} (hsrc : IsFrame src) (hdst : IsFrame dst) (hne : src ≠ dst) :
    wp (copyPage src dst) (fun _ s' => s' = s.setMem
      (fillN 4096 s.mem dst fun o => s.mem (src + .ofNat 32 o))) E s := by
  refine (wp_forN (fun k s' => s' = s.setMem (fillN (4 * k) s.mem dst fun o => s.mem (src + .ofNat
    32 o))) ?_ ?_).imp fun _ s' h => by simpa only [ptrsPerPage] using h
  · rintro k _ rfl
    simp only [wp_bind, wp_readWord, wp_writeWord, mem_setMem]
    rw [setWord_fillN k.isLt]
    · rfl
    intro i hi
    have hk := k.isLt
    unfold ptrsPerPage at hk
    refine (extractLsb'_loadN (n := 4) _ _ hi).trans ?_
    rw [offset_add]
    obtain ⟨n, hn, rfl⟩ := hsrc
    obtain ⟨n', hn', rfl⟩ := hdst
    have hnn : n' ≠ n := fun h => hne (by rw [h])
    unfold pagingPages at hn hn'
    rw [frame_offset]
    exact fillN_of_le (le_toNat_offset_sub ramBase (by omega) (by omega) (by omega))
  · rw [Nat.mul_zero, fillN_zero_length]
    rfl

/-- `get_free_page` fails only when every frame is in use; otherwise it takes a
frame nobody uses, with one user, and clears it. -/
theorem wp_getFreePage {Q : Word → State → Prop}
    (hfail : (∀ n < pagingPages, s.memMap n ≠ 0) → Q 0 s.exhaust)
    (hok : ∀ n < pagingPages, s.memMap n = 0 →
      Q (frame n) ((s.setCount n 1).setMem (fillN 4096 s.mem (frame n) fun _ => 0))) :
    wp getFreePage Q E s := by
  simp only [getFreePage, wp_bind, wp_get]
  cases hfind : (List.range pagingPages).find? fun i => s.memMap i = 0 with
  | none =>
    rw [List.find?_eq_none] at hfind
    simp only [wp_bind, wp_modify, wp_pure]
    exact hfail fun n hn => by simpa using hfind n (by simpa using hn)
  | some n =>
    have hn : n < pagingPages := by simpa using List.mem_of_find?_eq_some hfind
    have hzero : s.memMap n = 0 := by simpa using List.find?_some hfind
    simp only [wp_bind, wp_writeCount, wp_pure]
    refine (wp_zeroPage (frame n)).imp ?_
    rintro _ _ rfl
    exact hok n hn hzero

/-- The page of a failed allocation. -/
theorem freePage_zero : freePage 0 = (pure ⟨⟩ : M PUnit) := if_pos (by decide)

theorem wp_freePage (hn : n < pagingPages) (hcount : s.memMap n ≠ 0)
    (hQ : Q ⟨⟩ (s.setCount n (s.memMap n - 1))) : wp (freePage (frame n)) Q E s := by
  have hlow : ¬ frame n < ramBase := BitVec.not_lt.mpr (ramBase_le_frame hn)
  have hhigh : ¬ ramEnd ≤ frame n := BitVec.not_le.mpr (frame_lt_ramEnd hn)
  have hcount' : ¬ s.memMap n = 0#8 := hcount
  simpa [freePage, hlow, hhigh, mapNr_frame hn, hcount'] using hQ

end

/-! ### Main memory -/

/-- The range `main` passes to `mem_init`. -/
structure MainMemory where
  startMem : Word
  endMem : Word
  ramBase_le : ramBase ≤ startMem
  start_le_end : startMem ≤ endMem
  end_le : endMem ≤ ramEnd

/-- Frame `n` belongs to main memory. -/
def MainMemory.Has (main : MainMemory) (n : ℕ) : Prop :=
  (main.startMem.toNat - 2 ^ 31) / 4096 ≤ n ∧ n < (main.startMem.toNat - 2 ^ 31) / 4096 +
      (main.endMem.toNat - main.startMem.toNat) / 4096

instance (main : MainMemory) (n : ℕ) : Decidable (main.Has n) :=
  inferInstanceAs (Decidable (_ ∧ _))

theorem MainMemory.Has.lt {main : MainMemory} (h : main.Has n) : n < pagingPages := by
  have h1 := le_def.mp main.ramBase_le
  have h2 := le_def.mp main.start_le_end
  have h3 := le_def.mp main.end_le
  rw [toNat_ramBase] at h1
  rw [toNat_ramEnd] at h3
  unfold pagingPages at *
  obtain ⟨-, h⟩ := h
  omega

/-- After `mem_init` exactly the frames of main memory are free. -/
theorem wp_memInit (main : MainMemory) {E : Halt → State → Prop} {s : State} :
    wp (memInit main.startMem main.endMem) (fun _ s' => s'.mem = s.mem ∧
      (∀ n, main.Has n → s'.memMap n = 0) ∧
      ∀ n < pagingPages, ¬ main.Has n → s'.memMap n = used) E s := by
  have h1 := le_def.mp main.ramBase_le
  have h2 := le_def.mp main.start_le_end
  have h3 := le_def.mp main.end_le
  rw [toNat_ramBase] at h1
  rw [toNat_ramEnd, pagingPages] at h3
  have hstart : ((main.startMem - ramBase) >>> 12).toNat =
      (main.startMem.toNat - 2 ^ 31) / 4096 := by
    rw [toNat_ushiftRight, toNat_sub_of_le main.ramBase_le, toNat_ramBase,
      Nat.shiftRight_eq_div_pow]
  have hlength : ((main.endMem - main.startMem).sshiftRight 12).toInt.toNat =
      (main.endMem.toNat - main.startMem.toNat) / 4096 := by
    rw [toInt_sshiftRight, toInt_eq_toNat_of_lt (by rw [toNat_sub_of_le main.start_le_end]; omega),
      toNat_sub_of_le main.start_le_end, Int.shiftRight_eq_div_pow]
    omega
  simp only [memInit, hstart, wp_bind]
  refine (wp_forN (fun k s' => s'.mem = s.mem ∧ ∀ n < k, s'.memMap n = used) ?_
    ⟨rfl, fun n hn => absurd hn (Nat.not_lt_zero n)⟩).imp ?_
  · rintro k s' ⟨hmem, hused⟩
    refine wp_writeCount.mpr ⟨hmem, fun n hn => ?_⟩
    by_cases hk : n = k
    · simp [hk]
    · simpa [hk] using hused n (by omega)
  rintro _ s₁ ⟨hmem₁, hused₁⟩
  refine (wp_forN (fun k s' => s'.mem = s.mem ∧ ∀ n < pagingPages, s'.memMap n =
    if (main.startMem.toNat - 2 ^ 31) / 4096 ≤ n ∧ n < (main.startMem.toNat - 2 ^ 31) / 4096 + k
    then 0 else used) ?_ ⟨hmem₁, fun n hn => ?_⟩).imp ?_
  · rintro k s' ⟨hmem, hcount⟩
    refine wp_writeCount.mpr ⟨hmem, fun n hn => ?_⟩
    by_cases hk : n = (main.startMem.toNat - 2 ^ 31) / 4096 + k
    · simp [hk]
    · simp only [memMap_setCount, Function.update_of_ne hk, hcount n hn]
      exact if_congr (by omega) rfl rfl
  · rw [hused₁ n hn, if_neg (by omega)]
  · rintro _ s₂ ⟨hmem₂, hcount₂⟩
    rw [hlength] at hcount₂
    refine ⟨hmem₂, fun n hn => ?_, fun n hn hnot => ?_⟩
    · rw [hcount₂ n hn.lt]
      exact if_pos hn
    · rw [hcount₂ n hn]
      exact if_neg hnot

end LinuxRv.Mm
