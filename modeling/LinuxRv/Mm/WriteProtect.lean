import LinuxRv.Mm.Pages

/-!
What `un_wp_page` makes of an entry.

A write protected page is given back its `W` bit in one of two ways. The only
user of a frame keeps its entry and has the bit added. Everybody else gets a
copy of the frame, and an entry that is put together anew: `PTE_USER_RW`, which
says nothing about `X`.
-/

namespace LinuxRv.Mm

open ByteMemory Prog

/-- The permissions of an entry other than `W`. -/
def ptePerms : Word := pteR ||| pteX ||| pteU

/-- Entry `j` of the table `t` maps frame `n` and is valid and write protected.
Both the table and the page are in use, for whatever number of users. -/
structure Protected (s : State) (t : Word) (j n : ℕ) : Prop where
  table : ∃ m < pagingPages, t = frame m ∧ s.memMap m ≠ 0
  index : j < ptrsPerPage
  lt : n < pagingPages
  phys : ptePhys (word s.mem t j) = frame n
  used : s.memMap n ≠ 0
  ne : frame n ≠ t
  valid : word s.mem t j &&& pteV ≠ 0
  noW : word s.mem t j &&& pteW = 0

/-- The page is seen through the entry as before, with `W` and otherwise the same
permissions. -/
structure OnlyW (s : State) (t : Word) (j : ℕ) (s' : State) : Prop where
  bytes : ∀ o < 4096, s'.mem (ptePhys (word s'.mem t j) + .ofNat 32 o) =
    s.mem (ptePhys (word s.mem t j) + .ofNat 32 o)
  valid : word s'.mem t j &&& pteV ≠ 0
  writable : word s'.mem t j &&& pteW ≠ 0
  perms : word s'.mem t j &&& ptePerms = word s.mem t j &&& ptePerms

/-- Frame `m` is made the copy of frame `n` that entry `j` of `t` maps. -/
def State.copied (s : State) (t : Word) (j n m : ℕ) : State :=
  let μ := setWord (fillN 4096 s.mem (frame m) fun _ => 0) t j (physPpn (frame m) ||| pteUserRw)
  ((s.setCount m 1).setCount n (s.memMap n - 1)).setMem
    (fillN 4096 μ (frame m) fun o => μ (frame n + .ofNat 32 o))

section

variable {s : State} {t : Word} {j n : ℕ}

theorem Protected.isFrame (h : Protected s t j n) : IsFrame t := by
  obtain ⟨m, hm, rfl, -⟩ := h.table
  exact ⟨m, hm, rfl⟩

/-- The three ways of `un_wp_page`. -/
theorem Protected.wp_unWpPage (h : Protected s t j n) {Q : PUnit → State → Prop}
    {E : Halt → State → Prop}
    (hsole : s.memMap n = 1 → Q ⟨⟩ (s.setMem (setWord s.mem t j (word s.mem t j ||| pteW))))
    (hexit : s.memMap n ≠ 1 → (∀ m < pagingPages, s.memMap m ≠ 0) → E (.exit 11) s.exhaust)
    (hcopy : s.memMap n ≠ 1 → ∀ m < pagingPages, s.memMap m = 0 → Q ⟨⟩ (s.copied t j n m)) :
    wp (unWpPage t j) Q E s := by
  simp only [unWpPage, wp_bind, wp_readWord, wp_readCount, h.phys, mapNr_frame h.lt,
    ramBase_le_frame h.lt, true_and, if_true]
  by_cases hone : s.memMap n = 1
  · rw [if_pos hone, wp_writeWord]
    exact hsole hone
  · rw [if_neg hone, wp_bind]
    refine wp_getFreePage (fun hfull => ?_) fun m hm hzero => ?_
    · simpa using hexit hone hfull
    have hmn : n ≠ m := by
      rintro rfl
      exact h.used hzero
    simp only [frame_ne_zero hm, if_false, wp_bind, wp_readCount, wp_writeCount, wp_writeWord]
    refine (wp_copyPage ⟨n, h.lt, rfl⟩ ⟨m, hm, rfl⟩ fun heq => hmn (frame_inj h.lt hm heq)).imp ?_
    rintro _ _ rfl
    have hcount : Function.update s.memMap m 1 n = s.memMap n := Function.update_of_ne hmn _ _
    rw [memMap_setMem, memMap_setCount, hcount]
    exact hcopy hone m hm hzero

/-- The only user of a page. -/
theorem Protected.onlyW_sole (h : Protected s t j n) :
    OnlyW s t j (s.setMem (setWord s.mem t j (word s.mem t j ||| pteW))) := by
  have hword : word (setWord s.mem t j (word s.mem t j ||| pteW)) t j =
      word s.mem t j ||| pteW := by
    rw [word_setWord h.isFrame h.isFrame h.index h.index, if_pos ⟨rfl, rfl⟩]
  have hmask (mask : Word) (hm : pteW &&& mask = 0) :
      (word s.mem t j ||| pteW) &&& mask = word s.mem t j &&& mask := by
    rw [BitVec.and_or_distrib_right, hm]
    exact BitVec.or_zero
  refine ⟨fun o ho => ?_, ?_, ?_, ?_⟩
  · rw [mem_setMem, hword, ptePhys_or_w, h.phys]
    exact setWord_apply h.isFrame ⟨n, h.lt, rfl⟩ h.ne h.index ho
  · rw [mem_setMem, hword, hmask pteV rfl]
    exact h.valid
  · rw [mem_setMem, hword]
    exact or_w_and_w _
  · rw [mem_setMem, hword, hmask ptePerms rfl]

/-- The entry of a copy. -/
theorem Protected.word_copied (h : Protected s t j n) {m : ℕ} (hm : m < pagingPages)
    (hzero : s.memMap m = 0) :
    word (s.copied t j n m).mem t j = physPpn (frame m) ||| pteUserRw := by
  have hne : t ≠ frame m := by
    obtain ⟨k, hk, rfl, hused⟩ := h.table
    intro heq
    rw [frame_inj hk hm heq] at hused
    exact hused hzero
  change word (fillN 4096 _ (frame m) _) t j = _
  rw [word_fillN ⟨m, hm, rfl⟩ h.isFrame hne h.index,
    word_setWord h.isFrame h.isFrame h.index h.index, if_pos ⟨rfl, rfl⟩]

theorem Protected.bytes_copied (h : Protected s t j n) {m : ℕ} (hm : m < pagingPages)
    (hzero : s.memMap m = 0) {o : ℕ} (ho : o < 4096) :
    (s.copied t j n m).mem (frame m + .ofNat 32 o) = s.mem (frame n + .ofNat 32 o) := by
  have hnm : frame n ≠ frame m := by
    intro heq
    have hused := h.used
    rw [frame_inj h.lt hm heq] at hused
    exact hused hzero
  change fillN 4096 _ (frame m) _ (frame m + .ofNat 32 o) = _
  rw [fillN_apply_self ho, setWord_apply h.isFrame ⟨n, h.lt, rfl⟩ h.ne h.index ho,
    fillN_apply_ne ⟨m, hm, rfl⟩ ⟨n, h.lt, rfl⟩ hnm ho]

/-- A copy has the permissions of every copy. -/
theorem Protected.onlyW_copied_iff (h : Protected s t j n) {m : ℕ} (hm : m < pagingPages)
    (hzero : s.memMap m = 0) :
    OnlyW s t j (s.copied t j n m) ↔ word s.mem t j &&& ptePerms = pteR ||| pteU := by
  have hword := h.word_copied hm hzero
  have hmask (mask : Word) (hmask : mask &&& 0x3ffffc00 = 0) :
      (physPpn (frame m) ||| pteUserRw) &&& mask = pteUserRw &&& mask := physPpn_or_and hmask
  constructor
  · intro h'
    rw [← h'.perms, hword, hmask ptePerms rfl]
    rfl
  · intro hperms
    refine ⟨fun o ho => ?_, ?_, ?_, ?_⟩
    · rw [hword, ptePhys_frame hm (by decide), h.phys]
      exact h.bytes_copied hm hzero ho
    · rw [hword, hmask pteV rfl]
      decide
    · rw [hword, hmask pteW rfl]
      decide
    · rw [hword, hmask ptePerms rfl, hperms]
      rfl

/-- `un_wp_page` gives a page its `W` bit back and leaves the rest of what its
user may do alone, exactly if the page has no other user, there is no frame for
a copy (which ends the task), or the page is readable and not executable. -/
theorem un_wp_page_only_w_iff (h : Protected s t j n) :
    wp (unWpPage t j) (fun _ s' => OnlyW s t j s') (fun e _ => e = .exit 11) s ↔
      s.memMap n = 1 ∨ (∀ m < pagingPages, s.memMap m ≠ 0) ∨
        word s.mem t j &&& ptePerms = pteR ||| pteU := by
  constructor
  · intro hwp
    by_contra hno
    obtain ⟨hshared, hno⟩ := not_or.mp hno
    obtain ⟨hfree, hperms⟩ := not_or.mp hno
    have hcopy : wp (unWpPage t j) (fun _ s' => ¬ OnlyW s t j s') (fun _ _ => False) s :=
      h.wp_unWpPage (fun hsole => absurd hsole hshared) (fun _ hfull => absurd hfull hfree)
        fun _ m hm hzero honly => hperms ((h.onlyW_copied_iff hm hzero).mp honly)
    exact not_wp_false ((wp_and hcopy hwp).imp fun _ _ hboth => hboth.1 hboth.2)
  · intro hcases
    refine h.wp_unWpPage (fun _ => h.onlyW_sole) (fun _ _ => rfl) fun hshared m hm hzero => ?_
    rcases hcases with hsole | hfull | hperms
    · exact absurd hsole hshared
    · exact absurd hzero (hfull m hm)
    · exact (h.onlyW_copied_iff hm hzero).mpr hperms

end

/-! ### A page with code in it, after `fork` -/

/-- Frame 0 is a table, and its first entry maps frame 1 the way `copy_page_tables`
leaves an entry of `put_page`; `users` have it. -/
def codePage (users : Byte) : State where
  mem := setWord (fun _ => 0) (frame 0) 0 ((physPpn (frame 1) ||| pteUserRwx) &&& ~~~pteW)
  memMap m := if m = 0 then 1 else if m = 1 then users else 0
  exhausted := false

theorem word_codePage (users : Byte) : word (codePage users).mem (frame 0) 0 =
    (physPpn (frame 1) ||| pteUserRwx) &&& ~~~pteW := by
  have hframe : IsFrame (frame 0) := ⟨0, by decide, rfl⟩
  rw [codePage, word_setWord hframe hframe (by decide) (by decide), if_pos ⟨rfl, rfl⟩]

theorem codeEntry_and (mask : Word) (hmask : mask &&& 0x3ffffc00 = 0) :
    ((physPpn (frame 1) ||| pteUserRwx) &&& ~~~pteW) &&& mask =
      (pteUserRwx &&& mask) &&& ~~~pteW := by
  rw [BitVec.and_assoc, BitVec.and_comm (~~~pteW), ← BitVec.and_assoc, physPpn_or_and hmask]

theorem protected_codePage {users : Byte} (h : users ≠ 0) :
    Protected (codePage users) (frame 0) 0 1 where
  table := ⟨0, by decide, rfl, by simp [codePage]⟩
  index := by decide
  lt := by decide
  phys := by
    rw [word_codePage, ptePhys_and_not_w]
    exact ptePhys_frame (by decide) (by decide)
  used := h
  ne := fun heq => absurd (frame_inj (by decide) (by decide) heq) (by decide)
  valid := by
    rw [word_codePage, codeEntry_and pteV rfl]
    decide
  noW := by
    rw [word_codePage]
    exact and_not_w_and_w _

/-- A process that writes into a page of code it has shared with another process
since `fork` cannot execute the page any more. -/
theorem shared_code_loses_x : word (codePage 2).mem (frame 0) 0 &&& pteX ≠ 0 ∧
    wp (unWpPage (frame 0) 0) (fun _ s' => word s'.mem (frame 0) 0 &&& pteX = 0)
      (fun _ _ => False) (codePage 2) := by
  have h : Protected (codePage 2) (frame 0) 0 1 := protected_codePage (by decide)
  constructor
  · rw [word_codePage, codeEntry_and pteX rfl]
    decide
  · refine h.wp_unWpPage (fun hsole => absurd hsole (by decide))
      (fun _ hfull => absurd rfl (hfull 2 (by decide))) fun _ m hm hzero => ?_
    rw [h.word_copied hm hzero, physPpn_or_and rfl]
    rfl

theorem sole_code_keeps_x : Protected (codePage 1) (frame 0) 0 1 ∧
    wp (unWpPage (frame 0) 0) (fun _ s' => OnlyW (codePage 1) (frame 0) 0 s')
      (fun e _ => e = .exit 11) (codePage 1) :=
  have h : Protected (codePage 1) (frame 0) 0 1 := protected_codePage (by decide)
  ⟨h, (un_wp_page_only_w_iff h).mpr (.inl rfl)⟩

end LinuxRv.Mm
