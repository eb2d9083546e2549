import LinuxRv.Mm.Isolation

/-!
User memory from the kernel (`include/asm/segment.h`, `translate_user`).

The kernel runs untranslated and reaches user memory by walking the page table
of the current task itself. `get_fs_*` and `put_fs_*` translate the address of
the first byte and then access physical memory, so an access of several bytes
is one of the task's virtual bytes exactly when these are physically
consecutive.
-/

namespace LinuxRv.Mm

open ByteMemory Prog Function Option
open BitVec hiding not_or add_sub_cancel

/-! ### The source -/

/-- `translate_user`, with -1 for an address that is not mapped. -/
def translateUser (μ : Mem) (pgdir addr : Word) : Word :=
  -- a kernel task uses physical addresses
  if pgdir = 0 then addr
  else if userLimit ≤ addr then -1
  else
    let dir := word μ pgdir (dirIndex addr)
    if dir &&& pteV = 0 then -1
    else
      let pte := word μ (ptePhys dir) (tableIndex addr)
      if pte &&& pteV = 0 ∨ pte &&& pteU = 0 then -1
      else ptePhys pte ||| (addr &&& 0xfff)

/-- `get_fs_byte`, `get_fs_word`, `get_fs_long` for `n` = 1, 2, 4;
`uaccess_fault` is a `do_exit(11)`. -/
def getFs (n : ℕ) (pgdir addr : Word) : M (BitVec (8 * n)) := do
  let s ← get
  let pa := translateUser s.mem pgdir addr
  if pa = -1 then
    throw (.exit 11)
  return loadN n s.mem pa

/-- `put_fs_byte`, `put_fs_word`, `put_fs_long`. -/
def putFs (n : ℕ) (val : BitVec (8 * n)) (pgdir addr : Word) : M PUnit := do
  let s ← get
  let pa := translateUser s.mem pgdir addr
  if pa = -1 then
    throw (.exit 11)
  set (s.setMem (storeN n s.mem pa val))

def getFsByte (pgdir addr : Word) : M Byte := getFs 1 pgdir addr
def getFsWord (pgdir addr : Word) : M (BitVec 16) := getFs 2 pgdir addr
def getFsLong (pgdir addr : Word) : M Word := getFs 4 pgdir addr
def putFsByte (val : Byte) (pgdir addr : Word) : M PUnit := putFs 1 val pgdir addr
def putFsWord (val : BitVec 16) (pgdir addr : Word) : M PUnit := putFs 2 val pgdir addr
def putFsLong (val : Word) (pgdir addr : Word) : M PUnit := putFs 4 val pgdir addr

section

variable {n : ℕ} {s : State} {pgdir a pa : Word} {E : Halt → State → Prop}

theorem wp_getFs {Q : BitVec (8 * n) → State → Prop} (h : translateUser s.mem pgdir a = pa)
    (hne : pa ≠ -1) : wp (getFs n pgdir a) Q E s ↔ Q (loadN n s.mem pa) s := by
  simp only [getFs, wp_bind, wp_get, h, hne, if_false, wp_pure]

theorem wp_putFs {v : BitVec (8 * n)} {Q : PUnit → State → Prop}
    (h : translateUser s.mem pgdir a = pa) (hne : pa ≠ -1) :
    wp (putFs n v pgdir a) Q E s ↔ Q ⟨⟩ (s.setMem (storeN n s.mem pa v)) := by
  simp only [putFs, wp_bind, wp_get, h, hne, if_false, wp_set]

end

/-! ### Translation -/

/-- The page and the offset in it do not overlap. -/
theorem ptePhys_or (e a : Word) :
    ptePhys e ||| (a &&& 0xfff) = ptePhys e + .ofNat 32 (pageOffset a) := by
  have hlow (i : ℕ) (hi : 12 ≤ i) : (0xfff : Word).getLsbD i = false :=
    Nat.testBit_lt_two_pow (lt_of_lt_of_le (by decide : (0xfff : Word).toNat < 2 ^ 12)
      (Nat.pow_le_pow_right (by decide) hi))
  have hdisj : ptePhys e &&& (a &&& 0xfff) = 0 := by
    apply eq_of_getLsbD_eq
    intro i hi
    rw [getLsbD_and, getLsbD_and, getLsbD_ptePhys e hi]
    by_cases h : 12 ≤ i
    · rw [hlow i h]
      simp
    · simp [h]
  rw [pageOffset, ofNat_toNat, setWidth_eq]
  exact (add_eq_or_of_and_eq_zero _ _ hdisj).symm

section

variable {main : MainMemory} {w : World} {i : Fin nrTasks} {d : Word}

/-- Where the byte at a virtual address of task `i` is. -/
def World.physAddr (w : World) (i : Fin nrTasks) (a : Word) : Option Word :=
  (w.leafAt i a).map fun e => ptePhys e + .ofNat 32 (pageOffset a)

theorem World.Inv.dataFrame_leafAt (hI : w.Inv main) {a e : Word} (h : w.leafAt i a = some e) :
    w.DataFrame (ptePhys e) := by
  unfold leafAt at h
  split at h
  · exact hI.dataFrame_leaf h
  · cases h

theorem World.Inv.physAddr_ne (hI : w.Inv main) {a pa : Word} (h : w.physAddr i a = some pa) :
    pa ≠ -1 := by
  obtain ⟨e, he, rfl⟩ := map_eq_some_iff.mp h
  unfold leafAt at he
  split at he
  · obtain ⟨n, hn, hphys⟩ := View.Inv.main_of_entry hI he
    have hlt := hn.lt
    have hoff := pageOffset_lt a
    rw [userLeaf, Ref.phys] at hphys
    intro heq
    have := congrArg BitVec.toNat heq
    rw [hphys, frame_offset, toNat_add, toNat_ofNat] at this
    simp only [pagingPages] at hlt
    simp [ramBase] at this
    omega
  · cases he

theorem World.Inv.translateUser_eq (hI : w.Inv main) (hd : w.pgdir i = some d) (a : Word) :
    translateUser w.mm.mem d a = (w.physAddr i a).getD (-1) := by
  obtain ⟨n, hn, hdn⟩ := hI.isFrame_dir hd
  have hd0 : d ≠ 0 := hdn ▸ frame_ne_zero hn
  rw [translateUser, physAddr, if_neg hd0]
  by_cases h : a < userLimit
  · have hleaf := leafAt_of_lt hd h
    rw [if_neg (BitVec.not_le.mpr h)]
    by_cases hv : word w.mm.mem d (dirIndex a) &&& pteV = 0
    · rw [hleaf, if_pos hv]
      simp [hv]
    rw [if_neg hv] at hleaf
    simp only [hv, if_false]
    cases he : entryAt w.mm.mem (ptePhys (word w.mm.mem d (dirIndex a))) (tableIndex a) with
    | none => simp [hleaf, he, entryAt_eq_none_iff.mp he]
    | some e =>
      obtain ⟨hword, hv'⟩ := entryAt_eq_some he
      have hU : e &&& pteU = pteU := and_of_and_mask (View.Inv.wellFormed hI _ _
        ((dif_pos h).symm.trans (hleaf.trans he))) rfl
      rw [hleaf, he, hword, hU, if_neg (not_or.mpr ⟨hv', by decide⟩), ptePhys_or]
      rfl
  · rw [if_pos (BitVec.not_lt.mp h), leafAt, dif_neg h]
    rfl

end

/-! ### Accesses of several bytes -/

/-- The memory holds the same page directories and tables. -/
def World.SameTables (w : World) (μ : Mem) : Prop :=
  ∀ r e, r.page = none → w.view.entry r = some e →
    ∀ j < ptrsPerPage, word μ (r.phys e) j = word w.mm.mem (r.phys e) j

/-- `get_fs` and `put_fs` of `n` bytes at `a` act on the task's virtual bytes,
whatever the user memory holds: the load returns the bytes the hart would load
at `a`, `a + 1`, .., and the store changes these and no other byte. -/
def ActsOnBytes (n : ℕ) (w : World) (d a : Word) : Prop :=
  ∀ μ, w.SameTables μ → ∀ pa : ℕ → Word, (∀ k < n, walk μ d .load (a + .ofNat 32 k) = .ok (pa k)) →
    wp (getFs n d a) (fun v s' => s' = w.mm.setMem μ ∧
        ∀ k < n, v.extractLsb' (8 * k) 8 = μ (pa k)) (fun _ _ => False) (w.mm.setMem μ) ∧
    ∀ v, wp (putFs n v d a) (fun _ s' => s'.memMap = w.mm.memMap ∧
        (∀ k < n, s'.mem (pa k) = v.extractLsb' (8 * k) 8) ∧
        ∀ x, (∀ k < n, x ≠ pa k) → s'.mem x = μ x) (fun _ _ => False) (w.mm.setMem μ)

/-- The bytes from `a` on are at consecutive physical addresses. -/
def Consecutive (n : ℕ) (μ : Mem) (d a : Word) : Prop :=
  ∀ k < n, translateUser μ d (a + .ofNat 32 k) = translateUser μ d a + .ofNat 32 k

instance (n : ℕ) (μ : Mem) (d a : Word) : Decidable (Consecutive n μ d a) := by
  unfold Consecutive
  infer_instance

section

variable {main : MainMemory} {w : World} {i : Fin nrTasks} {d a : Word} {μ : Mem}

theorem World.SameTables.view_eq (h : w.SameTables μ) : (w.setMm (w.mm.setMem μ)).view = w.view :=
  congrArg (fun g => View.mk g w.held w.mm.memMap)
    (entries_congr (w := w) fun r e hpage he j hj => h r e hpage he j hj)

theorem World.SameTables.inv (h : w.SameTables μ) (hI : w.Inv main) :
    (w.setMm (w.mm.setMem μ)).Inv main := by
  rw [World.Inv, h.view_eq]
  exact hI

theorem World.SameTables.upper (h : w.SameTables μ) (hupper : w.Upper) :
    (w.setMm (w.mm.setMem μ)).Upper := fun i d k hd hlow hk =>
  (h (.dir i) d rfl hd k hk).trans (hupper i d k hd hlow hk)

theorem World.SameTables.physAddr_eq (h : w.SameTables μ) (a : Word) :
    (w.setMm (w.mm.setMem μ)).physAddr i a = w.physAddr i a := by
  rw [physAddr, physAddr, leafAt, leafAt, h.view_eq]

theorem World.SameTables.translateUser_eq (h : w.SameTables μ) (hI : w.Inv main)
    (hd : w.pgdir i = some d) (a : Word) : translateUser μ d a = translateUser w.mm.mem d a := by
  rw [hI.translateUser_eq hd a, ← h.physAddr_eq a]
  exact (h.inv hI).translateUser_eq hd a

/-- The hart finds a byte where the kernel does. -/
theorem World.Inv.walk_load_eq (hI : w.Inv main) (hupper : w.Upper) (hd : w.pgdir i = some d)
    (a : Word) : walk w.mm.mem d .load a = match w.physAddr i a with
      | none => .error .page
      | some pa => .ok pa := by
  rw [hI.walk_eq hupper hd, physAddr]
  cases w.leafAt i a with
  | none => rfl
  | some e => simp

theorem World.Inv.physAddr_of_walk (hI : w.Inv main) (hupper : w.Upper) (hd : w.pgdir i = some d)
    {a pa : Word} (h : walk w.mm.mem d .load a = .ok pa) : w.physAddr i a = some pa := by
  rw [hI.walk_load_eq hupper hd] at h
  cases hp : w.physAddr i a with
  | none => rw [hp] at h; cases h
  | some pa' => rw [hp] at h; cases h; rfl

/-- A user page may hold anything. -/
theorem World.Inv.sameTables_fillN (hI : w.Inv main) {q : Word} (hq : w.DataFrame q) {off len : ℕ}
    (hfit : off + len ≤ 4096) (f : ℕ → Byte) :
    w.SameTables (fillN len w.mm.mem (q + .ofNat 32 off) f) := by
  intro r e hpage he j hj
  rw [fillN_within (n := 4096) (by decide) hfit]
  exact word_fillN (hI.isFrame_data hq) (isFrame hI he) (hq.2 r e hpage he) hj

theorem World.Inv.dataFrame_of_physAddr (hI : w.Inv main) {pa : Word}
    (h : w.physAddr i a = some pa) :
    ∃ q off, w.DataFrame q ∧ off < 4096 ∧ pa = q + .ofNat 32 off := by
  obtain ⟨e, he, rfl⟩ := map_eq_some_iff.mp h
  exact ⟨ptePhys e, pageOffset a, hI.dataFrame_leafAt he, pageOffset_lt a, rfl⟩

variable {n : ℕ}

theorem actsOnBytes_of_consecutive (hI : w.Inv main) (hupper : w.Upper) (hd : w.pgdir i = some d)
    (hn : 0 < n) (hlen : n ≤ 2 ^ 32) (h : Consecutive n w.mm.mem d a) : ActsOnBytes n w d a := by
  intro μ hμ pa hpa
  have hphys (k : ℕ) (hk : k < n) : w.physAddr i (a + .ofNat 32 k) = some (pa k) := by
    rw [← hμ.physAddr_eq]
    exact (hμ.inv hI).physAddr_of_walk (hμ.upper hupper) hd (hpa k hk)
  have hadd : a + .ofNat 32 0 = a := add_zero a
  have htr : translateUser μ d a = pa 0 := by
    have hphys₀ := hphys 0 hn
    rw [hadd] at hphys₀
    rw [hμ.translateUser_eq hI hd, hI.translateUser_eq hd, hphys₀, getD_some]
  have hcons (k : ℕ) (hk : k < n) : pa k = pa 0 + .ofNat 32 k := by
    have hk' := h k hk
    rw [← hμ.translateUser_eq hI hd a, htr, hI.translateUser_eq hd, hphys k hk] at hk'
    exact hk'
  have hne : pa 0 ≠ -1 := hI.physAddr_ne (hphys 0 hn)
  refine ⟨?_, fun v => ?_⟩
  · rw [wp_getFs (s := w.mm.setMem μ) htr hne]
    refine ⟨rfl, fun k hk => ?_⟩
    rw [hcons k hk]
    exact extractLsb'_loadN μ (pa 0) hk
  · rw [wp_putFs (s := w.mm.setMem μ) htr hne]
    refine ⟨rfl, fun k hk => ?_, fun x hx => ?_⟩
    · have hself := toNat_add_ofNat_sub_self (pa 0) (lt_of_lt_of_le hk hlen)
      change storeN n μ (pa 0) v (pa k) = _
      rw [hcons k hk, storeN_of_lt (by rw [hself]; exact hk), hself]
    · refine storeN_of_le (not_lt.mp fun hlt => hx _ hlt ?_)
      rw [hcons _ hlt, ofNat_toNat, setWidth_eq]
      exact (add_sub_cancel (pa 0) x).symm

/-- A byte that is not where the first one's page puts it can hold something
else than what is read there. -/
theorem consecutive_of_actsOnBytes (hI : w.Inv main) (hupper : w.Upper) (hd : w.pgdir i = some d)
    (hn : 0 < n) (hmapped : ∀ k < n, (w.physAddr i (a + .ofNat 32 k)).isSome)
    (h : ActsOnBytes n w d a) : Consecutive n w.mm.mem d a := by
  intro k hk
  obtain ⟨p, hp⟩ := isSome_iff_exists.mp (hmapped 0 hn)
  obtain ⟨q, hq⟩ := isSome_iff_exists.mp (hmapped k hk)
  rw [show a + .ofNat 32 0 = a from add_zero a] at hp
  rw [hI.translateUser_eq hd, hI.translateUser_eq hd, hp, hq, getD_some, getD_some]
  by_contra hne
  obtain ⟨f, off, hf, hoff, hqf⟩ := hI.dataFrame_of_physAddr hq
  -- put another byte at `q` and load
  have hfit : off + 1 ≤ 4096 := hoff
  have hμ := hI.sameTables_fillN hf hfit fun _ => w.mm.mem (p + .ofNat 32 k) + 1
  rw [← hqf] at hμ
  set μ := fillN 1 w.mm.mem q fun _ => w.mm.mem (p + .ofNat 32 k) + 1
  have hwalk (j : ℕ) (hj : j < n) : walk μ d .load (a + .ofNat 32 j) =
      .ok ((w.physAddr i (a + .ofNat 32 j)).getD 0) := by
    obtain ⟨pa, hpa⟩ := isSome_iff_exists.mp (hmapped j hj)
    refine ((hμ.inv hI).walk_load_eq (hμ.upper hupper) hd _).trans ?_
    rw [hμ.physAddr_eq, hpa]
    rfl
  have hload := (h μ hμ _ hwalk).1
  have htr : translateUser μ d a = p := by
    rw [hμ.translateUser_eq hI hd, hI.translateUser_eq hd, hp, getD_some]
  rw [wp_getFs (s := w.mm.setMem μ) htr (hI.physAddr_ne hp)] at hload
  have hbyte := hload.2 k hk
  have hread : (loadN n μ p).extractLsb' (8 * k) 8 = μ (p + .ofNat 32 k) :=
    extractLsb'_loadN μ p hk
  change (loadN n μ p).extractLsb' (8 * k) 8 = μ ((w.physAddr i (a + .ofNat 32 k)).getD 0) at hbyte
  have hnew : μ q = w.mm.mem (p + .ofNat 32 k) + 1 := fillN_of_lt (by simp)
  have hold : μ (p + .ofNat 32 k) = w.mm.mem (p + .ofNat 32 k) := by
    refine fillN_of_le (Nat.one_le_iff_ne_zero.mpr fun h0 => hne ?_)
    have hzero : p + .ofNat 32 k - q = 0 := eq_of_toNat_eq h0
    exact (sub_eq_zero.mp hzero).symm
  rw [hread, hq, getD_some, hnew, hold] at hbyte
  exact absurd hbyte (by simp)

/-- For every address space and every address at which all the bytes are mapped:
`get_fs_long` and `put_fs_long` (and likewise the word accesses) act on the
task's virtual bytes if and only if these are physically consecutive, which a
page boundary between them breaks. -/
theorem user_access_acts_on_bytes_iff (hI : w.Inv main) (hupper : w.Upper)
    (hd : w.pgdir i = some d) :
    ((∀ k < 4, (w.physAddr i (a + .ofNat 32 k)).isSome) →
      (ActsOnBytes 4 w d a ↔ Consecutive 4 w.mm.mem d a)) ∧
    ((∀ k < 2, (w.physAddr i (a + .ofNat 32 k)).isSome) →
      (ActsOnBytes 2 w d a ↔ Consecutive 2 w.mm.mem d a)) :=
  ⟨fun hmapped => ⟨consecutive_of_actsOnBytes hI hupper hd (by decide) hmapped,
    actsOnBytes_of_consecutive hI hupper hd (by decide) (by decide)⟩,
  fun hmapped => ⟨consecutive_of_actsOnBytes hI hupper hd (by decide) hmapped,
    actsOnBytes_of_consecutive hI hupper hd (by decide) (by decide)⟩⟩

end

/-! ### A page boundary -/

/-- Task 0 with its pages 0 and 1 in frames that are not adjacent. -/
structure TwoPages (w : World) : Prop where
  inv : w.Inv mainFrom4M
  upper : w.Upper
  dir : w.pgdir 0 = some (frame 1024)
  page₀ : ∀ a : Word, a < 0x1000 → w.physAddr 0 a = some (frame 1026 + .ofNat 32 (pageOffset a))
  page₁ : ∀ a : Word, 0x1000 ≤ a → a < 0x2000 →
    w.physAddr 0 a = some (frame 1028 + .ofNat 32 (pageOffset a))
  free : w.mm.memMap 1027 = 0

theorem physAddr_of_entry {w : World} {i : Fin nrTasks} {n k : ℕ} {a : Word}
    (hk : k < ptrsPerPage) (hn : n < pagingPages)
    (he : w.view.entry (.leaf i 0 ⟨k, hk⟩) = some (physPpn (frame n) ||| pteUserRwx))
    (hlo : 4096 * k ≤ a.toNat) (hhi : a.toNat < 4096 * (k + 1)) :
    w.physAddr i a = some (frame n + .ofNat 32 (pageOffset a)) := by
  have hk' : k < 1024 := hk
  have h : a < userLimit := by
    rw [lt_def, show userLimit.toNat = 2 ^ 31 from rfl]
    omega
  have hnr : pageNr a h = (0, ⟨k, hk⟩) := by
    refine Prod.ext (Fin.ext ?_) (Fin.ext ?_)
    · change (a >>> 22).toNat = 0
      rw [toNat_ushiftRight, Nat.shiftRight_eq_div_pow]
      omega
    · change ((a >>> 12) &&& 0x3ff).toNat = k
      rw [toNat_and, toNat_ushiftRight, Nat.shiftRight_eq_div_pow]
      rw [show (0x3ff : Word).toNat = 2 ^ 10 - 1 from rfl, Nat.and_two_pow_sub_one_eq_mod]
      omega
  rw [World.physAddr, World.leafAt, dif_pos h, userLeaf, hnr, he, map_some,
    ptePhys_frame hn (by decide)]

theorem exists_twoPages : ∃ w, TwoPages w := by
  obtain ⟨w₀, h₀⟩ := exists_oneTable
  obtain ⟨w₁, h₁, hdir₁⟩ := h₀.inv.exists_page (j := 0) h₀.upper (n := 1026) (by decide)
    (h₀.free _ le_rfl (by decide)) h₀.table (h₀.leaf _ _ _)
  have htable : w₁.view.entry (.table 0 0) = some (physPpn (frame 1025) ||| pteV) := by
    rw [h₁.entry]
    exact h₀.table
  have hne : (Ref.leaf 0 0 1) ≠ .leaf 0 0 0 := by decide
  obtain ⟨w₂, h₂, hdir₂⟩ := h₁.inv.exists_page (j := 1) h₁.upper (n := 1028) (by decide)
    (by rw [h₁.memMap]; exact h₀.free _ (by decide) (by decide)) htable
    (by rw [h₁.entry, update_of_ne hne]; exact h₀.leaf _ _ _)
  have he₀ : w₂.view.entry (.leaf 0 0 0) = some (physPpn (frame 1026) ||| pteUserRwx) := by
    rw [h₂.entry, update_of_ne hne.symm, h₁.entry, update_self]
  have he₁ : w₂.view.entry (.leaf 0 0 1) = some (physPpn (frame 1028) ||| pteUserRwx) := by
    rw [h₂.entry, update_self]
  refine ⟨w₂, h₂.inv, h₂.upper, ?_, fun a ha => ?_, fun a hlo hhi => ?_, ?_⟩
  · rw [hdir₂, hdir₁, h₀.dir]
  · exact physAddr_of_entry (k := 0) (by decide) (by decide) he₀ (Nat.zero_le _) (lt_def.mp ha)
  · exact physAddr_of_entry (k := 1) (by decide) (by decide) he₁ (le_def.mp hlo) (lt_def.mp hhi)
  · rw [h₂.memMap, h₁.memMap]
    exact h₀.free _ (by decide) (by decide)

theorem TwoPages.isSome {w : World} (h : TwoPages w) {a : Word} (ha : a < 0x2000) :
    (w.physAddr 0 a).isSome := by
  by_cases hlo : a < 0x1000
  · rw [h.page₀ a hlo, isSome_some]
  · rw [h.page₁ a (BitVec.not_lt.mp hlo) ha, isSome_some]

/-- A `put_fs_long` over the boundary of two mapped pages stores its last two
bytes in a frame that nobody maps. -/
theorem put_fs_long_outside : ∃ w : World, w.Inv mainFrom4M ∧ w.Upper ∧
    w.pgdir 0 = some (frame 1024) ∧
    (∀ k < 4, (w.physAddr 0 (0xffe + .ofNat 32 k)).isSome) ∧ w.mm.memMap 1027 = 0 ∧
    (∀ v, wp (putFsLong v (frame 1024) 0xffe) (fun _ s' =>
      s'.mem (frame 1027) = v.extractLsb' 16 8) (fun _ _ => False) w.mm) ∧
    ¬ ActsOnBytes 4 w (frame 1024) 0xffe ∧ ¬ ActsOnBytes 2 w (frame 1024) 0xfff := by
  obtain ⟨w, hw⟩ := exists_twoPages
  have htr (a : Word) (ha : a < 0x2000) :
      translateUser w.mm.mem (frame 1024) a = (w.physAddr 0 a).getD (-1) :=
    hw.inv.translateUser_eq hw.dir a
  have hfirst : translateUser w.mm.mem (frame 1024) 0xffe = frame 1026 + 0xffe := by
    rw [htr _ (by decide), hw.page₀ _ (by decide)]
    rfl
  have hmapped (n : ℕ) (hn : n ≤ 4) (a : Word) (ha : a ≤ 0xfff) :
      ∀ k < n, (w.physAddr 0 (a + .ofNat 32 k)).isSome := by
    intro k hk
    refine hw.isSome ?_
    rw [BitVec.lt_def, BitVec.toNat_add, BitVec.toNat_ofNat]
    have := BitVec.le_def.mp ha
    simp at this ⊢
    omega
  refine ⟨w, hw.inv, hw.upper, hw.dir, hmapped 4 (by decide) _ (by decide), hw.free, fun v => ?_,
    fun h => ?_, fun h => ?_⟩
  · rw [putFsLong, wp_putFs hfirst (by decide)]
    exact storeN_of_lt (by decide)
  · have hthird := consecutive_of_actsOnBytes hw.inv hw.upper hw.dir (by decide)
      (hmapped 4 (by decide) _ (by decide)) h 2 (by decide)
    rw [hfirst, htr _ (by decide), hw.page₁ _ (by decide) (by decide)] at hthird
    exact absurd hthird (by decide)
  · have hsecond := consecutive_of_actsOnBytes hw.inv hw.upper hw.dir (by decide)
      (hmapped 2 (by decide) _ (by decide)) h 1 (by decide)
    rw [htr 0xfff (by decide), hw.page₀ 0xfff (by decide), htr _ (by decide),
      hw.page₁ _ (by decide) (by decide)] at hsecond
    exact absurd hsecond (by decide)

/-- Within a page the accesses are right. -/
theorem user_access_in_page : ∃ w : World, w.pgdir 0 = some (frame 1024) ∧
    ActsOnBytes 4 w (frame 1024) 0xffc ∧ ActsOnBytes 2 w (frame 1024) 0xffc := by
  obtain ⟨w, hw⟩ := exists_twoPages
  have htr (k : ℕ) (hk : k < 4) :
      translateUser w.mm.mem (frame 1024) (0xffc + .ofNat 32 k) =
        frame 1026 + .ofNat 32 (pageOffset (0xffc + .ofNat 32 k)) := by
    rw [hw.inv.translateUser_eq hw.dir, hw.page₀ _ (by revert k; decide), getD_some]
  have hcons (n : ℕ) (hn : n ≤ 4) : Consecutive n w.mm.mem (frame 1024) 0xffc := by
    intro k hk
    have hk4 : k < 4 := lt_of_lt_of_le hk hn
    rw [htr k hk4, show (0xffc : Word) = 0xffc + .ofNat 32 0 from rfl, htr 0 (by decide)]
    clear hk
    revert k
    decide
  have hmapped (n : ℕ) (hn : n ≤ 4) : ∀ k < n, (w.physAddr 0 (0xffc + .ofNat 32 k)).isSome := by
    intro k hk
    have hk4 : k < 4 := lt_of_lt_of_le hk hn
    exact hw.isSome (by clear hk; revert k; decide)
  obtain ⟨hlong, hword⟩ := user_access_acts_on_bytes_iff (a := 0xffc) hw.inv hw.upper hw.dir
  exact ⟨w, hw.dir, (hlong (hmapped 4 le_rfl)).mpr (hcons 4 le_rfl),
    (hword (hmapped 2 (by decide))).mpr (hcons 2 (by decide))⟩

end LinuxRv.Mm
