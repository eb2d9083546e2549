import LinuxRv.Mm.SpareSpace
import LinuxRv.Mm.UserAccess

/-!
`verify_area`.

The loop goes from page to page while `size`, an `int` to which the offset in the
first page has been added, is positive. Every page it comes to is mapped writable
afterwards, and nothing that was mapped changes. A sum that does not fit an `int`
is negative, and then no page is looked at.
-/

namespace LinuxRv.Mm

open ByteMemory Prog RefCount BitVec View.Inv

/-- The page of `a` is mapped for task `i` alone, and can be written. -/
def World.Writable (w : World) (i : Fin nrTasks) (a : Word) : Prop :=
  ∃ h : a < userLimit, ∃ e n, w.view.entry (userLeaf i a h) = some e ∧ e &&& pteV ≠ 0 ∧
    e &&& pteU ≠ 0 ∧ e &&& pteW ≠ 0 ∧ n < pagingPages ∧ ptePhys e = frame n ∧ w.mm.memMap n = 1

/-- Pages have been added or made writable. -/
structure Extends (main : MainMemory) (w w' : World) : Prop where
  inv : w'.Inv main
  upper : w'.Upper
  pgdir : w'.pgdir = w.pgdir
  writable : ∀ i k l e, w.view.entry (.leaf i k l) = some e → e &&& pteW ≠ 0 →
    ∃ e', w'.view.entry (.leaf i k l) = some e' ∧ e' &&& pteW ≠ 0
  contents : ∀ i p bytes, w.contents i p = some bytes → w'.contents i p = some bytes

section

variable {main : MainMemory} {w w' w'' : World} {i : Fin nrTasks} {d a e : Word}
  {Q : PUnit → State → Prop} {E : Halt → State → Prop}

theorem Extends.refl (hI : w.Inv main) (hupper : w.Upper) : Extends main w w :=
  ⟨hI, hupper, rfl, fun _ _ _ e he hw => ⟨e, he, hw⟩, fun _ _ _ h => h⟩

theorem Extends.trans (h : Extends main w w') (h' : Extends main w' w'') : Extends main w w'' where
  inv := h'.inv
  upper := h'.upper
  pgdir := h'.pgdir.trans h.pgdir
  writable i k l e he hw := by
    obtain ⟨e', he', hw'⟩ := h.writable i k l e he hw
    exact h'.writable i k l e' he' hw'
  contents i p bytes hbytes := h'.contents i p bytes (h.contents i p bytes hbytes)

theorem Mapped.extends {p : PageNr} (h : Mapped main w i p (w.bytesAt i p) w') :
    Extends main w w' where
  inv := h.inv
  upper := h.upper
  pgdir := h.pgdir
  writable i' k l e he hw := by
    by_cases hleaf : Ref.leaf i' k l = .leaf i p.1 p.2
    · rw [hleaf]
      exact h.entry
    · exact ⟨e, (h.leaves _ (by simp [Ref.page]) hleaf).trans he, hw⟩
  contents i' p' bytes hbytes := by
    by_cases hp : (i', p') = (i, p)
    · obtain ⟨rfl, rfl⟩ := Prod.mk.inj hp
      rw [h.self, World.bytesAt, hbytes, Option.getD_some]
    · rw [h.other i' p' hp, hbytes]

/-- A page that can be written has its frame for itself. -/
theorem World.Inv.writable (hI : w.Inv main) (h : a < userLimit)
    (he : w.view.entry (userLeaf i a h) = some e) (hw : e &&& pteW ≠ 0) : w.Writable i a := by
  obtain ⟨n, hn, hphys⟩ := main_of_entry hI he
  have hbits : e &&& pteUserMask = pteUserBits := wellFormed hI _ e he
  have hV : e &&& pteV = pteV := and_of_and_mask hbits rfl
  have hU : e &&& pteU = pteU := and_of_and_mask hbits rfl
  refine ⟨h, e, n, he, by rw [hV]; decide, by rw [hU]; decide, hw, hn.lt, hphys, ?_⟩
  have hone := exclusive hI _ e he hw
  have hexact := exact hI n hn
  rw [hphys] at hone
  rw [hone] at hexact
  exact eq_of_toNat_eq hexact

theorem Extends.writable_of (h : Extends main w w') (ha : w.Writable i a) : w'.Writable i a := by
  obtain ⟨hlim, e, n, he, -, -, hw, -⟩ := ha
  obtain ⟨e', he', hw'⟩ := h.writable _ _ _ e he hw
  exact h.inv.writable hlim he' hw'

/-! ### One page -/

theorem World.Inv.wp_verifyPage (hI : w.Inv main) (hupper : w.Upper) (hd : w.pgdir i = some d)
    (h : a < userLimit)
    (hok : ∀ w', Mapped main w i (pageNr a h) (w.bytesAt i (pageNr a h)) w' → Q ⟨⟩ w'.mm)
    (hexit : ∀ mm, E (.exit 11) mm) : wp (verifyPage d a) Q E w.mm := by
  rw [verifyPage, wp_bind]
  have hempty (hnone : w.view.entry (userLeaf i a h) = none) : wp (getEmptyPage d a) Q E w.mm :=
    hI.wp_getEmptyPage hupper hd h hnone (fun w' hw' _ => hok w' hw') fun mm _ _ _ => hexit mm
  refine hI.wp_pteLookup hd h (fun hnone => hempty (entries_leaf_of_none hnone _)) fun et het => ?_
  have hleaf : w.view.entry (userLeaf i a h) = entryAt w.mm.mem (ptePhys et) (tableIndex a) :=
    entries_leaf het _
  rw [wp_bind, wp_readWord]
  refine wp_ite.mpr ⟨fun hv => hempty (hleaf.trans (entryAt_eq_none_iff.mpr hv)), fun hv => ?_⟩
  have hsome : w.view.entry (userLeaf i a h) = some (word w.mm.mem (ptePhys et) (tableIndex a)) :=
    hleaf.trans (validEntry_of_valid hv)
  refine wp_ite.mpr ⟨fun _ => ?_, fun hw => wp_pure.mpr (hok w (.refl hI hupper hsome hw))⟩
  exact hI.wp_unWpPage (j := ⟨tableIndex a, tableIndex_lt _⟩) het hsome
    (fun w' hw' => hok w' (hw'.mapped hI hupper hsome)) (hexit _)

/-- Past the user range the task is killed. -/
theorem World.Inv.wp_verifyPage_above (hI : w.Inv main) (hupper : w.Upper) (hd : w.pgdir i = some d)
    (h : ¬ a < userLimit) (hexit : ∀ mm, E (.exit 11) mm) : wp (verifyPage d a) Q E w.mm := by
  have hzero := hupper i d _ hd (userPgdEntries_le_dirIndex h) (dirIndex_lt_ptrsPerPage a)
  obtain ⟨n, hn, rfl⟩ := hI.isFrame_dir hd
  have hv : word w.mm.mem (frame n) (dirIndex a) &&& pteV = 0 := by
    rw [hzero]
    rfl
  have hlim : userLimit ≤ a := BitVec.not_lt.mp h
  simp only [verifyPage, pteLookup, frame_ne_zero hn, if_false, wp_bind, wp_readWord, hv, if_true,
    wp_pure, getEmptyPage]
  refine wp_getFreePage (fun _ => ?_) fun m hm hfree => ?_
  · simp only [if_true, freePage_zero, wp_bind, wp_pure, wp_throw]
    exact hexit _
  · simp only [frame_ne_zero hm, if_false, putPagePgdir, hlim, if_true, wp_bind, wp_pure, wp_throw]
    exact (hI.fresh hm hfree).wp_freePage.imp fun _ mm _ => hexit mm

/-! ### The loop -/

/-- The task has all of `[low, high)` to itself. -/
def World.Owns (w : World) (i : Fin nrTasks) (low high : ℕ) : Prop :=
  ∀ a : Word, low ≤ a.toNat → a.toNat < high → w.Writable i a

theorem lt_userLimit_of_page {b : Word} (h : a < userLimit) (hstart : a.toNat % 4096 = 0)
    (hb : b.toNat < a.toNat + 4096) : b < userLimit := by
  have hlt : a.toNat < 2 ^ 31 := lt_def.mp h
  have hlt' : b.toNat < 2 ^ 31 := by omega
  exact lt_def.mpr hlt'

theorem World.Inv.wp_verifyPages {n : ℕ} (hI : w.Inv main) (hupper : w.Upper)
    (hd : w.pgdir i = some d) (hstart : a.toNat % 4096 = 0) (hexit : ∀ mm, E (.exit 11) mm) :
    wp (verifyPages d n a) (fun _ s' => ∃ w' : World, w'.mm = s' ∧ Extends main w w' ∧
      w'.Owns i a.toNat (a.toNat + 4096 * n)) E w.mm := by
  induction n generalizing w a with
  | zero =>
    refine wp_pure.mpr ⟨w, rfl, .refl hI hupper, fun b hlow hhigh => ?_⟩
    omega
  | succ n ih =>
    rw [verifyPages, wp_bind]
    by_cases h : a < userLimit
    · have hlt : a.toNat < 2 ^ 31 := lt_def.mp h
      have hnext : (a + 4096).toNat = a.toNat + 4096 := by
        have hsize : (4096 : Word).toNat = 4096 := by decide
        rw [toNat_add, hsize]
        exact Nat.mod_eq_of_lt (by omega)
      refine hI.wp_verifyPage hupper hd h (fun w₁ h₁ => ?_) hexit
      have hext := h₁.extends
      refine (ih hext.inv hext.upper (hext.pgdir ▸ hd) (by omega)).imp
        fun _ s' ⟨w₂, hmm, h₂, howns⟩ => ⟨w₂, hmm, hext.trans h₂, fun b hlow hhigh => ?_⟩
      by_cases hb : b.toNat < a.toNat + 4096
      · -- in the first page
        obtain ⟨e, he, hw⟩ := h₁.entry
        have hlim : b < userLimit := lt_userLimit_of_page h hstart hb
        rw [← pageNr_congr hlim h (by omega)] at he
        exact h₂.writable_of (h₁.inv.writable hlim he hw)
      · exact howns b (by omega) (by omega)
    · exact hI.wp_verifyPage_above hupper hd h hexit

/-! ### Sums that do not fit -/

/-- There are not enough frames for half the user range. -/
theorem World.Inv.not_owns (hI : w.Inv main) {low high : ℕ} (hhigh : low + 2 ^ 30 ≤ high)
    (hlow : low < 2 ^ 31) : ¬ w.Owns i low high := by
  intro howns
  have haddr (m : Fin (pagingPages + 1)) :
      (BitVec.ofNat 32 (low + 4096 * m.1)).toNat = low + 4096 * m.1 := by
    have hm : m.1 < 32768 + 1 := m.isLt
    rw [toNat_ofNat]
    exact Nat.mod_eq_of_lt (by omega)
  have hpage (m : Fin (pagingPages + 1)) : w.Writable i (.ofNat 32 (low + 4096 * m.1)) := by
    have hm : m.1 < 32768 + 1 := m.isLt
    exact howns _ (by rw [haddr]; omega) (by rw [haddr]; omega)
  choose hlim e n he hV hU hW hn hphys hcount using hpage
  have hinj : Function.Injective fun m => (⟨n m, hn m⟩ : Fin pagingPages) := by
    intro m m' hsame
    have hframe : n m = n m' := congrArg Fin.val hsame
    have htarget : w.view.target (userLeaf i _ (hlim m')) = some (ptePhys (e m)) := by
      rw [hphys m, hframe, ← hphys m']
      exact View.target_of_entry (he m')
    have hleaf := eq_of_exclusive hI (he m) (hW m) htarget
    simp only [userLeaf, Ref.leaf.injEq, true_and] at hleaf
    have hnr := pageNr_toNat (hlim m)
    rw [← hleaf.1, ← hleaf.2, pageNr_toNat, haddr, haddr] at hnr
    exact Fin.ext (by omega)
  have hcard := Fintype.card_le_of_injective _ hinj
  rw [Fintype.card_fin, Fintype.card_fin] at hcard
  omega

/-- `verify_area` does what its callers rely on exactly if the size and the offset
in the first page fit an `int` together. -/
theorem verify_area_iff {addr size : Word} (hI : w.Inv main) (hupper : w.Upper)
    (hd : w.pgdir i = some d) (haddr : addr < userLimit) (hsize : 0 ≤ size.toInt) :
    wp (verifyArea d addr size) (fun _ s' => ∃ w' : World, w'.mm = s' ∧ Extends main w w' ∧
      w'.Owns i addr.toNat (addr.toNat + size.toNat)) (fun e _ => e = .exit 11) w.mm ↔
    size.toNat + addr.toNat % 4096 < 2 ^ 31 := by
  have hd0 : d ≠ 0 := by
    obtain ⟨n, hn, rfl⟩ := hI.isFrame_dir hd
    exact frame_ne_zero hn
  have hlt : addr.toNat < 2 ^ 31 := lt_def.mp haddr
  have hsize' : size.toNat < 2 ^ 31 := by
    rw [toInt_eq_toNat_cond] at hsize
    split at hsize <;> omega
  have hsum : (size + (addr &&& 0xfff)).toNat = size.toNat + addr.toNat % 4096 := by
    rw [toNat_add, ← pageOffset, pageOffset_eq]
    exact Nat.mod_eq_of_lt (by omega)
  rw [verifyArea, if_neg hd0, if_neg (BitVec.not_le.mpr haddr)]
  constructor
  · intro h
    by_contra hbig
    have hnone : rounds (size + (addr &&& 0xfff)) = 0 := by
      rw [rounds, toInt_eq_toNat_cond, hsum, if_neg (by omega)]
      omega
    rw [hnone, verifyPages, wp_pure] at h
    obtain ⟨w', -, hext, howns⟩ := h
    exact hext.inv.not_owns (by omega) hlt howns
  · intro hfit
    have hrounds : rounds (size + (addr &&& 0xfff)) =
        (size.toNat + addr.toNat % 4096 + 4095) / 4096 := by
      rw [rounds, toInt_eq_toNat_cond, hsum, if_pos (by omega)]
      omega
    have hstart := toNat_page addr
    refine (hI.wp_verifyPages hupper hd (by omega) fun _ => rfl).imp fun _ s' h' => ?_
    obtain ⟨w', hmm, hext, howns⟩ := h'
    refine ⟨w', hmm, hext, fun a hlow hhigh => ?_⟩
    exact howns a (by omega) (by rw [hrounds]; omega)

end

/-- Two pages are mapped for an area of 4096 bytes from address 1 on. -/
theorem verify_area_two_pages : ∃ w : World, w.pgdir 0 = some (frame 1024) ∧
    wp (verifyArea (frame 1024) 1 4096) (fun _ s' => ∃ w' : World, w'.mm = s' ∧
      Extends mainFrom4M w w' ∧ w'.Owns 0 1 4097) (fun e _ => e = .exit 11) w.mm := by
  obtain ⟨w, hw⟩ := exists_oneTable
  exact ⟨w, hw.dir, (verify_area_iff hw.inv hw.upper hw.dir (by decide) (by decide)).mpr (by decide)⟩

/-- An area of `INT_MAX` bytes from address 1 on: nothing is mapped. -/
theorem verify_area_skips : ∃ w : World, w.Inv mainFrom4M ∧ w.Upper ∧
    w.pgdir 0 = some (frame 1024) ∧
    verifyArea (frame 1024) 1 0x7fffffff w.mm = .ok ⟨⟩ w.mm ∧
    ∀ a (h : a < userLimit), w.view.entry (userLeaf 0 a h) = none := by
  obtain ⟨w, hw⟩ := exists_oneTable
  refine ⟨w, hw.inv, hw.upper, hw.dir, ?_, fun a h => hw.leaf _ _ _⟩
  have hnone : rounds (0x7fffffff + (1 &&& 0xfff)) = 0 := by decide
  rw [verifyArea, if_neg (frame_ne_zero (by decide)), if_neg (by decide), hnone]
  rfl

end LinuxRv.Mm
