import LinuxRv.Mm.FreeFrames

/-!
An address space under construction.

`execve` builds the new address space beside those of the tasks: its directory
is put into a slot that no task uses, and the pages it has taken and not mapped
yet are its own. Nothing that was there before is touched, and once the
directory and all pages have been given back the counts are what they were.
-/

namespace LinuxRv.Mm

open ByteMemory Prog RefCount Function World View.Inv Multiset

variable {p : Word} {μ : Mem}

/-- The world `w₀`, with the directory in slot `j` and the frames in `own`
besides. -/
structure Beside (main : MainMemory) (w₀ : World) (j : Fin nrTasks) (own : Multiset Word)
    (w : World) : Prop where
  base : w₀.Inv main
  inv : w.Inv main
  spare : w₀.pgdir j = none
  held : w.held = own + w₀.held
  pgdir : ∀ i, i ≠ j → w.pgdir i = w₀.pgdir i
  entry : ∀ r, r.slot ≠ j → w.view.entry r = w₀.view.entry r
  /-- No other address space has a page of the new one. -/
  writable : ∀ k l e, w.view.entry (.leaf j k l) = some e → e &&& pteW ≠ 0
  data : ∀ q, w₀.DataFrame q → SameBytes w₀.mm.mem w.mm.mem q
  reserved : SameReserved main w₀.mm w.mm

theorem World.entry_of_none {w : World} {r : Ref} (h : w.pgdir r.slot = none) :
    w.view.entry r = none := by
  cases r with
  | dir i => exact h
  | table i k =>
    show (w.pgdir i).bind _ = none
    rw [show w.pgdir i = none from h]
    rfl
  | leaf i k l =>
    show ((w.pgdir i).bind _).bind _ = none
    rw [show w.pgdir i = none from h]
    rfl

theorem word_of_sameBytes {μ' : Mem} {i : ℕ} (h : SameBytes μ μ' p)
    (hi : i < ptrsPerPage) : word μ' p i = word μ p i := by
  unfold ptrsPerPage at hi
  refine loadN_congr fun k hk => ?_
  rw [offset_add]
  exact h _ (by omega)

/-- A store of a byte in a frame is not seen in another one. -/
theorem sameBytes_update {q : Word} {o : ℕ} {c : Byte} (hp : IsFrame p) (hq : IsFrame q)
    (hne : q ≠ p) (ho : o < 4096) : SameBytes μ (update μ (p + .ofNat 32 o) c) q := by
  intro o' ho'
  obtain ⟨n, hn, rfl⟩ := hp
  obtain ⟨n', hn', rfl⟩ := hq
  have hne : n' ≠ n := fun h => hne (by rw [h])
  unfold pagingPages at hn hn'
  refine update_of_ne (fun h => ?_) _ _
  rw [frame_offset, frame_offset] at h
  have h' := congrArg BitVec.toNat h
  simp only [ramBase, BitVec.toNat_add, BitVec.toNat_ofNat] at h'
  omega

theorem sameBytes_fillN {q : Word} {f : ℕ → Byte} {len : ℕ} (hp : IsFrame p)
    (hq : IsFrame q) (hne : q ≠ p) (hlen : len ≤ 4096) : SameBytes μ (fillN len μ p f) q := by
  intro o ho
  obtain ⟨n, hn, rfl⟩ := hp
  obtain ⟨n', hn', rfl⟩ := hq
  have hne : n' ≠ n := fun h => hne (by rw [h])
  unfold pagingPages at hn hn'
  rw [frame_offset]
  exact fillN_of_le (le_toNat_offset_sub ramBase (by omega) (by omega) (by omega))

section

variable {E : Halt → State → Prop} {page q : Word} {main : MainMemory} {w₀ w : World}
  {j : Fin nrTasks} {own : Multiset Word}

theorem Beside.refl (hI : w₀.Inv main) (hj : w₀.pgdir j = none) : Beside main w₀ j 0 w₀ where
  base := hI
  inv := hI
  spare := hj
  held := (zero_add _).symm
  pgdir _ _ := rfl
  entry _ _ := rfl
  writable k l e he := absurd ((entry_of_none (r := .leaf j k l) hj).symm.trans he) (by simp)
  data _ _ _ _ := rfl
  reserved := .refl _ _

/-- No reference has gone, and those of the new frames have come. -/
theorem Beside.refs_le (h : Beside main w₀ j own w) (q : Word) :
    w₀.view.refs q + own.count q ≤ w.view.refs q := by
  have hocc : occurrences w₀.view.target q ≤ occurrences w.view.target q := by
    refine occurrences_mono fun r hr => ?_
    by_cases hslot : r.slot = j
    · rw [View.target, entry_of_none (by rw [hslot]; exact h.spare)] at hr
      cases hr
    · rwa [View.target, h.entry r hslot]
  have hheld : w.view.held.count q = own.count q + w₀.view.held.count q := by
    rw [show w.view.held = own + w₀.held from h.held, count_add]
    rfl
  unfold View.refs
  omega

theorem Beside.mem_held (h : Beside main w₀ j own w) (hpage : page ∈ own) : page ∈ w.held := by
  rw [h.held]
  exact mem_add.mpr (.inl hpage)

/-- The frames of the new address space held no data before. -/
theorem Beside.ne_of_data (h : Beside main w₀ j own w) (hpage : page ∈ own)
    (hq : w₀.DataFrame q) : q ≠ page := by
  rintro rfl
  have hle := h.refs_le q
  have hone := held_exclusive h.inv q (h.mem_held hpage)
  have hown := count_pos.mpr hpage
  have hpos := hq.1
  omega

theorem Beside.isFrame (h : Beside main w₀ j own w) (hpage : page ∈ own) : IsFrame page :=
  h.inv.isFrame_held (h.mem_held hpage)

theorem Beside.ne_zero (h : Beside main w₀ j own w) (hpage : page ∈ own) : page ≠ 0 := by
  obtain ⟨n, hn, rfl⟩ := h.isFrame hpage
  exact frame_ne_zero hn

theorem Beside.dataFrame (h : Beside main w₀ j own w) (hq : w₀.DataFrame q) : w.DataFrame q := by
  refine World.Inv.dataFrame_of h.inv (fun f hf => ?_) (fun i k l e he => ?_) hq
  · rw [h.held]
    exact mem_add.mpr (.inr hf)
  · refine ⟨e, ?_, rfl⟩
    rw [h.entry, he]
    rintro rfl
    rw [entry_of_none h.spare] at he
    cases he

theorem Beside.isFrame_data (h : Beside main w₀ j own w) (hq : w₀.DataFrame q) : IsFrame q :=
  h.inv.isFrame_data (h.dataFrame hq)

/-! ### What is done to it -/

theorem Beside.exhaust (h : Beside main w₀ j own w) : Beside main w₀ j own (w.setMm w.mm.exhaust) :=
  ⟨h.base, h.inv, h.spare, h.held, h.pgdir, h.entry, h.writable, h.data, h.reserved⟩

/-- A frame of its own is written. -/
theorem Beside.write (h : Beside main w₀ j own w) (hpage : page ∈ own) {μ : Mem}
    (hμ : ∀ q, IsFrame q → q ≠ page → SameBytes w.mm.mem μ q) :
    Beside main w₀ j own (w.setMm (w.mm.setMem μ)) ∧
      (w.setMm (w.mm.setMem μ)).view.entry = w.view.entry := by
  have hentry : entries w.pgdir μ = w.view.entry := by
    refine entries_congr (w := w) fun r e _ he l hl => ?_
    have hne := World.Inv.phys_ne_held h.inv he (h.mem_held hpage)
    exact word_of_sameBytes (hμ _ (World.Inv.isFrame h.inv he) hne) hl
  have hview : (w.setMm (w.mm.setMem μ)).view = w.view :=
    congrArg (fun g => View.mk g w.held w.mm.memMap) hentry
  refine ⟨⟨h.base, ?_, h.spare, h.held, h.pgdir, fun r hr => ?_, fun k l e he => ?_, fun q hq o ho => ?_,
    h.reserved⟩, hentry⟩
  · rw [World.Inv, hview]
    exact h.inv
  · rw [hview]
    exact h.entry r hr
  · rw [hview] at he
    exact h.writable k l e he
  · exact (hμ q (h.isFrame_data hq) (h.ne_of_data hpage hq) o ho).trans (h.data q hq o ho)

theorem Beside.alloc (h : Beside main w₀ j own w) {n : ℕ} (hn : n < pagingPages)
    (hzero : w.mm.memMap n = 0) : Beside main w₀ j (frame n ::ₘ own) (w.alloc n) := by
  have hentry := h.inv.entry_alloc hn hzero
  refine ⟨h.base, h.inv.alloc hn hzero, h.spare, ?_, h.pgdir, fun r hr => ?_, fun k l e he => ?_,
    fun q hq => ?_, h.reserved.setCount (h.inv.has_of_free hn hzero) 1⟩
  · show frame n ::ₘ w.held = _
    rw [h.held, cons_add]
  · rw [hentry]
    exact h.entry r hr
  · rw [hentry] at he
    exact h.writable k l e he
  · have hne : q ≠ frame n := by
      rintro rfl
      have hle := h.refs_le (frame n)
      have hpos := hq.1
      have hfree := h.inv.refs_of_free hn hzero
      omega
    intro o ho
    exact (sameBytes_fillN ⟨n, hn, rfl⟩ (h.isFrame_data hq) hne le_rfl o ho).trans
      (h.data q hq o ho)

/-- A cleared frame becomes the directory. -/
theorem Beside.newDirectory (h : Beside main w₀ j (page ::ₘ own) w) (hnone : w.pgdir j = none) :
    Beside main w₀ j own ⟨w.mm.setMem (fillN 4096 w.mm.mem page fun _ => 0),
      update w.pgdir j (some page), w.held.erase page⟩ := by
  have hpage : page ∈ page ::ₘ own := mem_cons_self ..
  have hheld := h.mem_held hpage
  have hentry := h.inv.entry_newDirectory hnone hheld
  refine ⟨h.base, h.inv.newDirectory hnone hheld, h.spare, ?_, fun i hi => ?_, fun r hr => ?_,
    fun k l e he => ?_, fun q hq o ho => ?_, h.reserved⟩
  · show w.held.erase page = _
    rw [h.held, cons_add, erase_cons_head]
  · exact (update_of_ne hi ..).trans (h.pgdir i hi)
  · refine (congrFun hentry r).trans ((update_of_ne ?_ ..).trans (h.entry r hr))
    rintro rfl
    exact hr rfl
  · refine h.writable k l e ?_
    rw [← he]
    exact ((congrFun hentry _).trans (update_of_ne (by simp) ..)).symm
  · exact (sameBytes_fillN (h.isFrame hpage) (h.isFrame_data hq) (h.ne_of_data hpage hq) le_rfl
      o ho).trans (h.data q hq o ho)

theorem Beside.freePage
    (h : Beside main w₀ j (page ::ₘ own) w) : wp (freePage page) (fun _ s' => ∃ w' : World,
      w'.mm = s' ∧ w'.pgdir = w.pgdir ∧ w'.view.entry = w.view.entry ∧ Beside main w₀ j own w') E
      w.mm := by
  have hheld := h.mem_held (mem_cons_self page own)
  obtain ⟨n, hn, rfl⟩ := View.Inv.main_of_held h.inv hheld
  refine wp_freePage hn.lt (View.Inv.memMap_ne_zero h.inv hn (View.refs_pos_of_held hheld)) ?_
  refine ⟨(w.setMm (w.mm.setCount n (w.mm.memMap n - 1))).setHeld (w.held.erase (frame n)), rfl,
    rfl, rfl, h.base, View.Inv.release h.inv hn hheld, h.spare, ?_, h.pgdir, h.entry, h.writable, h.data,
    h.reserved.setCount hn _⟩
  show w.held.erase (frame n) = _
  rw [h.held, cons_add, erase_cons_head]

/-- `put_page_pgdir` of a page of its own. The page that was mapped at the
address, if there was one, is not mapped any more and not free either. -/
theorem Beside.putPage {d a : Word}
    (h : Beside main w₀ j (page ::ₘ own) w) (hd : w.pgdir j = some d) :
    wp (putPagePgdir d page a) (fun r s' => ∃ w' : World, w'.mm = s' ∧ w'.pgdir = w.pgdir ∧
      if r = 0 then
        Beside main w₀ j (page ::ₘ own) w' ∧ w'.view.entry = w.view.entry
      else ∃ hlim : a < userLimit, Beside main w₀ j (w.lost (userLeaf j a hlim) + own) w' ∧
        w.Keeps w'.mm.mem ∧
        ∀ r, r.page ≠ none → w'.view.entry r = update w.view.entry (userLeaf j a hlim)
          (some (physPpn page ||| pteUserRwx)) r) E w.mm := by
  have hpage : page ∈ page ::ₘ own := mem_cons_self ..
  have hheld := h.mem_held hpage
  refine h.inv.wp_putPagePgdir_over hd hheld (fun hlim e he => h.writable _ _ e he) (fun _ => ?_)
    (fun _ _ => ?_) fun w' hlim hinv hpgdir hheld' hentry hkeeps _ hres => ?_
  · exact ⟨w, rfl, rfl, by rw [if_pos rfl]; exact ⟨h, rfl⟩⟩
  · exact ⟨w.setMm w.mm.exhaust, rfl, rfl, by rw [if_pos rfl]; exact ⟨h.exhaust, rfl⟩⟩
  refine ⟨w', rfl, hpgdir, ?_⟩
  rw [if_neg (h.ne_zero hpage)]
  have hw : (physPpn page ||| pteUserRwx) &&& pteW ≠ 0 := by
    rw [physPpn_or_and (by decide)]
    decide
  refine ⟨hlim, ⟨h.base, hinv, h.spare, ?_, fun i hi => ?_, fun r hr => ?_, fun k l e he => ?_,
    fun q hq o ho => ?_, fun n hn => (hres n hn).trans (h.reserved n hn)⟩, hkeeps,
    fun r hr => hentry r (.inl hr)⟩
  · rw [hheld', h.held, cons_add, erase_cons_head, add_assoc]
  · rw [hpgdir]
    exact h.pgdir i hi
  · rw [hentry r (.inr hr), update_of_ne]
    · exact h.entry r hr
    · rintro rfl
      exact hr rfl
  · rw [hentry _ (.inl (by simp [Ref.page]))] at he
    by_cases hr : Ref.leaf j k l = userLeaf j a hlim
    · rw [hr, update_self, Option.some.injEq] at he
      rw [← he]
      exact hw
    · rw [update_of_ne hr] at he
      exact h.writable k l e he
  · exact (hkeeps.data q (h.dataFrame hq) o ho).trans (h.data q hq o ho)

/-- `free_page_tables` of the new directory. -/
theorem Beside.freeTables {d : Word} (h : Beside main w₀ j own w)
    (hd : w.pgdir j = some d) : wp (freePageTables d) (fun _ s' => ∃ w' : World, w'.mm = s' ∧
      w'.pgdir j = none ∧ Beside main w₀ j own w') E w.mm := by
  refine h.inv.wp_freePageTables hd fun w' hinv hpgdir hheld hentry hkeeps _ hres => ?_
  have hnone : w'.pgdir j = none := by rw [hpgdir, update_self]
  refine ⟨w', rfl, hnone, h.base, hinv, h.spare, hheld.trans h.held, fun i hi => ?_, fun r hr => ?_,
    fun k l e he => ?_, fun q hq o ho => ?_, fun n hn => (hres n hn).trans (h.reserved n hn)⟩
  · rw [hpgdir, update_of_ne hi]
    exact h.pgdir i hi
  · rw [hentry r hr]
    exact h.entry r hr
  · exact absurd ((entry_of_none (r := .leaf j k l) hnone).symm.trans he) (by simp)
  · exact (hkeeps.data q (h.dataFrame hq) o ho).trans (h.data q hq o ho)

/-- Without a directory and frames of its own nothing is left of it. -/
theorem Beside.view_entry (h : Beside main w₀ j own w) (hnone : w.pgdir j = none) :
    w.view.entry = w₀.view.entry := by
  funext r
  by_cases hr : r.slot = j
  · rw [entry_of_none (by rw [hr]; exact hnone), entry_of_none (by rw [hr]; exact h.spare)]
  · exact h.entry r hr

theorem Beside.memMap_eq (h : Beside main w₀ j 0 w) (hnone : w.pgdir j = none) :
    w.mm.memMap = w₀.mm.memMap := by
  have hrefs (f : Word) : w.view.refs f = w₀.view.refs f := by
    have htarget : w.view.target = w₀.view.target := by
      unfold View.target
      rw [h.view_entry hnone]
    have hheld : w.view.held = w₀.view.held := h.held.trans (zero_add _)
    rw [View.refs, View.refs, htarget, hheld]
  funext n
  by_cases hn : main.Has n
  · have hexact := exact h.inv n hn
    rw [hrefs, ← exact h.base n hn] at hexact
    exact BitVec.eq_of_toNat_eq hexact
  · exact h.reserved n hn

/-- A frame of its own shows in the counts. -/
theorem Beside.memMap_ne (h : Beside main w₀ j own w) (hq : q ∈ own) :
    w.mm.memMap ≠ w₀.mm.memMap := by
  intro hsame
  have hle := h.refs_le q
  have hpos := count_pos.mpr hq
  obtain ⟨n, hn, rfl⟩ := main_of_held h.inv (h.mem_held hq)
  have hexact := exact h.inv n hn
  have hexact₀ := exact h.base n hn
  have hcount : w.view.memMap n = w₀.view.memMap n := congrFun hsame n
  rw [hcount, hexact₀] at hexact
  omega

theorem Beside.contents_eq (h : Beside main w₀ j own w) {i : Fin nrTasks} (hi : i ≠ j)
    (p : PageNr) : w.contents i p = w₀.contents i p := by
  have hentry := h.entry (.leaf i p.1 p.2) hi
  cases he : w₀.view.entry (.leaf i p.1 p.2) with
  | none => rw [w.contents_of_none (hentry.trans he), w₀.contents_of_none he]
  | some e =>
    rw [w.contents_of_entry (hentry.trans he), w₀.contents_of_entry he, Option.some.injEq]
    exact funext fun o => h.data _ (h.base.dataFrame_leaf he) o o.isLt

end

/-! ### As a condition on the memory manager -/

/-- A directory `dir` besides `w₀` that maps the pages with numbers in `pages`. -/
def SpareSpace (main : MainMemory) (w₀ : World) (j : Fin nrTasks) (dir : Option Word)
    (own : Multiset Word) (pages : Set ℕ) (s : State) : Prop :=
  ∃ w : World, w.mm = s ∧ w.pgdir j = dir ∧ Beside main w₀ j own w ∧
    ∀ k l, w.view.entry (.leaf j k l) ≠ none ↔ k.1 * 1024 + l.1 ∈ pages

section

variable {main : MainMemory} {w₀ : World} {j : Fin nrTasks} {dir : Option Word}
  {own : Multiset Word} {pages : Set ℕ} {s : State} {page d a : Word} {E : Halt → State → Prop}

theorem spareSpace_start (hI : w₀.Inv main) (hj : w₀.pgdir j = none) :
    SpareSpace main w₀ j none 0 ∅ w₀.mm := by
  refine ⟨w₀, rfl, hj, .refl hI hj, fun k l => iff_of_false (not_not.mpr ?_) id⟩
  exact entry_of_none (r := .leaf j k l) hj

theorem SpareSpace.isFrame (h : SpareSpace main w₀ j dir own pages s) (hpage : page ∈ own) :
    IsFrame page := by
  obtain ⟨w, -, -, hw, -⟩ := h
  exact hw.isFrame hpage

theorem SpareSpace.wp_freePage (h : SpareSpace main w₀ j dir (page ::ₘ own) pages s) :
    wp (freePage page) (fun _ => SpareSpace main w₀ j dir own pages) E s := by
  obtain ⟨w, rfl, hdir, hw, hpages⟩ := h
  refine hw.freePage.imp fun _ s' ⟨w', hmm, hpgdir, hentry, hw'⟩ => ?_
  refine ⟨w', hmm, ?_, hw', fun k l => ?_⟩
  · rw [hpgdir]
    exact hdir
  · rw [hentry]
    exact hpages k l

theorem SpareSpace.wp_freePageTables (h : SpareSpace main w₀ j (some d) own pages s) :
    wp (freePageTables d) (fun _ => SpareSpace main w₀ j none own ∅) E s := by
  obtain ⟨w, rfl, hdir, hw, -⟩ := h
  refine (hw.freeTables hdir).imp fun _ s' ⟨w', hmm, hnone, hw'⟩ => ?_
  refine ⟨w', hmm, hnone, hw', fun k l => iff_of_false (not_not.mpr ?_) id⟩
  exact entry_of_none (r := .leaf j k l) hnone

theorem pageNr_toNat (h : a < userLimit) :
    (pageNr a h).1.1 * 1024 + (pageNr a h).2.1 = a.toNat / 4096 := by
  show dirIndex a * 1024 + tableIndex a = _
  rw [dirIndex, tableIndex, BitVec.toNat_and, BitVec.toNat_ushiftRight, BitVec.toNat_ushiftRight,
    Nat.shiftRight_eq_div_pow, Nat.shiftRight_eq_div_pow]
  rw [show (0x3ff : Word).toNat = 2 ^ 10 - 1 from rfl, Nat.and_two_pow_sub_one_eq_mod]
  omega

/-- Addresses of one page have one entry. -/
theorem pageNr_congr {b : Word} (ha : a < userLimit) (hb : b < userLimit)
    (hpage : a.toNat / 4096 = b.toNat / 4096) : pageNr a ha = pageNr b hb := by
  have hnr := pageNr_toNat ha
  rw [hpage, ← pageNr_toNat hb] at hnr
  have hl := (pageNr a ha).2.isLt
  have hl' := (pageNr b hb).2.isLt
  unfold ptrsPerPage at hl hl'
  exact Prod.ext (Fin.ext (by omega)) (Fin.ext (by omega))

theorem SpareSpace.memMap_ne (h : SpareSpace main w₀ j dir own pages s) (hown : own ≠ 0) :
    s.memMap ≠ w₀.mm.memMap := by
  obtain ⟨w, rfl, -, hw, -⟩ := h
  obtain ⟨q, hq⟩ := exists_mem_of_ne_zero hown
  exact hw.memMap_ne hq

end

/-- `put_page_pgdir` takes a frame at most, and fails for want of one only. -/
theorem wp_putPagePgdir_frames {s : State} {n : ℕ} {d a : Word} {E : Halt → State → Prop}
    (hn : n < pagingPages) : wp (putPagePgdir d (frame n) a) (fun r s' =>
      (r = 0 → a < userLimit → freeFrames s.memMap = 0) ∧
        freeFrames s.memMap ≤ freeFrames s'.memMap + 1) E s := by
  have hlow : ¬ frame n < ramBase := BitVec.not_lt.mpr (ramBase_le_frame hn)
  have hhigh : ¬ ramEnd ≤ frame n := BitVec.not_le.mpr (frame_lt_ramEnd hn)
  have hput {s' : State} (h : freeFrames s.memMap ≤ freeFrames s'.memMap + 1) :
      (frame n = 0 → a < userLimit → freeFrames s.memMap = 0) ∧
        freeFrames s.memMap ≤ freeFrames s'.memMap + 1 :=
    ⟨fun h0 => absurd h0 (frame_ne_zero hn), h⟩
  refine wp_ite.mpr ⟨fun hlim => wp_pure.mpr ⟨fun _ ha => ?_, Nat.le_succ _⟩, fun _ => ?_⟩
  · exact absurd ha (BitVec.not_lt.mpr hlim)
  simp only [hlow, hhigh, or_self, if_false, wp_bind, wp_readWord]
  refine wp_ite.mpr ⟨fun _ => wp_bind.mpr ?_, fun _ => ?_⟩
  · refine Mm.wp_getFreePage (fun hall => ?_) fun n' hn' hzero => ?_
    · exact wp_pure.mpr ⟨fun _ _ => freeFrames_eq_zero_iff.mpr hall, Nat.le_succ _⟩
    · rw [if_neg (frame_ne_zero hn')]
      simp only [wp_bind, wp_writeWord, wp_pure]
      exact hput (freeFrames_take hn' hzero (by decide)).ge
  · simp only [wp_bind, wp_writeWord, wp_pure]
    exact hput (Nat.le_succ _)

end LinuxRv.Mm
