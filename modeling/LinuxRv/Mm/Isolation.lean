import LinuxRv.Mm.Processes

/-!
Copy-on-write is not observable.

The private memories of the running system are read out of its page tables:
task `i` has at a page the bytes of the frame its leaf points to. Every event
changes what is read out the way the same event changes private memories, as
long as no frame is missing, and gives the same output. What makes it work is
the discipline of `View.Inv`: the one frame a store changes is mapped writable,
so nobody else has it.
-/

namespace LinuxRv.Mm

open ByteMemory Prog Function World Multiset
open BitVec hiding or_self and_self
open Option (getD_some map_some some)

variable {a : Word}

/-! ### Contents of pages -/

def frameBytes (μ : Mem) (q : Word) : PageBytes := fun o => μ (q + .ofNat 32 o)

/-- The bytes task `i` has at page `p`. -/
def contents (pgdir : Fin nrTasks → Option Word) (μ : Mem) (i : Fin nrTasks) (p : PageNr) :
    Option PageBytes :=
  (entries pgdir μ (.leaf i p.1 p.2)).map fun e => frameBytes μ (ptePhys e)

def World.contents (w : World) : Fin nrTasks → PageNr → Option PageBytes :=
  Mm.contents w.pgdir w.mm.mem

section

variable {i : Fin nrTasks} {p : PageNr} {main : MainMemory} {w : World}
  {pgdir' : Fin nrTasks → Option Word} {μ' : Mem}

theorem World.contents_of_entry {e : Word} (he : w.view.entry (.leaf i p.1 p.2) = some e) :
    w.contents i p = some (frameBytes w.mm.mem (ptePhys e)) := by
  rw [contents, Mm.contents, ← view_entry, he]
  rfl

theorem World.contents_of_none
    (he : w.view.entry (.leaf i p.1 p.2) = none) : w.contents i p = none := by
  rw [contents, Mm.contents, ← view_entry, he]
  rfl

/-- A leaf with the frame of a leaf of `w` has its contents, if data frames were
kept. -/
theorem World.Inv.contents_eq (hI : w.Inv main) (hkeeps : w.Keeps μ') {i' : Fin nrTasks} (h : (entries pgdir' μ' (.leaf i' p.1 p.2)).map ptePhys =
      (w.view.entry (.leaf i p.1 p.2)).map ptePhys) :
    Mm.contents pgdir' μ' i' p = w.contents i p := by
  cases he : w.view.entry (.leaf i p.1 p.2) with
  | none =>
    rw [he, Option.map_none, Option.map_eq_none_iff] at h
    rw [w.contents_of_none he, Mm.contents, h]
    rfl
  | some e =>
    rw [he, map_some, Option.map_eq_some_iff] at h
    obtain ⟨e', he', hphys⟩ := h
    rw [contents_of_entry he, Mm.contents, he', map_some, some.injEq]
    rw [hphys]
    funext o
    exact hkeeps.data _ (hI.dataFrame_leaf he) o o.isLt

/-- What a write to a data frame changes. -/
theorem World.Inv.contents_writeData (hI : w.Inv main) {q : Word} (hq : w.DataFrame q)
    (bytes : ℕ → Byte) (i : Fin nrTasks) (p : PageNr) :
    Mm.contents w.pgdir (fillN 4096 w.mm.mem q bytes) i p =
      if (w.view.entry (.leaf i p.1 p.2)).map ptePhys = some q then some (.ofBytes bytes)
      else w.contents i p := by
  have hentry := congrFun (hI.entry_writeData hq bytes) (.leaf i p.1 p.2)
  rw [Mm.contents, hentry]
  cases he : w.view.entry (.leaf i p.1 p.2) with
  | none =>
    rw [w.contents_of_none he]
    rfl
  | some e =>
    rw [map_some, map_some, contents_of_entry he]
    by_cases hphys : ptePhys e = q
    · rw [if_pos (congrArg some hphys), hphys]
      exact congrArg some (funext fun o => fillN_apply_self o.isLt)
    · rw [if_neg fun h => hphys (some.inj h)]
      exact congrArg some (funext fun o =>
        fillN_apply_ne (hI.isFrame_data hq) (hI.isFrame_data (hI.dataFrame_leaf he)) hphys o.isLt)

end

/-! ### Translation -/

theorem pageOffset_lt (a : Word) : pageOffset a < 4096 := by
  rw [pageOffset, toNat_and]
  exact Nat.and_lt_two_pow _ (n := 12) (by decide)

theorem dirIndex_lt_ptrsPerPage (a : Word) : dirIndex a < ptrsPerPage := by
  have ha := a.isLt
  rw [dirIndex, toNat_ushiftRight, Nat.shiftRight_eq_div_pow, ptrsPerPage]
  omega

theorem userPgdEntries_le_dirIndex (h : ¬ a < userLimit) : userPgdEntries ≤ dirIndex a := by
  have h' : 2 ^ 31 ≤ a.toNat := not_lt.mp fun hlt => h (lt_def.mpr hlt)
  rw [dirIndex, toNat_ushiftRight, Nat.shiftRight_eq_div_pow, userPgdEntries]
  omega

/-- The entry that maps an address of task `i`. -/
def World.leafAt (w : World) (i : Fin nrTasks) (a : Word) : Option Word :=
  if h : a < userLimit then w.view.entry (userLeaf i a h) else none

/-- What the hart makes of an entry of a directory. -/
theorem hart_of_table {e : Word} (h : e &&& (pteHigh ||| 0x3ff) = pteV) :
    isInvalid e = false ∧ isLeaf e = false ∧ physPage e = .ok (ptePhys e) := by
  have hV : e &&& pteV = pteV := and_of_and_mask h rfl
  have hW : e &&& pteW = 0 := and_of_and_mask h rfl
  have hRX : e &&& (pteR ||| pteX) = 0 := and_of_and_mask h rfl
  have hHigh : e &&& pteHigh = 0 := and_of_and_mask h rfl
  refine ⟨?_, ?_, if_pos hHigh⟩
  · rw [isInvalid, hV, hW]
    simp [pteV]
  · rw [isLeaf, hRX]
    decide

/-- What the hart makes of an entry of a table. -/
theorem hart_of_leaf {e : Word} (h : e &&& pteUserMask = pteUserBits) :
    isInvalid e = false ∧ isLeaf e = true ∧ physPage e = .ok (ptePhys e) ∧
      ∀ kind, permits e kind = decide (¬ (kind = .store ∧ e &&& pteW = 0)) := by
  have hV : e &&& pteV = pteV := and_of_and_mask h rfl
  have hR : e &&& pteR = pteR := and_of_and_mask h rfl
  have hU : e &&& pteU = pteU := and_of_and_mask h rfl
  have hA : e &&& pteA = pteA := and_of_and_mask h rfl
  have hD : e &&& pteD = pteD := and_of_and_mask h rfl
  have hHigh : e &&& pteHigh = 0 := and_of_and_mask h rfl
  refine ⟨?_, ?_, if_pos hHigh, fun kind => ?_⟩
  · rw [isInvalid, hV, hR]
    simp [pteV, pteR]
  · have hne : e &&& (pteR ||| pteX) ≠ 0 := by
      intro h0
      have hRX : e &&& (pteR ||| pteX) &&& pteR = pteR := by
        rw [BitVec.and_assoc, show (pteR ||| pteX) &&& pteR = pteR from rfl, hR]
      rw [h0] at hRX
      exact absurd hRX (by decide)
    rw [isLeaf, decide_eq_true hne]
  · cases kind with
    | load =>
      rw [permits, hU, hR, hA]
      simp [pteU, pteR, pteA]
    | store =>
      rw [permits, hU, hA, hD]
      simp [pteU, pteA, pteD]

section

variable {main : MainMemory} {w : World} {i : Fin nrTasks} {d : Word}

/-- The two levels of the walk to a leaf. -/
theorem World.leafAt_of_lt {a : Word} (hd : w.pgdir i = some d) (h : a < userLimit) :
    w.leafAt i a = if word w.mm.mem d (dirIndex a) &&& pteV = 0 then none
      else entryAt w.mm.mem (ptePhys (word w.mm.mem d (dirIndex a))) (tableIndex a) := by
  have htable := entries_table (μ := w.mm.mem) hd (pageNr a h).1
  rw [leafAt, dif_pos h, userLeaf]
  split
  · next hv => exact entries_leaf_of_none (htable.trans (entryAt_eq_none_iff.mpr hv)) _
  · next hv => exact entries_leaf (htable.trans (validEntry_of_valid hv)) _

/-- Translation finds the leaf and asks for `W` on a store. -/
theorem World.Inv.walk_eq (hI : w.Inv main) (hupper : w.Upper) (hd : w.pgdir i = some d)
    (kind : AccessKind) (a : Word) : walk w.mm.mem d kind a = match w.leafAt i a with
      | none => .error .page
      | some e => if kind = .store ∧ e &&& pteW = 0 then .error .page
          else .ok (ptePhys e + .ofNat 32 (pageOffset a)) := by
  have hinvalid {e : Word} (he : e &&& pteV = 0) : isInvalid e = true := by simp [isInvalid, he]
  by_cases h : a < userLimit
  · have hleaf := leafAt_of_lt hd h
    by_cases hv : word w.mm.mem d (dirIndex a) &&& pteV = 0
    · rw [hleaf, if_pos hv]
      simp [walk, hinvalid hv]
    rw [if_neg hv] at hleaf
    have htable : w.view.entry (.table i (pageNr a h).1) = some (word w.mm.mem d (dirIndex a)) :=
      (entries_table hd _).trans (validEntry_of_valid hv)
    obtain ⟨h1, h2, h3⟩ := hart_of_table (View.Inv.wellFormed hI _ _ htable)
    simp only [walk, h1, h2, h3, Bool.false_eq_true, if_false, Except.bind]
    cases he : entryAt w.mm.mem (ptePhys (word w.mm.mem d (dirIndex a))) (tableIndex a) with
    | none => simp [hleaf, he, hinvalid (entryAt_eq_none_iff.mp he)]
    | some e =>
      have hsome := hleaf.trans he
      obtain ⟨h4, h5, h6, h7⟩ := hart_of_leaf (View.Inv.wellFormed hI _ _
        ((dif_pos h).symm.trans hsome))
      rw [hsome, (entryAt_eq_some he).1, h4, h5, h6, h7]
      by_cases hw : kind = .store ∧ e &&& pteW = 0
      · simp [hw]
      · simp [Except.map]
  · have hzero : word w.mm.mem d (dirIndex a) = 0 :=
      hupper i d _ hd (userPgdEntries_le_dirIndex h) (dirIndex_lt_ptrsPerPage a)
    rw [leafAt, dif_neg h]
    simp [walk, hzero, isInvalid]

end

/-! ### Store faults -/

theorem and_page_ushiftRight (a : Word) {n : ℕ} (hn : 12 ≤ n) :
    (a &&& 0xfffff000) >>> n = a >>> n := by
  apply eq_of_getLsbD_eq
  intro i hi
  rw [getLsbD_ushiftRight, getLsbD_ushiftRight, getLsbD_and]
  by_cases h : n + i < 32
  · have hone : ∀ j < 32, 12 ≤ j → (0xfffff000 : Word).getLsbD j = true := by decide
    rw [hone (n + i) h (by omega), Bool.and_true]
  · rw [getLsbD_of_ge a _ (by omega), Bool.false_and]

theorem page_lt_userLimit (h : a < userLimit) : a &&& 0xfffff000 < userLimit := by
  rw [lt_def, toNat_and]
  exact lt_of_le_of_lt Nat.and_le_left (lt_def.mp h)

theorem pageNr_page (h : a < userLimit) (h' : a &&& 0xfffff000 < userLimit) :
    pageNr (a &&& 0xfffff000) h' = pageNr a h := by
  simp only [pageNr, dirIndex, tableIndex, and_page_ushiftRight a (by decide : 12 ≤ 22),
    and_page_ushiftRight a (by decide : 12 ≤ 12)]

theorem userLeaf_page (i : Fin nrTasks) (h : a < userLimit) (h' : a &&& 0xfffff000 < userLimit) :
    userLeaf i (a &&& 0xfffff000) h' = userLeaf i a h := by
  rw [userLeaf, pageNr_page h h']
  rfl

theorem page_page (a : Word) : a &&& 0xfffff000 &&& 0xfffff000 = a &&& 0xfffff000 := by
  rw [BitVec.and_assoc]
  rfl

/-- Page `p` of task `i` holds `bytes` and can be written; all else is as in
`w`. -/
structure Mapped (main : MainMemory) (w : World) (i : Fin nrTasks) (p : PageNr)
    (bytes : PageBytes) (w' : World) : Prop where
  inv : w'.Inv main
  pgdir : w'.pgdir = w.pgdir
  held : w'.held = w.held
  entry : ∃ e, w'.view.entry (.leaf i p.1 p.2) = some e ∧ e &&& pteW ≠ 0
  self : w'.contents i p = some bytes
  other : ∀ i' p', (i', p') ≠ (i, p) → w'.contents i' p' = w.contents i' p'
  upper : w'.Upper
  leaves : ∀ r, r.page ≠ none → r ≠ .leaf i p.1 p.2 → w'.view.entry r = w.view.entry r

/-- What a store finds at a page: zeros if there was nothing. -/
def World.bytesAt (w : World) (i : Fin nrTasks) (p : PageNr) : PageBytes :=
  (w.contents i p).getD fun _ => 0

section

variable {a pte : Word} {main : MainMemory} {w w' : World} {i : Fin nrTasks} {p : PageNr}
  {d e : Word} {Q : PUnit → State → Prop} {E : Halt → State → Prop}

theorem leaf_ne {i' : Fin nrTasks} {p' : PageNr} (hne : (i', p') ≠ (i, p)) :
    Ref.leaf i' p'.1 p'.2 ≠ .leaf i p.1 p.2 := by
  intro heq
  simp only [Ref.leaf.injEq] at heq
  exact hne (by rw [Prod.mk.injEq, Prod.ext_iff]; exact heq)

theorem Mapped.refl (hI : w.Inv main) (hupper : w.Upper)
    (he : w.view.entry (.leaf i p.1 p.2) = some e) (hw : e &&& pteW ≠ 0) :
    Mapped main w i p (w.bytesAt i p) w :=
  ⟨hI, rfl, rfl, ⟨e, he, hw⟩, by rw [bytesAt, contents_of_entry he, getD_some],
    fun _ _ _ => rfl, hupper, fun _ _ _ => rfl⟩

theorem Unprotected.mapped (hI : w.Inv main) (hupper : w.Upper)
    (he : w.view.entry (.leaf i p.1 p.2) = some e)
    (h : Unprotected main w (.leaf i p.1 p.2) e w') : Mapped main w i p (w.bytesAt i p) w' := by
  obtain ⟨e', hw, hentry, hbytes⟩ := h.entry
  have hself : w'.view.entry (.leaf i p.1 p.2) = some e' := by rw [hentry, update_self]
  refine ⟨h.inv, h.pgdir, h.held, ⟨e', hself, hw⟩, ?_, fun i' p' hne => ?_,
    hupper.of_keeps h.keeps h.pgdir, fun r _ hne => by rw [hentry, update_of_ne hne]⟩
  · rw [contents_of_entry hself, bytesAt, contents_of_entry he, getD_some, some.injEq]
    exact funext fun o => hbytes o o.isLt
  · refine hI.contents_eq h.keeps ?_
    rw [← view_entry, hentry, update_of_ne (leaf_ne hne)]

/-- A store to a page that is mapped writable: nobody else has it. -/
theorem Mapped.write {bytes : PageBytes} (h : Mapped main w i p bytes w') (acc : Access)
    (new : ℕ → Byte) (he : w'.view.entry (.leaf i p.1 p.2) = some e) (hw : e &&& pteW ≠ 0)
    {mm : State} (hmm : mm = w'.mm.setMem (fillN acc.len w'.mm.mem
      (ptePhys e + .ofNat 32 (pageOffset acc.address)) new)) :
    Mapped main w i p (bytes.write acc new) (w'.setMm mm) := by
  have hdata := h.inv.dataFrame_leaf he
  rw [fillN_within (n := 4096) (by decide) acc.fits] at hmm
  subst hmm
  have hentry := congrFun (h.inv.entry_writeData hdata fun o =>
    if pageOffset acc.address ≤ o ∧ o < pageOffset acc.address + acc.len then
      new (o - pageOffset acc.address)
    else w'.mm.mem (ptePhys e + .ofNat 32 o))
  refine ⟨h.inv.writeData hdata _, h.pgdir, h.held, ⟨e, (hentry _).trans he, hw⟩, ?_,
    fun i' p' hne => ?_, h.inv.upper_writeData h.upper hdata _,
    fun r hr hne => (hentry r).trans (h.leaves r hr hne)⟩
  · refine (h.inv.contents_writeData hdata _ i p).trans ?_
    have hbytes : frameBytes w'.mm.mem (ptePhys e) = bytes :=
      some.inj ((contents_of_entry he).symm.trans h.self)
    rw [he, map_some, if_pos rfl, ← hbytes]
    rfl
  · refine (h.inv.contents_writeData hdata _ i' p').trans ?_
    rw [if_neg, h.other i' p' hne]
    intro hphys
    exact leaf_ne hne (View.Inv.eq_of_exclusive h.inv he hw
      (show w'.view.target (.leaf i' p'.1 p'.2) = _ from hphys))
/-- In `w₁` a frame more is held than in `w`, and all else is the same. -/
structure Fresh (main : MainMemory) (w : World) (n : ℕ) (w₁ : World) : Prop where
  lt : n < pagingPages
  inv : w₁.Inv main
  pgdir : w₁.pgdir = w.pgdir
  held : w₁.held = frame n ::ₘ w.held
  entry : w₁.view.entry = w.view.entry
  keeps : w.Keeps w₁.mm.mem

theorem World.Inv.fresh (hI : w.Inv main) {n : ℕ} (hn : n < pagingPages)
    (hzero : w.mm.memMap n = 0) : Fresh main w n (w.alloc n) :=
  ⟨hn, hI.alloc hn hzero, rfl, rfl, hI.entry_alloc hn hzero,
    (World.Keeps.refl w).fillN hI (hI.scratch_of_free hn hzero)⟩

section

variable {n : ℕ} {w₁ : World}

theorem Fresh.mem_held (h : Fresh main w n w₁) : frame n ∈ w₁.held :=
  h.held ▸ mem_cons_self _ _

theorem Fresh.fill (hI : w.Inv main) (h : Fresh main w n w₁) (hscratch : w.Scratch (frame n))
    (bytes : ℕ → Byte) :
    Fresh main w n (w₁.setMm (w₁.mm.setMem (fillN 4096 w₁.mm.mem (frame n) bytes))) :=
  have hdata := h.inv.dataFrame_held h.mem_held
  ⟨h.lt, h.inv.writeData hdata bytes, h.pgdir, h.held,
    (h.inv.entry_writeData hdata bytes).trans h.entry, h.keeps.fillN hI hscratch⟩

theorem Fresh.exhaust (h : Fresh main w n w₁) : Fresh main w n (w₁.setMm w₁.mm.exhaust) :=
  ⟨h.lt, h.inv, h.pgdir, h.held, h.entry, h.keeps⟩

/-- Giving the frame back. -/
theorem Fresh.wp_freePage (h : Fresh main w n w₁) :
    wp (freePage (frame n)) (fun _ mm => (w.setMm mm).Inv main ∧ mm.mem = w₁.mm.mem ∧
      mm.exhausted = w₁.mm.exhausted) E w₁.mm := by
  refine (h.inv.freePage_held h.mem_held).imp ?_
  rintro _ mm ⟨hinv, hmem, hflag⟩
  refine ⟨?_, hmem, hflag⟩
  have hworld : (w₁.setMm mm).setHeld (w₁.held.erase (frame n)) = w.setMm mm := by
    refine World.ext rfl h.pgdir ?_
    rw [World.setHeld, h.held]
    exact erase_cons_head _ _
  rw [← hworld]
  exact hinv

/-- Mapping the frame where nothing is mapped. -/
theorem Fresh.wp_putPagePgdir (hI : w.Inv main) (hupper : w.Upper) (h : Fresh main w n w₁)
    (hd : w.pgdir i = some d) {a : Word} {Q : Word → State → Prop}
    (hempty : ∀ ha, w.view.entry (userLeaf i a ha) = none) (hfail : userLimit ≤ a → Q 0 w₁.mm)
    (hfull : (∀ ha, w.view.entry (.table i (pageNr a ha).1) = none) →
      (∀ n < pagingPages, w₁.mm.memMap n ≠ 0) → Q 0 w₁.mm.exhaust)
    (hok : ∀ w' ha, Mapped main w i (pageNr a ha) (frameBytes w₁.mm.mem (frame n)) w' →
      (w.view.entry (.table i (pageNr a ha).1) = none → ∃ n < pagingPages, w₁.mm.memMap n = 0) →
      Q (frame n) w'.mm) : wp (putPagePgdir d (frame n) a) Q E w₁.mm := by
  refine h.inv.wp_putPagePgdir (h.pgdir ▸ hd) h.mem_held (fun ha => (congrFun h.entry _).trans
    (hempty ha)) hfail (fun hnone => hfull fun ha => (congrFun h.entry _).symm.trans (hnone ha)) ?_
  intro w' ha hinv hpgdir hheld hentry hkeeps hroom
  have hdata (q : Word) (hq : w.DataFrame q) : w₁.DataFrame q :=
    h.inv.dataFrame_of (w := w) (fun f hf => h.held ▸ mem_cons_of_mem hf)
      (fun _ _ _ e he => ⟨e, (congrFun h.entry _).trans he, rfl⟩) hq
  have hkeeps' : w.Keeps w'.mm.mem := h.keeps.trans hkeeps h.pgdir hdata
  have hpgdir' : w'.pgdir = w.pgdir := hpgdir.trans h.pgdir
  have hself : w'.view.entry (userLeaf i a ha) = some (physPpn (frame n) ||| pteUserRwx) := by
    rw [hentry _ (by simp [userLeaf, Ref.page]), update_self]
  refine hok w' ha ⟨hinv, hpgdir', ?_, ⟨_, hself, ?_⟩, ?_, fun i' p' hne => ?_, hupper.of_keeps
    hkeeps' hpgdir', fun r hr hne => ?_⟩ fun hnone => hroom ((congrFun h.entry _).trans hnone)
  · rw [hheld, h.held]
    exact erase_cons_head _ _
  · rw [physPpn_or_and (by decide)]
    decide
  · rw [contents_of_entry hself, ptePhys_frame h.lt (by decide), some.injEq]
    exact funext fun o => hkeeps.data _ (h.inv.dataFrame_held h.mem_held) o o.isLt
  · refine hI.contents_eq hkeeps' ?_
    rw [← view_entry, hentry _ (by simp [Ref.page]), userLeaf, update_of_ne (leaf_ne hne), h.entry]
  · rw [hentry r hr, userLeaf, update_of_ne hne, h.entry]

end

/-- There are frames for a page at `a`, and for a table if it takes one. -/
def World.FramesFor (w : World) (i : Fin nrTasks) (a : Word) (h : a < userLimit) : Prop :=
  ∃ n < pagingPages, w.mm.memMap n = 0 ∧ (w.view.entry (.table i (pageNr a h).1) = none →
    ∃ n' < pagingPages, n' ≠ n ∧ w.mm.memMap n' = 0)

/-- `get_empty_page` where nothing is mapped. -/
theorem World.Inv.wp_getEmptyPage (hI : w.Inv main) (hupper : w.Upper) (hd : w.pgdir i = some d)
    (h : a < userLimit) (hempty : w.view.entry (userLeaf i a h) = none)
    (hok : ∀ w', Mapped main w i (pageNr a h) (w.bytesAt i (pageNr a h)) w' →
      w.FramesFor i a h → Q ⟨⟩ w'.mm)
    (hexit : ∀ mm : State, (w.setMm mm).Inv main → mm.exhausted = true → ¬ w.FramesFor i a h →
      E (.exit 11) mm) : wp (getEmptyPage d a) Q E w.mm := by
  simp only [getEmptyPage, wp_bind]
  refine wp_getFreePage (fun hall => ?_) fun n hn hzero => ?_
  · simp only [if_true, freePage_zero, wp_bind, wp_pure, wp_throw]
    refine hexit _ hI rfl ?_
    rintro ⟨n, hn, hzero, -⟩
    exact hall n hn hzero
  · have hfresh := hI.fresh hn hzero
    -- what is free besides the frame just taken
    have hcount (n' : ℕ) : (w.alloc n).mm.memMap n' = 0 ↔ n' ≠ n ∧ w.mm.memMap n' = 0 := by
      change update w.mm.memMap n 1 n' = 0 ↔ _
      by_cases hnn : n' = n <;> simp [hnn]
    simp only [frame_ne_zero hn, if_false, wp_bind]
    refine hfresh.wp_putPagePgdir hI hupper hd (fun _ => hempty) (fun hlim => absurd h
      (BitVec.not_lt.mpr hlim)) (fun hnone hall => ?_) fun w' _ hmapped hroom => ?_
    · -- no frame for the table
      simp only [if_true, wp_bind, wp_throw]
      refine hfresh.exhaust.wp_freePage.imp ?_
      rintro _ mm ⟨hinv, -, hflag⟩
      refine hexit mm hinv hflag ?_
      rintro ⟨n₁, hn₁, hzero₁, htwo⟩
      obtain ⟨n₂, hn₂, hne, hzero₂⟩ := htwo (hnone h)
      by_cases hnn : n₁ = n
      · exact hall n₂ hn₂ ((hcount n₂).mpr ⟨hnn ▸ hne, hzero₂⟩)
      · exact hall n₁ hn₁ ((hcount n₁).mpr ⟨hnn, hzero₁⟩)
    · simp only [frame_ne_zero hn, if_false, wp_pure]
      have hzeros : frameBytes (w.alloc n).mm.mem (frame n) = w.bytesAt i (pageNr a h) := by
        rw [bytesAt, contents_of_none hempty, Option.getD_none]
        exact funext fun o => fillN_apply_self o.isLt
      refine hok w' (hzeros ▸ hmapped) ⟨n, hn, hzero, fun hnone => ?_⟩
      obtain ⟨n', hn', hzero'⟩ := hroom hnone
      exact ⟨n', hn', (hcount n').mp hzero'⟩

/-- `pte_lookup` of a user address in a task's directory. -/
theorem World.Inv.wp_pteLookup (hI : w.Inv main) (hd : w.pgdir i = some d)
    {Q : Option (Word × ℕ) → State → Prop} (h : a < userLimit)
    (hnone : w.view.entry (.table i (pageNr a h).1) = none → Q none w.mm)
    (hsome : ∀ et, w.view.entry (.table i (pageNr a h).1) = some et →
      Q (some (ptePhys et, tableIndex a)) w.mm) : wp (pteLookup d a) Q E w.mm := by
  have htable := entries_table (μ := w.mm.mem) hd (pageNr a h).1
  obtain ⟨n, hn, rfl⟩ := hI.isFrame_dir hd
  simp only [pteLookup, frame_ne_zero hn, if_false, wp_bind, wp_readWord]
  by_cases hv : word w.mm.mem (frame n) (dirIndex a) &&& pteV = 0
  · rw [if_pos hv, wp_pure]
    exact hnone (htable.trans (entryAt_eq_none_iff.mpr hv))
  · rw [if_neg hv, wp_pure]
    exact hsome _ (htable.trans (validEntry_of_valid hv))

/-- A fault at a user address that is not mapped. -/
theorem World.Inv.wp_pageFaultHandler_of_empty (hI : w.Inv main) (hupper : w.Upper)
    (hd : w.pgdir i = some d) (h : a < userLimit) (hempty : w.view.entry (userLeaf i a h) = none)
    (hok : ∀ w', Mapped main w i (pageNr a h) (w.bytesAt i (pageNr a h)) w' →
      w.FramesFor i a h → Q ⟨⟩ w'.mm)
    (hexit : ∀ mm : State, (w.setMm mm).Inv main → mm.exhausted = true → ¬ w.FramesFor i a h →
      E (.exit 11) mm) : wp (pageFaultHandler true d a) Q E w.mm := by
  have h' := page_lt_userLimit h
  have hnr : pageNr (a &&& 0xfffff000) h' = pageNr a h := pageNr_page h h'
  have hlim : ¬ userLimit ≤ a := BitVec.not_le.mpr h
  have hmapped : w.view.entry (userLeaf i (a &&& 0xfffff000) h') = none :=
    (congrArg _ (userLeaf_page i h h')).trans hempty
  have hframes : w.FramesFor i (a &&& 0xfffff000) h' ↔ w.FramesFor i a h := by
    rw [World.FramesFor, hnr, World.FramesFor]
  have hnopage : wp (doNoPage d (a &&& 0xfffff000)) Q E w.mm := by
    rw [doNoPage, page_page]
    refine hI.wp_getEmptyPage hupper hd h' hmapped (fun w' hw' hfit => ?_)
      fun mm hinv hflag hnot => hexit mm hinv hflag (mt hframes.mpr hnot)
    rw [hnr] at hw'
    exact hok w' hw' (hframes.mp hfit)
  simp only [pageFaultHandler, hlim, Bool.not_true, Bool.false_eq_true, or_self, if_false, wp_bind]
  refine hI.wp_pteLookup hd h' (fun _ => hnopage) fun et het => ?_
  simp only [wp_bind, wp_readWord]
  have hleaf : w.view.entry (userLeaf i (a &&& 0xfffff000) h') =
      entryAt w.mm.mem (ptePhys et) (tableIndex (a &&& 0xfffff000)) := entries_leaf het _
  have hv : word w.mm.mem (ptePhys et) (tableIndex (a &&& 0xfffff000)) &&& pteV = 0 :=
    entryAt_eq_none_iff.mp (hleaf.symm.trans hmapped)
  have hno : isWriteProtected (word w.mm.mem (ptePhys et) (tableIndex (a &&& 0xfffff000))) =
      false := decide_eq_false fun hprot => hprot.1 hv
  rw [hno]
  exact hnopage

/-- `pte_lookup` of the page of a mapped user address finds its entry. -/
theorem World.Inv.wp_pteLookup_mapped (hI : w.Inv main) (hd : w.pgdir i = some d)
    {Q : Option (Word × ℕ) → State → Prop} (h : a < userLimit)
    (hsome : w.view.entry (userLeaf i a h) = some pte)
    (hfound : ∀ et, w.view.entry (.table i (pageNr a h).1) = some et →
      word w.mm.mem (ptePhys et) (tableIndex a) = pte → pte &&& pteV ≠ 0 →
      Q (some (ptePhys et, tableIndex a)) w.mm) : wp (pteLookup d a) Q E w.mm := by
  refine hI.wp_pteLookup hd h (fun hnone => ?_) fun et het => ?_
  · have hleaf : w.view.entry (userLeaf i a h) = none := entries_leaf_of_none hnone _
    cases hsome.symm.trans hleaf
  · have hleaf : w.view.entry (userLeaf i a h) = entryAt w.mm.mem (ptePhys et) (tableIndex a) :=
      entries_leaf het _
    obtain ⟨hword, hv⟩ := entryAt_eq_some (hleaf.symm.trans hsome)
    exact hfound et het hword hv

/-- A fault at a mapped user address: the `W` bit alone decides. -/
theorem World.Inv.wp_pageFaultHandler_of_mapped (hI : w.Inv main) (hd : w.pgdir i = some d)
    (h : a < userLimit) (hsome : w.view.entry (userLeaf i a h) = some pte)
    (hprot : pte &&& pteW = 0 → wp (doWpPage d (a &&& 0xfffff000)) Q E w.mm)
    (hno : pte &&& pteW ≠ 0 → wp (doNoPage d (a &&& 0xfffff000)) Q E w.mm) :
    wp (pageFaultHandler true d a) Q E w.mm := by
  have h' := page_lt_userLimit h
  have hlim : ¬ userLimit ≤ a := BitVec.not_le.mpr h
  have hmapped : w.view.entry (userLeaf i (a &&& 0xfffff000) h') = some pte :=
    (congrArg _ (userLeaf_page i h h')).trans hsome
  simp only [pageFaultHandler, hlim, Bool.not_true, Bool.false_eq_true, or_self, if_false, wp_bind]
  refine hI.wp_pteLookup_mapped hd h' hmapped fun et _ hword hv => ?_
  simp only [wp_bind, wp_readWord, hword, isWriteProtected, hv, true_and, ne_eq, not_false_eq_true,
    decide_eq_true_eq]
  split
  · rename_i hw
    exact hprot hw
  · rename_i hw
    exact hno hw

/-- A fault at a user address that is mapped write protected. -/
theorem World.Inv.wp_pageFaultHandler_of_protected (hI : w.Inv main) (hd : w.pgdir i = some d)
    (h : a < userLimit) (hsome : w.view.entry (userLeaf i a h) = some pte)
    (hprot : pte &&& pteW = 0) (hok : ∀ w', Unprotected main w (userLeaf i a h) pte w' → Q ⟨⟩ w'.mm)
    (hexit : E (.exit 11) w.mm.exhaust) : wp (pageFaultHandler true d a) Q E w.mm := by
  refine hI.wp_pageFaultHandler_of_mapped hd h hsome (fun _ => ?_) fun hw => absurd hprot hw
  have h' := page_lt_userLimit h
  have hleaf := userLeaf_page i h h'
  have hmapped : w.view.entry (userLeaf i (a &&& 0xfffff000) h') = some pte :=
    (congrArg _ hleaf).trans hsome
  rw [doWpPage, wp_bind]
  refine hI.wp_pteLookup_mapped hd h' hmapped fun et het hword hv => ?_
  simp only [wp_bind, wp_readWord, hword, isWriteProtected, hv, hprot, and_self, ne_eq,
    not_false_eq_true, decide_true, if_true]
  exact hI.wp_unWpPage (j := ⟨tableIndex (a &&& 0xfffff000), tableIndex_lt _⟩) het hmapped
    (fun w' hw' => hok w' (hleaf ▸ hw')) hexit

/-- A store fault at a user address that is not mapped writable. -/
theorem World.Inv.wp_pageFaultHandler (hI : w.Inv main) (hupper : w.Upper) (hd : w.pgdir i = some d)
    (h : a < userLimit) (hprot : ∀ e, w.view.entry (userLeaf i a h) = some e → e &&& pteW = 0)
    (hok : ∀ w', Mapped main w i (pageNr a h) (w.bytesAt i (pageNr a h)) w' → Q ⟨⟩ w'.mm)
    (hexit : ∀ mm : State, (w.setMm mm).Inv main → mm.exhausted = true → E (.exit 11) mm) :
    wp (pageFaultHandler true d a) Q E w.mm := by
  cases hsome : w.view.entry (userLeaf i a h) with
  | none =>
    exact hI.wp_pageFaultHandler_of_empty hupper hd h hsome (fun w' hw' _ => hok w' hw')
      fun mm hinv hflag _ => hexit mm hinv hflag
  | some pte =>
    exact hI.wp_pageFaultHandler_of_protected hd h hsome (hprot pte hsome)
      (fun w' hw' => hok w' (hw'.mapped hI hupper hsome)) (hexit _ hI rfl)

end

/-! ### A directory for a new task -/

/-- Frame `n` has been taken for the structure of task `i` and frame `n'` for
its directory, which has been cleared. -/
def World.newSpace (w : World) (i : Fin nrTasks) (n n' : ℕ) : World where
  mm := ((w.alloc n).alloc n').mm.setMem
    (fillN 4096 ((w.alloc n).alloc n').mm.mem (frame n') fun _ => 0)
  pgdir := update w.pgdir i (some (frame n'))
  held := frame n ::ₘ w.held

section

variable {main : MainMemory} {w : World} {i : Fin nrTasks} {n n' : ℕ} (hI : w.Inv main)
  (hnone : w.pgdir i = none) (hn : n < pagingPages) (hzero : w.mm.memMap n = 0)
  (hn' : n' < pagingPages) (hzero' : (w.alloc n).mm.memMap n' = 0)

include hzero' in
/-- The second frame was free from the start. -/
theorem World.free_of_alloc : n' ≠ n ∧ w.mm.memMap n' = 0 := by
  have hne : n' ≠ n := by
    rintro rfl
    rw [show (w.alloc n').mm.memMap n' = 1 from update_self ..] at hzero'
    exact absurd hzero' (by decide)
  exact ⟨hne, (update_of_ne hne _ _).symm.trans hzero'⟩

include hI hn hzero hn' hzero'

theorem World.Inv.keeps_newSpace : w.Keeps (w.newSpace i n n').mm.mem := by
  have hscratch := hI.scratch_of_free hn' (free_of_alloc hzero').2
  exact (((World.Keeps.refl _).fillN hI (hI.scratch_of_free hn hzero)).fillN hI hscratch).fillN hI
    hscratch

theorem World.Inv.upper_newSpace (hupper : w.Upper) : (w.newSpace i n n').Upper := by
  intro i' d k hd hlow hk
  by_cases hi : i' = i
  · subst hi
    have hself : update w.pgdir i' (some (frame n')) i' = some d := hd
    rw [update_self, some.injEq] at hself
    rw [← hself]
    exact word_fillN_zero hk
  · have hd' : w.pgdir i' = some d := (update_of_ne hi _ w.pgdir).symm.trans hd
    exact ((hI.keeps_newSpace (i := i) hn hzero hn' hzero').upper i' d k hd' hlow hk).trans
      (hupper i' d k hd' hlow hk)

include hnone

theorem World.Inv.newSpace : (w.newSpace i n n').Inv main := by
  have hI₁ := hI.alloc hn hzero
  have hdir := (hI₁.alloc hn' hzero').newDirectory hnone (hI₁.fresh hn' hzero').mem_held
  rw [World.alloc, erase_cons_head] at hdir
  exact hdir

theorem World.Inv.entry_newSpace : (w.newSpace i n n').view.entry =
    update w.view.entry (.dir i) (some (frame n')) := by
  have hI₁ := hI.alloc hn hzero
  have hentry := (hI₁.entry_alloc hn' hzero').trans (hI.entry_alloc hn hzero)
  rw [← hentry]
  exact (hI₁.alloc hn' hzero').entry_newDirectory hnone (hI₁.fresh hn' hzero').mem_held

theorem World.Inv.contents_newSpace : (w.newSpace i n n').contents = w.contents := by
  funext i' p
  refine hI.contents_eq (hI.keeps_newSpace hn hzero hn' hzero') (congrArg _ ?_)
  refine (congrFun (hI.entry_newSpace hnone hn hzero hn' hzero') (.leaf i' p.1 p.2)).trans ?_
  rw [update_of_ne (by simp)]

theorem World.Inv.table_newSpace (k : Fin userPgdEntries) :
    (w.newSpace i n n').view.entry (.table i k) = none := by
  rw [hI.entry_newSpace hnone hn hzero hn' hzero', update_of_ne (by simp)]
  simp [view, entries, hnone]

end

/-! ### Building an address space

A free frame can be made the directory of a task, a table or a page. -/

/-- `w'` has the entry `x` at `r`, on the frame `n` that was free in `w`. -/
structure Built (main : MainMemory) (w : World) (r : Ref) (x : Word) (n : ℕ) (w' : World) :
    Prop where
  inv : w'.Inv main
  upper : w'.Upper
  held : w'.held = w.held
  entry : w'.view.entry = update w.view.entry r (some x)
  memMap : w'.mm.memMap = update w.mm.memMap n 1

section

variable {k : Fin userPgdEntries} {main : MainMemory} {w : World} {i : Fin nrTasks} {n : ℕ}
  (hI : w.Inv main) (hupper : w.Upper) (hn : n < pagingPages) (hzero : w.mm.memMap n = 0)

include hI hupper hn hzero

theorem World.Inv.exists_directory (hnone : w.pgdir i = none) :
    ∃ w', Built main w (.dir i) (frame n) n w' ∧ w'.pgdir = update w.pgdir i (some (frame n)) := by
  have hfresh := hI.fresh hn hzero
  have hdir := hfresh.inv.newDirectory (i := i) hnone hfresh.mem_held
  refine ⟨_, ⟨hdir, ?_, erase_cons_head _ _, ?_, rfl⟩, rfl⟩
  · exact hfresh.inv.upper_newDirectory (hupper.of_keeps hfresh.keeps rfl) hfresh.mem_held _
  · exact (hfresh.inv.entry_newDirectory hnone hfresh.mem_held).trans (by rw [hfresh.entry])

theorem World.Inv.exists_table {d : Word} (hd : w.pgdir i = some d)
    (hempty : w.view.entry (.table i k) = none) :
    ∃ w', Built main w (.table i k) (physPpn (frame n) ||| pteV) n w' ∧ w'.pgdir = w.pgdir := by
  have hfresh := hI.fresh hn hzero
  obtain ⟨hinv, hentry⟩ := hfresh.inv.place_table hd ((congrFun hfresh.entry _).trans hempty) hn
    hfresh.mem_held fun j hj => word_alloc hj
  refine ⟨_, ⟨hinv, ?_, erase_cons_head _ _, ?_, rfl⟩, rfl⟩
  · exact hupper.of_keeps (hfresh.keeps.setWord_dir hI hd k) rfl
  · exact hentry.trans (by rw [hfresh.entry])

theorem World.Inv.exists_leaf {j : Fin ptrsPerPage} {et x : Word}
    (het : w.view.entry (.table i k) = some et) (hempty : w.view.entry (.leaf i k j) = none)
    (hphys : ptePhys x = frame n) (hx : x &&& pteUserMask = pteUserBits) :
    ∃ w', Built main w (.leaf i k j) x n w' ∧ w'.pgdir = w.pgdir := by
  have hfresh := hI.fresh hn hzero
  have hnone := (congrFun hfresh.entry _).trans hempty
  obtain ⟨hinv, hentry⟩ := hfresh.inv.store_leaf ((congrFun hfresh.entry _).trans het)
    (fun e he => nomatch hnone.symm.trans he) (hphys ▸ hfresh.mem_held) hx
  rw [lost_of_none hnone, zero_add, hphys] at hinv
  refine ⟨_, ⟨hinv, ?_, erase_cons_head _ _, ?_, rfl⟩, rfl⟩
  · exact hupper.of_keeps (hfresh.keeps.setWord hI (hI.scratch_table het) j.isLt) rfl
  · exact hentry.trans (by rw [hfresh.entry])

theorem World.Inv.exists_page {j : Fin ptrsPerPage} {et : Word}
    (het : w.view.entry (.table i k) = some et) (hempty : w.view.entry (.leaf i k j) = none) :
    ∃ w', Built main w (.leaf i k j) (physPpn (frame n) ||| pteUserRwx) n w' ∧ w'.pgdir = w.pgdir :=
  hI.exists_leaf hupper hn hzero het hempty (ptePhys_frame hn (by decide))
    (physPpn_or_and (by decide))

end

instance : NeZero nrTasks := ⟨by decide⟩
instance : NeZero userPgdEntries := ⟨by decide⟩
instance : NeZero ptrsPerPage := ⟨by decide⟩

/-- Task 0 with a directory and one table, in 128 MiB of RAM. -/
structure OneTable (w : World) : Prop where
  inv : w.Inv mainFrom4M
  upper : w.Upper
  dir : w.pgdir 0 = some (frame 1024)
  table : w.view.entry (.table 0 0) = some (physPpn (frame 1025) ||| pteV)
  leaf : ∀ i k j, w.view.entry (.leaf i k j) = none
  others : ∀ i, i ≠ 0 → w.pgdir i = none
  free : ∀ n, 1026 ≤ n → n < pagingPages → w.mm.memMap n = 0

theorem mainFrom4M_has {n : ℕ} (h : 1024 ≤ n) (hn : n < pagingPages) : mainFrom4M.Has n := by
  simp only [MainMemory.Has, mainFrom4M, pagingPages] at *
  constructor <;> simp <;> omega

theorem exists_oneTable : ∃ w, OneTable w := by
  obtain ⟨s, hrun⟩ := memInit_ok mainFrom4M ⟨fun _ => 0, fun _ => 0, false⟩
  obtain ⟨-, hfree, -⟩ := (wp_memInit mainFrom4M (E := fun _ _ => True)).of_ok hrun
  have hboot := boot_inv hrun
  set w₀ : World := ⟨s, fun _ => none, 0⟩
  have hentry (r : Ref) : w₀.view.entry r = none := by cases r <;> rfl
  have hupper : w₀.Upper := fun i d k hd => by cases hd
  obtain ⟨w₁, h₁, hdir⟩ := hboot.exists_directory (i := 0) hupper (n := 1024) (by decide)
    (hfree _ (mainFrom4M_has le_rfl (by decide))) rfl
  have hd : w₁.pgdir 0 = some (frame 1024) := by rw [hdir, update_self]
  obtain ⟨w₂, h₂, hdir'⟩ := h₁.inv.exists_table (k := 0) h₁.upper (n := 1025) (by decide)
    (by rw [h₁.memMap]; exact hfree _ (mainFrom4M_has (by decide) (by decide))) hd
    (by rw [h₁.entry]; exact hentry _)
  refine ⟨w₂, h₂.inv, h₂.upper, hdir' ▸ hd, ?_, fun i k j => ?_, fun i hi => ?_, fun n hn hlt => ?_⟩
  · rw [h₂.entry, update_self]
  · rw [h₂.entry, h₁.entry]
    exact hentry _
  · rw [hdir', hdir, update_of_ne hi]
  · rw [h₂.memMap, h₁.memMap, update_of_ne (by omega), update_of_ne (by omega)]
    exact hfree _ (mainFrom4M_has (by omega) hlt)

end LinuxRv.Mm
