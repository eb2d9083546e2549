import LinuxRv.Proc.ArgStrings

/-!
The memory of a new program.

`do_execve` maps the argument pages below the top of user memory, and then the
segments of the file, in the order of their headers and each one over what is
there. What the program sees is computed from the area of the strings and from
the file alone.
-/

namespace LinuxRv.Proc

open ByteMemory Prog Fs Minix Mm PageArea Function List Nat Set

/-! ### The view -/

/-- An area from `STACK_BASE` on, over another view. -/
def argView (A : Area Byte) (V : UserView) : UserView := fun b =>
  (if stackBase.toNat ≤ b.toNat then A (b.toNat - stackBase.toNat) else none).or (V b)

/-- What `load_segment` puts at the address `b`. -/
def Phdr.byteAt (ph : Phdr) (rd : RamDisk) (s : Fs) (ip : Ino) (b : Word) : Byte :=
  let vaddr := b &&& 0xfffff000
  if ph.foff vaddr < ph.fileEnd then
    (fileBytes rd s ip 4096 (ph.foff vaddr) (ph.readLen vaddr)).2.getD (b.toNat % 4096) 0
  else 0

/-- The pages with `n` numbers from `m` on hold a segment. -/
def segmentView (rd : RamDisk) (s : Fs) (ip : Ino) (ph : Phdr) (m n : ℕ) (V : UserView) :
    UserView := fun b =>
  if m ≤ b.toNat / 4096 ∧ b.toNat / 4096 < m + n then some (ph.byteAt rd s ip b) else V b

/-- The first `i` program headers. -/
def imageView (rd : RamDisk) (s : Fs) (ip : Ino) (phoff : Word) (V : UserView) : ℕ → UserView
  | 0 => V
  | i + 1 =>
    let V' := imageView rd s ip phoff V i
    match phdrAt rd s ip phoff i with
    | none => V'
    | some ph =>
      if ph.Loads then segmentView rd s ip ph (ph.first.toNat / 4096) ph.pageCount V' else V'

section

variable {main : MainMemory} {w₀ : World} {j : Fin nrTasks} {d : Word} {V : UserView} {m : Mm.State}
  {s₁ s : Fs} {rd : RamDisk} {ip : Ino} {E : Minix.Halt → Fs → Prop} {own lost : Multiset Word}
  {pages : Set ℕ} {page : Fin maxArgPages → Word} {n : ℕ} {ph : Phdr} {phoff vaddr : Word}
  {i phnum : ℕ}

/-- The directory is under construction, and everything taken is mapped. -/
def ShowsIn (main : MainMemory) (w₀ : World) (j : Fin nrTasks) (s₁ : Fs) (d : Word)
    (V : UserView) (s : Fs) : Prop :=
  WithMm s₁ (Showing main w₀ j d 0 V) s

/-! ### Argument pages -/

/-- Mapping a page of the area takes it out of the area. -/
theorem argView_mapPage {page : Fin maxArgPages → Word} {m' : Mm.State} (i : Fin maxArgPages)
    (h0 : page i ≠ 0) (hsame : ∀ q ∈ argOwn (update page i 0), SameBytes m.mem m'.mem q) :
    argView (argArea m' (update page i 0))
        (V.mapPage (stackBase + 4096 * .ofNat 32 i) (frameBytes m.mem (page i))) =
      argView (argArea m page) V := by
  have hbase := toNat_stackBase
  have hlt := i.isLt
  funext b
  rw [argView, argView, UserView.mapPage, stackPage_toNat]
  by_cases hb : stackBase.toNat ≤ b.toNat
  · rw [if_pos hb, if_pos hb]
    by_cases hi : (b.toNat - stackBase.toNat) / 4096 = i
    · have hpage : (b.toNat - stackBase.toNat) / 4096 < maxArgPages := hi ▸ hlt
      have hi' : (⟨(b.toNat - stackBase.toNat) / 4096, hpage⟩ : Fin maxArgPages) = i := Fin.ext hi
      have hnone : argArea m' (update page i 0) (b.toNat - stackBase.toNat) = none := by
        rw [argArea_eq_none hpage, hi', update_self]
      rw [hnone, Option.none_or, if_pos (by omega), argArea, dif_pos hpage, hi', if_neg h0,
        Option.some_or]
      refine congrArg some (congrArg m.mem ?_)
      show page i + .ofNat 32 (b.toNat % 4096) = _
      rw [show (b.toNat - stackBase.toNat) % 4096 = b.toNat % 4096 by omega]
    · rw [if_neg (by omega)]
      congr 1
      rw [argArea, argArea]
      by_cases hpage : (b.toNat - stackBase.toNat) / 4096 < maxArgPages
      · rw [dif_pos hpage, dif_pos hpage, update_of_ne fun he => hi (Fin.val_eq_of_eq he)]
        split
        · rfl
        · next hne =>
          refine congrArg some (hsame _ ?_ _ (mod_lt _ (by decide)))
          have hne' : update page i 0 ⟨_, hpage⟩ ≠ 0 := by
            rwa [update_of_ne fun he => hi (Fin.val_eq_of_eq he)]
          have hmem := mem_argOwn hne'
          rwa [update_of_ne fun he => hi (Fin.val_eq_of_eq he)] at hmem
      · rw [dif_neg hpage, dif_neg hpage]
  · rw [if_neg hb, if_neg hb, if_neg (by omega)]

theorem argView_none {page : Fin maxArgPages → Word} (hzero : ∀ i, page i = 0) :
    argView (argArea m page) V = V := by
  funext b
  have hnone (x : ℕ) : argArea m page x = none := by
    unfold argArea
    split
    · rw [if_pos (hzero _)]
    · rfl
  rw [argView, hnone, ite_self, Option.none_or]

/-- The pages are mapped with at most one frame more for each. -/
theorem wp_putArgPages {l : List (Fin maxArgPages)} (hnodup : l.Nodup) (hout : ∀ i ∉ l, page i = 0)
    (hstack : pages ⊆ stackPages) (hfree : ∀ i ∈ l, stackBase.toNat / 4096 + i.1 ∉ pages)
    (h : SpareSpace main w₀ j (some d) (argOwn page) pages m) : wp (putArgPages d page l)
      (fun r s' => ∃ m' pages', s' = { s₁ with mm := m' } ∧ pages' ⊆ stackPages ∧
        SpareSpace main w₀ j (some d) (argOwn r.2) pages' m' ∧
        (r.1 = true → argOwn r.2 = 0 ∧ freeFrames m.memMap ≤ freeFrames m'.memMap + l.length ∧
          userByte m'.mem d = argView (argArea m page) (userByte m.mem d)) ∧
        (r.1 = false → freeFrames m.memMap < l.length)) E { s₁ with mm := m } := by
  induction l generalizing page pages m with
  | nil =>
    have hzero (i : Fin maxArgPages) : page i = 0 := hout i not_mem_nil
    refine wp_pure.mpr ⟨m, pages, rfl, hstack, h, fun _ => ⟨?_, Nat.le_add_right .., ?_⟩, nofun⟩
    · exact (congrArg argOwn (funext hzero)).trans argOwn_zero
    · exact (argView_none hzero).symm
  | cons i l ih =>
    obtain ⟨hi, hl⟩ := nodup_cons.mp hnodup
    rw [length_cons]
    refine wp_ite.mpr ⟨fun h0 => ?_, fun h0 => ?_⟩
    · refine (ih hl (fun i' hi' => ?_) hstack (fun i' hi' => hfree i' (.tail _ hi')) h).imp
        fun r s' ⟨m', pages', hs, hsub, h', hok, hfail⟩ => ⟨m', pages', hs, hsub, h', fun hr => ?_,
          fun hr => (hfail hr).trans (Nat.lt_succ_self _)⟩
      · by_cases he : i' = i
        · rw [he, h0]
        · exact hout i' (by simp [he, hi'])
      · obtain ⟨hown, hcost, hview⟩ := hok hr
        exact ⟨hown, hcost.trans (Nat.le_succ _), hview⟩
    have hown := argOwn_clear h0
    rw [hown] at h
    rw [wp_bind, Minix.wp_liftMm]
    refine h.wp_putPage.imp fun r m₁ h₁ => wp_ite.mpr ⟨fun hr => ?_, fun hr => ?_⟩
    · have hlim : stackBase + 4096 * .ofNat 32 i < userLimit := by
        have hlt : i.1 < 32 := i.isLt
        have hpage := stackPage_toNat i
        have hbase := toNat_stackBase
        rw [BitVec.lt_def, show userLimit.toNat = 524288 * 4096 from rfl]
        omega
      rw [if_pos hr, ← hown] at h₁
      refine wp_pure.mpr ⟨m₁, pages, rfl, hstack, h₁.1, nofun, fun _ => ?_⟩
      rw [h₁.2 hlim]
      exact Nat.succ_pos _
    · rw [if_neg hr, stackPage_toNat] at h₁
      obtain ⟨hsame, hcost, hview, lost, hlost, h₁⟩ := h₁
      rw [hlost.mpr (hfree i (.head _)), zero_add] at h₁
      have hsub : insert (stackBase.toNat / 4096 + i.1) pages ⊆ stackPages :=
        insert_subset (Nat.le_add_right ..) hstack
      refine (ih hl (fun i' hi' => ?_) hsub (fun i' hi' => ?_) h₁).imp
        fun r s' ⟨m', pages', hs, hsub, h', hok, hfail⟩ => ⟨m', pages', hs, hsub, h', fun hr => ?_,
          fun hr => by have := hfail hr; omega⟩
      · by_cases he : i' = i
        · rw [he, update_self]
        · rw [update_of_ne he]
          exact hout i' (by simp [he, hi'])
      · have hne : i'.1 ≠ i.1 := fun he => hi (Fin.ext he ▸ hi')
        simp only [mem_insert_iff, not_or]
        exact ⟨by omega, hfree i' (.tail _ hi')⟩
      · obtain ⟨hown, hcost', hview'⟩ := hok hr
        rw [hview, argView_mapPage i h0 hsame] at hview'
        exact ⟨hown, by omega, hview'⟩

/-! ### Segments -/

theorem and_page_of_aligned {b : Word} (haligned : vaddr.toNat % 4096 = 0)
    (hb : b.toNat / 4096 = vaddr.toNat / 4096) : b &&& 0xfffff000 = vaddr := by
  apply BitVec.eq_of_toNat_eq
  rw [toNat_page]
  omega

/-- The page at `vaddr` with what `load_segment` has read into its frame. -/
theorem mapPage_segment {bytes : PageBytes} {n : ℕ}
    (hbytes : ∀ b : Word, b.toNat / 4096 = vaddr.toNat / 4096 →
      bytes ⟨b.toNat % 4096, mod_lt _ (by decide)⟩ = ph.byteAt rd s₁ ip b) :
    segmentView rd s₁ ip ph (vaddr.toNat / 4096 + 1) n (V.mapPage vaddr bytes) =
      segmentView rd s₁ ip ph (vaddr.toNat / 4096) (n + 1) V := by
  funext b
  rw [segmentView, segmentView, UserView.mapPage]
  by_cases hb : b.toNat / 4096 = vaddr.toNat / 4096
  · rw [if_neg (by omega), if_pos hb, if_pos (by omega), hbytes b hb]
  · rw [if_neg hb]
    exact if_congr (by omega) rfl rfl

/-- A list of bytes written to a page of zeros. -/
theorem frameBytes_fillN {μ : Mem} {page : Word} {bytes : List Byte}
    (hzero : frameBytes μ page = fun _ => 0) (o : Fin 4096) :
    frameBytes (fillN bytes.length μ page fun i => bytes.getD i 0) page o = bytes.getD o 0 := by
  have hsub : (page + .ofNat 32 o - page).toNat = o :=
    toNat_add_ofNat_sub_self page (by omega)
  show fillN _ _ _ _ (page + .ofNat 32 o) = _
  by_cases ho : o.1 < bytes.length
  · rw [fillN_of_lt (by rwa [hsub]), hsub]
  · rw [fillN_of_le (by rw [hsub]; omega), getD_eq_getElem?_getD,
      getElem?_eq_none (not_lt.mp ho)]
    exact congrFun hzero o

/-- What the page at `vaddr` has of the file has been read. -/
def Phdr.Found (ph : Phdr) (rd : RamDisk) (s : Fs) (ip : Ino) (vaddr : Word) : Prop :=
  ph.foff vaddr < ph.fileEnd → (fileBytes rd s ip 4096 (ph.foff vaddr) (ph.readLen vaddr)).1 = true

/-- What the page at `vaddr` has of the file can be read. -/
def Phdr.Readable (ph : Phdr) (rd : RamDisk) (s : Fs) (ip : Ino) (vaddr : Word) : Prop :=
  ph.foff vaddr < ph.fileEnd → FileRange (ph.foff vaddr) (ph.readLen vaddr) ∧
    (fileBytes rd s ip 4096 (ph.foff vaddr) (ph.readLen vaddr)).1 = true

/-- The `n` pages from `vaddr` on, if they have been loaded. They are if the file
can be read and there are two frames for each page, one for a table. -/
structure Filled (rd : RamDisk) (s₁ : Fs) (ip : Ino) (ph : Phdr) (d vaddr : Word) (n : ℕ)
    (m : Mm.State) (ok : Bool) (s : Fs) : Prop where
  found : ok = true → ∀ k < n, ph.Found rd s₁ ip (vaddr + .ofNat 32 (4096 * k))
  view : ok = true → userByte s.mm.mem d =
    segmentView rd s₁ ip ph (vaddr.toNat / 4096) n (userByte m.mem d)
  room : (∀ k < n, ph.Readable rd s₁ ip (vaddr + .ofNat 32 (4096 * k))) →
    ∀ f, f + 2 * n ≤ freeFrames m.memMap → ok = true ∧ f ≤ freeFrames s.mm.memMap

theorem Filled.failed (h : (∀ k < n, ph.Readable rd s₁ ip (vaddr + .ofNat 32 (4096 * k))) →
      freeFrames m.memMap < 2 * n) : Filled rd s₁ ip ph d vaddr n m false s :=
  ⟨nofun, nofun, fun hread f hf => by have := h hread; omega⟩

theorem wp_loadPages (haligned : vaddr.toNat % 4096 = 0) (hlim : vaddr.toNat + 4096 * n ≤ 2 ^ 31)
    (hread : ∀ k < n, ph.Reads E (vaddr + .ofNat 32 (4096 * k)))
    (h : SpareSpace main w₀ j (some d) own pages m) : wp (loadPages rd ip ph d n vaddr)
      (fun ok s' => Loaded main w₀ j s₁ d own pages (pageRun (vaddr.toNat / 4096) n) ok s' ∧
        Filled rd s₁ ip ph d vaddr n m ok s') E { s₁ with mm := m } := by
  induction n generalizing vaddr own pages m with
  | zero =>
    have hnone : pageRun (vaddr.toNat / 4096) 0 = ∅ :=
      eq_empty_of_forall_notMem fun k hk => absurd hk.2 (not_lt.mpr hk.1)
    rw [hnone]
    refine wp_pure.mpr ⟨⟨0, pages, ⟨m, rfl, by rwa [zero_add]⟩, subset_union_left,
      fun _ => rfl, fun _ => ⟨(union_empty _).symm, fun _ => empty_disjoint _⟩⟩,
      fun _ k hk => absurd hk (not_lt_zero k), fun _ => ?_, fun _ f hf => ⟨rfl, hf⟩⟩
    exact (funext fun b => if_neg (by omega)).symm
  | succ n ih =>
    have huser : vaddr.toNat + 4096 ≤ 2 ^ 31 :=
      (Nat.add_le_add_left (Nat.le_mul_of_pos_right 4096 (succ_pos n)) _).trans hlim
    have hnext : (vaddr + 4096).toNat = vaddr.toNat + 4096 := by
      rw [BitVec.toNat_add, toNat_pageSize]
      exact mod_eq_of_lt (huser.trans_lt (by decide))
    have hlt : vaddr < userLimit := BitVec.lt_def.mpr (by
      show vaddr.toNat < 2 ^ 31
      omega)
    have hzeroth : vaddr + .ofNat 32 (4096 * 0) = vaddr := BitVec.add_zero vaddr
    have hsucc (k : ℕ) : vaddr + .ofNat 32 (4096 * (k + 1)) =
        vaddr + 4096 + .ofNat 32 (4096 * k) := by
      rw [mul_succ, Nat.add_comm, ← offset_add]
      rfl
    rw [loadPages, wp_bind, Minix.wp_liftMm]
    refine h.wp_getFreePage.imp fun page m₁ ⟨_, _, hview₁, h₁⟩ => wp_ite.mpr
      ⟨fun h0 => ?_, fun h0 => ?_⟩
    · rw [if_pos h0] at h₁
      exact wp_pure.mpr ⟨.of_building ⟨m₁, rfl, h₁.1⟩, .failed fun _ => by omega⟩
    rw [if_neg h0] at h₁
    obtain ⟨h₁, hzero, hfree₁⟩ := h₁
    have hgive {m₂ : Mm.State} (h₂ : SpareSpace main w₀ j (some d) (page ::ₘ own) pages m₂)
        (hroom : (∀ k < n + 1, ph.Readable rd s₁ ip (vaddr + .ofNat 32 (4096 * k))) →
          freeFrames m.memMap < 2 * (n + 1)) :
        wp (do Minix.liftMm (Mm.freePage page); return false) (fun ok s' => Loaded main w₀ j s₁ d
          own pages (pageRun (vaddr.toNat / 4096) (n + 1)) ok s' ∧
          Filled rd s₁ ip ph d vaddr (n + 1) m ok s') E { s₁ with mm := m₂ } := by
      rw [wp_bind, Minix.wp_liftMm]
      exact h₂.wp_freePage.imp fun _ m₃ h₃ =>
        wp_pure.mpr ⟨.of_building ⟨m₃, rfl, h₃⟩, .failed hroom⟩
    -- the frame holds what the file has for the page
    have hput {ok : Bool} {m₂ : Mm.State}
        (h₂ : SpareSpace main w₀ j (some d) (page ::ₘ own) pages m₂)
        (hmap : m₂.memMap = m₁.memMap) (hview₂ : userByte m₂.mem d = userByte m.mem d)
        (hfound : ok = true → ph.Found rd s₁ ip vaddr)
        (hok : ph.Readable rd s₁ ip vaddr → ok = true)
        (hbytes : ∀ b : Word, b.toNat / 4096 = vaddr.toNat / 4096 →
          frameBytes m₂.mem page ⟨b.toNat % 4096, mod_lt _ (by decide)⟩ = ph.byteAt rd s₁ ip b) :
        wp (do
          if !ok then
            Minix.liftMm (Mm.freePage page)
            return false
          else
            let r ← Minix.liftMm (Mm.putPagePgdir d page vaddr)
            if r = 0 then
              Minix.liftMm (Mm.freePage page)
              return false
            else
              loadPages rd ip ph d n (vaddr + 4096)) (fun ok s' => Loaded main w₀ j s₁ d
          own pages (pageRun (vaddr.toNat / 4096) (n + 1)) ok s' ∧
          Filled rd s₁ ip ph d vaddr (n + 1) m ok s') E { s₁ with mm := m₂ } := by
      rw [← hmap] at hfree₁
      refine wp_ite.mpr ⟨fun hnot => hgive h₂ fun hall => ?_, fun hok' => ?_⟩
      · rw [hok (hzeroth ▸ hall 0 (succ_pos n))] at hnot
        cases hnot
      rw [wp_bind, Minix.wp_liftMm]
      refine h₂.wp_putPage.imp fun r m₃ h₃ => wp_ite.mpr ⟨fun hr => ?_, fun hr => ?_⟩
      · rw [if_pos hr] at h₃
        have hnone := h₃.2 hlt
        exact hgive h₃.1 fun _ => by omega
      rw [if_neg hr] at h₃
      obtain ⟨-, hfree₃, hview₃, lost, hlost, h₃⟩ := h₃
      refine (ih (by omega) (by omega) (fun k hk => ?_) h₃).imp fun ok' s' ⟨hl, hf⟩ => ⟨?_, ?_⟩
      · rw [← hsucc]
        exact hread (k + 1) (succ_lt_succ hk)
      · rw [hnext, add_div_right _ (by decide)] at hl
        exact hl.cons hlost
      · refine ⟨fun hok'' k hk => ?_, fun hok'' => ?_, fun hall f hf' => ?_⟩
        · cases k with
          | zero =>
            rw [hzeroth]
            exact hfound (by simpa using hok')
          | succ k =>
            rw [hsucc]
            exact hf.found hok'' k (lt_of_succ_lt_succ hk)
        · rw [hf.view hok'', hview₃, hview₂, hnext, add_div_right _ (by decide),
            mapPage_segment hbytes]
        · refine hf.room (fun k hk => ?_) f (by omega)
          rw [← hsucc]
          exact hall (k + 1) (succ_lt_succ hk)
    by_cases hin : ph.offset + (vaddr - ph.vaddr) < ph.offset + ph.filesz
    · have hin' : ph.foff vaddr < ph.fileEnd := hin
      simp only [hin, if_true, wp_bind]
      have hfirst := hread 0 (succ_pos n)
      rw [hzeroth] at hfirst
      refine wp_readFile (fun hnot => hfirst (fun hr => hnot (hr hin)) _) ?_
      rw [Minix.wp_liftMm, Mm.writeBytes, wp_modify, wp_pure, fileBytes_mm]
      have hlen := (length_fileBytes rd s₁ ip 4096 (ph.foff vaddr) (ph.readLen vaddr)).trans
        (ph.readLen_le vaddr)
      have hmem : page ∈ page ::ₘ own := Multiset.mem_cons_self ..
      obtain ⟨h₂, hview₂⟩ := h₁.write hmem fun q hq hne =>
        sameBytes_fillN (f := fun i =>
          (fileBytes rd s₁ ip 4096 (ph.foff vaddr) (ph.readLen vaddr)).2.getD i 0)
          (h₁.isFrame hmem) hq hne hlen
      refine hput h₂ rfl ((hview₂ d rfl).trans (hview₁ d rfl)) (fun hok _ => hok)
        (fun hr => (hr hin').2) fun b hb => ?_
      rw [Phdr.byteAt]
      dsimp only
      rw [and_page_of_aligned haligned hb, if_pos hin']
      exact frameBytes_fillN hzero _
    · simp only [hin, if_false, wp_bind, wp_pure]
      refine hput h₁ rfl (hview₁ d rfl) (fun _ hlt => absurd hlt hin) (fun _ => rfl) fun b hb => ?_
      rw [hzero, Phdr.byteAt]
      dsimp only
      rw [and_page_of_aligned haligned hb, if_neg]
      exact hin

theorem wp_loadSegment (hload : ph.Loads)
    (hread : ∀ k < ph.pageCount, ph.Reads E (ph.first + .ofNat 32 (4096 * k)))
    (h : SpareSpace main w₀ j (some d) own pages m) : wp (loadSegment rd ip ph d)
      (fun ok s' => Loaded main w₀ j s₁ d own pages ph.pages ok s' ∧
        Filled rd s₁ ip ph d ph.first ph.pageCount m ok s') E { s₁ with mm := m } := by
  have hfirst : ph.first.toNat = 4096 * (ph.vaddr.toNat / 4096) := toNat_page ph.vaddr
  have haligned : ph.first.toNat % 4096 = 0 := by omega
  rw [← ph.pageRun_eq]
  exact wp_loadPages haligned hload.limit hread h

/-! ### Headers -/

theorem imageView_load (hph : phdrAt rd s₁ ip phoff i = some ph) (hload : ph.Loads) :
    imageView rd s₁ ip phoff V (i + 1) = segmentView rd s₁ ip ph (ph.first.toNat / 4096)
      ph.pageCount (imageView rd s₁ ip phoff V i) := by
  rw [imageView, hph]
  exact if_pos hload

theorem imageView_skip (hskip : ∀ ph, phdrAt rd s₁ ip phoff i = some ph → ¬ ph.Loads) :
    imageView rd s₁ ip phoff V (i + 1) = imageView rd s₁ ip phoff V i := by
  rw [imageView]
  split
  · rfl
  · next ph hph => exact if_neg (hskip ph hph)

/-- The segments among the first `i` program headers are within bounds, and have
been read. -/
def Accepted (rd : RamDisk) (s : Fs) (ip : Ino) (phoff : Word) (i : ℕ) : Prop :=
  ∀ l < i, ∀ ph, phdrAt rd s ip phoff l = some ph → ph.type = 1 →
    ph.Loads ∧ ∀ k < ph.pageCount, ph.Found rd s ip (ph.first + .ofNat 32 (4096 * k))

theorem Accepted.succ (h : Accepted rd s₁ ip phoff i) (hph : phdrAt rd s₁ ip phoff i = some ph)
    (hload : ph.type = 1 → ph.Loads ∧
      ∀ k < ph.pageCount, ph.Found rd s₁ ip (ph.first + .ofNat 32 (4096 * k))) :
    Accepted rd s₁ ip phoff (i + 1) := by
  intro l hl ph' hph' htype
  rcases Nat.lt_succ_iff_lt_or_eq.mp hl with hl | rfl
  · exact h l hl ph' hph' htype
  · cases hph.symm.trans hph'
    exact hload htype

/-- A program header that is skipped or loaded. -/
def LoadsAt (rd : RamDisk) (s : Fs) (ip : Ino) (phoff : Word) (i : ℕ) : Prop :=
  FileRange (phoff + 32 * .ofNat 32 i) 32 ∧ ∃ ph, phdrAt rd s ip phoff i = some ph ∧
    (ph.type = 1 → ph.Loads ∧ ∀ n < ph.pageCount,
      ph.Readable rd s ip (ph.first + .ofNat 32 (4096 * n)))

/-- Two frames for each page of a segment, one for a table. -/
def phdrFrames (rd : RamDisk) (s : Fs) (ip : Ino) (phoff : Word) (i : ℕ) : ℕ :=
  match phdrAt rd s ip phoff i with
  | none => 0
  | some ph => 2 * ph.pageCount

/-- The frames that are enough for the headers with `n` numbers from `i` on. -/
def framesFrom (rd : RamDisk) (s : Fs) (ip : Ino) (phoff : Word) (i n : ℕ) : ℕ :=
  ((range' i n).map (phdrFrames rd s ip phoff)).sum

theorem framesFrom_succ (phoff : Word) (i n : ℕ) : framesFrom rd s ip phoff i (n + 1) =
    phdrFrames rd s ip phoff i + framesFrom rd s ip phoff (i + 1) n := by
  rw [framesFrom, range'_succ, map_cons, sum_cons, framesFrom]

/-- With headers that can be loaded and the frames for them, all are loaded. -/
theorem wp_loadHeaders (hn : i + n = phnum) (hread : HeaderReads E rd s₁ ip phoff phnum)
    (hpages : pages ⊆ stackPages ∪ pagesBefore rd s₁ ip phoff i)
    (hown : Apart rd s₁ ip phoff phnum → own = 0) (hbefore : Accepted rd s₁ ip phoff i)
    (hview : userByte m.mem d = imageView rd s₁ ip phoff V i)
    (h : SpareSpace main w₀ j (some d) own pages m) :
    wp (loadHeaders rd ip phoff d n i) (fun o s' => LoadedAll main w₀ j s₁ rd ip phoff phnum d s' ∧
      o ≠ some 0 ∧ (o = none → Accepted rd s₁ ip phoff phnum ∧
        userByte s'.mm.mem d = imageView rd s₁ ip phoff V phnum) ∧
      ((∀ l < phnum, LoadsAt rd s₁ ip phoff l) →
        framesFrom rd s₁ ip phoff i n ≤ freeFrames m.memMap → o = none)) E { s₁ with mm := m } := by
  induction n generalizing i own pages m with
  | zero =>
    rw [Nat.add_zero] at hn
    subst hn
    exact wp_pure.mpr ⟨⟨own, pages, ⟨m, rfl, h⟩, hown⟩, nofun, fun _ => ⟨hbefore, hview⟩,
      fun _ _ => rfl⟩
  | succ n ih =>
    have hi : i < phnum := by omega
    have hmore : pages ⊆ stackPages ∪ pagesBefore rd s₁ ip phoff (i + 1) :=
      hpages.trans (union_subset_union_right _ fun m ⟨i', hi', hm⟩ =>
        ⟨i', lt_succ_of_lt hi', hm⟩)
    have hstop : LoadedAll main w₀ j s₁ rd ip phoff phnum d { s₁ with mm := m } :=
      ⟨own, pages, ⟨m, rfl, h⟩, hown⟩
    rw [framesFrom_succ]
    refine wp_loadHeaders_step ⟨m, rfl⟩ (fun hnot => hread.header i hi hnot _) (fun hnone => ?_)
      (fun ph hph htype => ?_) (fun ph hph htype hnot => ?_) fun ph hph hload => ?_
    · refine ⟨hstop, by decide, nofun, fun hall => ?_⟩
      obtain ⟨-, ph, hph, -⟩ := hall i hi
      exact nomatch hph.symm.trans hnone
    · refine (ih (by omega) hmore hown (hbefore.succ hph fun h => absurd h htype) ?_ h).imp
        fun o s' ⟨hs, h0, hok, hroom⟩ => ⟨hs, h0, hok, fun hall hf => hroom hall (by omega)⟩
      rwa [imageView_skip fun ph' hph' hl => htype ?_]
      cases hph.symm.trans hph'
      exact hl.1
    · refine ⟨hstop, by decide, nofun, fun hall => ?_⟩
      obtain ⟨-, ph', hph', hload⟩ := hall i hi
      cases hph.symm.trans hph'
      exact absurd (hload htype).1 hnot
    have hseg : segPages (phdrAt rd s₁ ip phoff i) = ph.pages := by
      rw [hph]
      exact if_pos hload
    refine (wp_loadSegment hload (hread.segment i hi ph hph hload) h).imp
      fun ok s' ⟨⟨lost, pages', ⟨m', hs', h'⟩, hsub, hlost, _⟩, hfill⟩ => ?_
    subst hs'
    have hown' : Apart rd s₁ ip phoff phnum → lost + own = 0 := by
      intro hapart
      rw [hown hapart, add_zero]
      refine hlost (Disjoint.mono_right hpages ?_)
      rw [← hseg, disjoint_union_right]
      refine ⟨disjoint_stackPages _, disjoint_left.mpr fun k hk hbefore => ?_⟩
      obtain ⟨i', hi', hk'⟩ := hbefore
      exact disjoint_left.mp (hapart i hi i' hi') hk' hk
    have hroom (hall : ∀ l < phnum, LoadsAt rd s₁ ip phoff l)
        (hf : phdrFrames rd s₁ ip phoff i + framesFrom rd s₁ ip phoff (i + 1) n ≤
          freeFrames m.memMap) :
        ok = true ∧ framesFrom rd s₁ ip phoff (i + 1) n ≤ freeFrames m'.memMap := by
      obtain ⟨-, ph', hph', hload'⟩ := hall i hi
      cases hph.symm.trans hph'
      rw [phdrFrames, hph, Nat.add_comm] at hf
      exact hfill.room (hload' hload.1).2 _ hf
    by_cases hok : ok = true
    · rw [if_pos hok]
      refine (ih (by omega) (hsub.trans (union_subset hmore fun k hk => ?_)) hown'
        (hbefore.succ hph fun _ => ⟨hload, hfill.found hok⟩) ?_ h').imp
        fun o s' ⟨hs, h0, hall, hdone⟩ =>
          ⟨hs, h0, hall, fun hv hf => hdone hv (hroom hv hf).2⟩
      · exact .inr ⟨i, lt_succ_self i, by rwa [hseg]⟩
      · rw [imageView_load hph hload, ← hview]
        exact hfill.view hok
    · rw [if_neg hok]
      exact ⟨⟨_, _, ⟨m', rfl, h'⟩, hown'⟩, by decide, nofun,
        fun hv hf => absurd (hroom hv hf).1 hok⟩

/-! ### `execve` up to the point of no return -/

/-- The view of the new program before its tables are written. -/
def programView (rd : RamDisk) (s : Fs) (ip : Ino) (A : Area Byte) : UserView :=
  imageView rd s ip (ehdrAt rd s ip).phoff (argView A fun _ => none) (ehdrAt rd s ip).phnum.toNat

/-- An error number, or an image with the property. -/
def ImageOr (P : Image → Fs → Prop) (r : Except ℤ Image) (s : Fs) : Prop :=
  match r with
  | .error e => e ≠ 0
  | .ok image => P image s

/-- What `buildSpace` makes of the strings in the area `A`. If `G`, it does
not fail. -/
def BuiltFrom (main : MainMemory) (w₀ : World) (j : Fin nrTasks) (s₁ : Fs) (rd : RamDisk)
    (ip : Ino) (eh : Ehdr) (I : (Ino → MInode) → Prop) (p : Word) (argc envc : ℕ) (A : Area Byte)
    (G : Prop) (r : Except ℤ Image) (s : Fs) : Prop :=
  Built main w₀ j s₁ rd ip eh I r s ∧
    match r with
    | .error e => e ≠ 0 ∧ ¬ G
    | .ok image => image = ⟨ip, eh, image.pgdir, p + stackBase, argc, envc⟩ ∧
        Accepted rd s₁ ip eh.phoff eh.phnum.toNat ∧ userByte s.mm.mem image.pgdir =
          imageView rd s₁ ip eh.phoff (argView A fun _ => none) eh.phnum.toNat

section

variable {I : (Ino → MInode) → Prop} {G : Prop} {eh : Ehdr}

theorem wp_build {p : Word} {argc envc : ℕ}
    (hiput : ¬ G → ∀ m, wp (iput rd (some ip)) (fun _ s' => s'.mm = m ∧ I s'.inode) E
      { s₁ with mm := m }) (hrun : eh.runnable = true)
    (hread : HeaderReads E rd s₁ ip eh.phoff eh.phnum.toNat)
    (hgo : G → (∀ i < eh.phnum.toNat, LoadsAt rd s₁ ip eh.phoff i) ∧
      framesFrom rd s₁ ip eh.phoff 0 eh.phnum.toNat + maxArgPages + 1 ≤ freeFrames m.memMap)
    (h : SpareSpace main w₀ j none (argOwn page) ∅ m) : wp (buildSpace rd ip eh p page argc envc)
      (BuiltFrom main w₀ j s₁ rd ip eh I p argc envc (argArea m page) G) E
      { s₁ with mm := m } := by
  have hfail {e : ℤ} {lost : Multiset Word} {page' : Fin maxArgPages → Word} {s : Fs}
      {pages : Set ℕ} (hnot : ¬ G) (he : e ≠ 0)
      (hlost : Apart rd s₁ ip eh.phoff eh.phnum.toNat → lost = 0)
      (h : WithMm s₁ (SpareSpace main w₀ j none (argOwn page' + lost) pages) s) :
      wp (do execError rd ip page'; return .error e)
        (BuiltFrom main w₀ j s₁ rd ip eh I p argc envc (argArea m page) G) E s :=
    (wp_giveBack (hiput hnot) h).next fun _ _ h =>
      wp_pure.mpr ⟨⟨lost, pages, hlost, h⟩, he, hnot⟩
  rw [buildSpace, wp_bind, Minix.wp_liftMm]
  refine h.wp_getFreePage.imp fun d m₁ ⟨hsame₁, _, _, h₁⟩ => wp_ite.mpr ⟨fun h0 => ?_, fun h0 => ?_⟩
  · rw [if_pos h0, ← add_zero (argOwn page)] at h₁
    exact hfail (fun hg => by have := (hgo hg).2; omega) (by decide) (fun _ => rfl) ⟨m₁, rfl, h₁.1⟩
  rw [if_neg h0] at h₁
  obtain ⟨h₁, -, hfree₁⟩ := h₁
  rw [wp_bind, Minix.wp_liftMm]
  refine h₁.wp_newDirectory.imp fun _ m₂ ⟨hsame₂, hmap, hview₂, h₂⟩ => wp_bind.mpr ?_
  refine (wp_putArgPages (nodup_finRange _) (fun i hi => absurd (mem_finRange i) hi) (empty_subset
    _) (fun i _ => notMem_empty _) h₂).imp fun r s' ⟨m₃, pages, hs, hstack, h₃, hput, hnot⟩ => ?_
  subst hs
  rw [length_finRange, hmap] at hput hnot
  -- from here on a failure has the directory to give up, too
  have hback {e : ℤ} {lost : Multiset Word} {page' : Fin maxArgPages → Word} {s : Fs}
      {pages : Set ℕ} (hnot : ¬ G) (he : e ≠ 0)
      (hlost : Apart rd s₁ ip eh.phoff eh.phnum.toNat → lost = 0)
      (h : Building main w₀ j s₁ d (argOwn page' + lost) pages s) :
      wp (do
        Minix.liftMm (Mm.freePageTables d)
        execError rd ip page'
        return .error e)
        (BuiltFrom main w₀ j s₁ rd ip eh I p argc envc (argArea m page) G) E s :=
    (h.wp_liftMm fun _ hm => hm.wp_freePageTables).next fun _ _ h => hfail hnot he hlost h
  obtain ⟨_ | _, page'⟩ := r
  · have hless := hnot rfl
    rw [← add_zero (argOwn _)] at h₃
    exact hback (fun hg => by have := (hgo hg).2; omega) (by decide) (fun _ => rfl) ⟨m₃, rfl, h₃⟩
  obtain ⟨hzero, hcost, hview₃⟩ := hput rfl
  rw [hview₂, argArea_congr hsame₂, argArea_congr hsame₁] at hview₃
  have hnone : Accepted rd s₁ ip eh.phoff 0 := fun l hl => absurd hl (not_lt_zero l)
  refine (wp_loadHeaders (Nat.zero_add _) hread (hstack.trans subset_union_left) (fun _ => hzero)
    hnone hview₃ h₃).next fun o s ⟨⟨lost, pages, h, hlost⟩, h0, hall, hroom⟩ => ?_
  cases o with
  | some e =>
    refine hback (fun hg => ?_) (fun he => h0 (congrArg some he)) hlost (by rwa [hzero, zero_add])
    exact nomatch hroom (hgo hg).1 (by have := (hgo hg).2; omega)
  | none => exact wp_pure.mpr ⟨⟨lost, pages, hlost, rfl, rfl, hrun, h⟩, rfl, hall rfl⟩

/-- `do_execve` up to the point of no return, once the file is found. -/
theorem wp_prepareFound {s₀ : Fs} {cur : Current} {filename argv envp : Word}
    (hE : AllowsStops E) (hnamei : namei rd cur filename s₀ = .ok (some ip) s₁)
    (hI : w₀.Inv main) (hj : w₀.pgdir j = none) (hmm : s₁.mm = w₀.mm)
    (hiput : ∀ m, wp (iput rd (some ip)) (fun _ s' => s'.mm = m ∧ I s'.inode) E { s₁ with mm := m })
    (hread : (ehdrAt rd s₁ ip).runnable = true →
      HeaderReads E rd s₁ ip (ehdrAt rd s₁ ip).phoff (ehdrAt rd s₁ ip).phnum.toNat)
    (hargv : ∀ n, (argv = 0 → n = 0) → Counted w₀.mm cur.pgdir argv n →
      Pointers E main w₀ j cur.pgdir argv n)
    (henvp : ∀ n, (envp = 0 → n = 0) → Counted w₀.mm cur.pgdir envp n →
      Pointers E main w₀ j cur.pgdir envp n) :
    wp (prepare rd cur filename argv envp) (Built main w₀ j s₁ rd ip (ehdrAt rd s₁ ip) I) E s₀ := by
  rw [prepare, wp_bind, wp_of_ok hnamei]
  have hnone : ArgsTaken main w₀ j s₁ (fun _ => 0) s₁ := by
    refine ⟨w₀.mm, by rw [← hmm], ?_⟩
    rw [argOwn_zero]
    exact spareSpace_start hI hj
  have hfail {page : Fin maxArgPages → Word} {s : Fs} (h : ArgsTaken main w₀ j s₁ page s)
      (e : ℤ) : wp (do execError rd ip page; return .error e)
        (Built main w₀ j s₁ rd ip (ehdrAt rd s₁ ip) I) E s := by
    rw [ArgsTaken, ← add_zero (argOwn _)] at h
    exact (wp_giveBack hiput h).next fun _ _ h => wp_pure.mpr ⟨0, ∅, fun _ => rfl, h⟩
  refine wp_bind.mpr (wp_countArgs hE fun argc hargc0 hargc => ?_)
  refine wp_bind.mpr (wp_countArgs hE fun envc henvc0 henvc => ?_)
  rw [hmm] at hargc henvc
  rw [wp_bind, readInodeTable, wp_bind, wp_get, wp_pure]
  refine wp_ite.mpr ⟨fun _ => hfail hnone _, fun _ => wp_ite.mpr ⟨fun _ => hfail hnone _, fun _ => ?_⟩⟩
  refine wp_bind.mpr (wp_readFile (fun hnot => absurd (by decide) hnot) ?_)
  refine wp_ite.mpr ⟨fun _ => hfail hnone _, fun _ => wp_ite.mpr ⟨fun _ => hfail hnone _,
    fun hrun => ?_⟩⟩
  refine (wp_copyStrings hE (henvp envc henvc0 henvc) hnone).next fun r s h => ?_
  refine (wp_copyStrings hE (hargv argc hargc0 hargc) h).next fun r s h => ?_
  have hrun : (ehdrAt rd s₁ ip).runnable = true := by
    by_contra hnot
    exact hrun ((Bool.not_eq_true' _).mpr (Bool.eq_false_iff.mpr hnot))
  refine wp_ite.mpr ⟨fun _ => hfail h _, fun _ => ?_⟩
  obtain ⟨m, rfl, hm⟩ := h
  exact (wp_build (G := False) (fun _ => hiput) hrun (hread hrun) False.elim hm).imp fun _ _ h => h.1

end

/-- The area with the strings of a program from `p` on. -/
def stringArea (p : ℕ) (args envs : List (List Byte)) : Area Byte :=
  putAll 4096 (fun _ => none) p (stringBytes args ++ stringBytes envs)

/-- Where the strings of a program end: at the last word of the area. -/
def topOffset : ℕ := 4096 * 32 - 4

/-- The length of all strings. -/
def totalBytes (args envs : List (List Byte)) : ℕ :=
  (stringBytes args ++ stringBytes envs).length

/-- Where the strings of a program begin. -/
def stringsAt (args envs : List (List Byte)) : Word :=
  .ofNat 32 (topOffset - totalBytes args envs) + stackBase

/-- The view before the tables are written. -/
def loadedView (rd : RamDisk) (s : Fs) (ip : Ino) (args envs : List (List Byte)) : UserView :=
  programView rd s ip (stringArea (topOffset - totalBytes args envs) args envs)

theorem heldPages_start (hI : w₀.Inv main) (hj : w₀.pgdir j = none) :
    HeldPages main w₀ j (fun _ => 0) w₀.mm where
  space := by
    rw [argOwn_zero]
    exact spareSpace_start hI hj
  outside _ _ := rfl

theorem argArea_zero : argArea m (fun _ => 0) = fun _ => none := by
  funext x
  unfold argArea
  split
  · exact if_pos rfl
  · rfl

section

variable {cur : Current} {argv envp : Word} {args envs : List (List Byte)} {G : Prop} {f : ℕ}

/-- A vector that fits is copied if there is a frame for every page. -/
theorem wp_copyVector {p : Word} {strs : List (List Byte)}
    (hdir : cur.pgdir ≠ 0 → ∃ i, w₀.pgdir i = some cur.pgdir)
    (hstrs : ArgVector (callerView main w₀ cur.pgdir) argv strs) (hp : p.toNat ≤ topOffset)
    (hp0 : p ≠ 0) (h : HeldPages main w₀ j page m)
    (hgo : G → (stringBytes strs).length < p.toNat ∧ f + maxArgPages ≤ freeFrames m.memMap)
    (hE : ¬ G → ∀ e s, E e s) : wp (copyStrings cur strs.length argv page p)
      (fun r s' => (r.1 = 0 → ¬ G) ∧ (r.1 ≠ 0 → ∃ m', s' = { s₁ with mm := m' } ∧
        HeldPages main w₀ j r.2 m' ∧ r.1.toNat + (stringBytes strs).length = p.toNat ∧
        argArea m' r.2 = putAll 4096 (argArea m page) r.1.toNat (stringBytes strs) ∧
        (G → f ≤ freeFrames m'.memMap))) E { s₁ with mm := m } := by
  obtain ⟨hargv, hstrs⟩ := hstrs.pointersAt
  have hmissing : missing 4096 maxArgPages (argArea m page) p.toNat ≤ maxArgPages := missing_le ..
  refine (wp_copyStrings_strings s₁ cur hdir hargv hstrs (hp.trans (by decide)) hp0 h).mono
    (fun r s' ⟨ok, a, ⟨m', hs, hend⟩, hr⟩ => ?_)
    fun e s' ⟨_, hlong, _⟩ => hE (fun hg => absurd (hgo hg).1 (by omega)) e s'
  subst hs hr
  cases ok with
  | false =>
    have hend : _ ∧ _ := hend
    refine ⟨fun _ hg => ?_, fun hne => absurd rfl hne⟩
    have hroom := (hgo hg).2
    omega
  | true =>
    have hend : Copying main w₀ j _ _ p.toNat (stringBytes strs) a m' := hend
    have hpos := hend.pos
    have hfree := hend.free
    refine ⟨fun h0 hg => ?_, fun _ => ⟨m', rfl, hend.held, hpos, hend.area, fun hg => ?_⟩⟩
    · have h0 : a.p.toNat = 0 := congrArg BitVec.toNat h0
      have hfits := (hgo hg).1
      omega
    · have hroom := (hgo hg).2
      omega

/-- Both vectors are copied. -/
theorem wp_copyBoth (s₁ : Fs) (hI : w₀.Inv main) (hj : w₀.pgdir j = none)
    (hdir : cur.pgdir ≠ 0 → ∃ i, w₀.pgdir i = some cur.pgdir)
    (hargs : ArgVector (callerView main w₀ cur.pgdir) argv args)
    (henvs : ArgVector (callerView main w₀ cur.pgdir) envp envs)
    (hgo : G → totalBytes args envs < topOffset ∧
      f + maxArgPages + maxArgPages ≤ freeFrames w₀.mm.memMap) (hE : ¬ G → ∀ e s, E e s) : wp (do
        let (p, page) ← copyStrings cur envs.length envp (fun _ => 0) (4096 * 32 - 4)
        copyStrings cur args.length argv page p)
      (fun r s' => (r.1 = 0 → ¬ G) ∧ (r.1 ≠ 0 → ∃ m, s' = { s₁ with mm := m } ∧
        HeldPages main w₀ j r.2 m ∧ r.1.toNat + totalBytes args envs = topOffset ∧
        argArea m r.2 = stringArea r.1.toNat args envs ∧ (G → f ≤ freeFrames m.memMap)))
      E { s₁ with mm := w₀.mm } := by
  have htop : (4096 * 32 - 4 : Word).toNat = topOffset := rfl
  rw [totalBytes, length_append] at hgo ⊢
  rw [wp_bind]
  refine (wp_copyVector hdir henvs htop.le (by decide) (heldPages_start hI hj)
    (fun hg => ⟨by have := (hgo hg).1; omega, (hgo hg).2⟩) hE).imp
    fun r s' h => ?_
  obtain ⟨p, page⟩ := r
  obtain ⟨hnot, hok⟩ := h
  dsimp only at hnot hok ⊢
  by_cases h0 : p = 0
  · rw [copyStrings, if_pos h0, wp_pure]
    exact ⟨fun _ => hnot h0, fun hne => absurd rfl hne⟩
  obtain ⟨m, rfl, hheld, hpos, harea, hfree⟩ := hok h0
  refine (wp_copyVector hdir hargs (by omega) h0 hheld
    (fun hg => ⟨by have := (hgo hg).1; omega, hfree hg⟩) hE).imp
    fun r' s' h' => ⟨h'.1, fun hne => ?_⟩
  obtain ⟨m', rfl, hheld', hpos', harea', hfree'⟩ := h'.2 hne
  refine ⟨m', rfl, hheld', by omega, ?_, hfree'⟩
  rw [harea', harea, argArea_zero, stringArea, putAll_append, hpos']

end

theorem callerView_some {cur : Current} {a : Word} {c : Byte}
    (h : callerView main w₀ cur.pgdir a = some c) : userByte w₀.mm.mem cur.pgdir a = some c := by
  unfold callerView at h
  split at h
  · cases h
  · exact h

/-- The new program has the strings of the caller. -/
structure NewImage (main : MainMemory) (w₀ : World) (j : Fin nrTasks) (s₁ : Fs)
    (rd : RamDisk) (ip : Ino) (args envs : List (List Byte)) (image : Image) (s : Fs) :
    Prop where
  inode : image.ip = ip
  eh : image.eh = ehdrAt rd s₁ ip
  argc : image.argc = args.length
  envc : image.envc = envs.length
  fits : totalBytes args envs < topOffset
  p : image.p = stringsAt args envs
  accepted : Accepted rd s₁ ip (ehdrAt rd s₁ ip).phoff (ehdrAt rd s₁ ip).phnum.toNat
  view : ShowsIn main w₀ j s₁ image.pgdir (loadedView rd s₁ ip args envs) s

/-- A file that `do_execve` takes. -/
structure ValidProgram (rd : RamDisk) (cur : Current) (s : Fs) (ip : Ino) : Prop where
  regular : isReg (s.inode ip).mode = true
  allowed : mayRun cur (s.inode ip) = true
  header : (fileBytes rd s ip 52 0 52).1 = true
  elf : (ehdrAt rd s ip).runnable = true
  headers : ∀ i < (ehdrAt rd s ip).phnum.toNat, LoadsAt rd s ip (ehdrAt rd s ip).phoff i

/-- The frames that are enough for a program. -/
def programFrames (rd : RamDisk) (s : Fs) (ip : Ino) : ℕ :=
  framesFrom rd s ip (ehdrAt rd s ip).phoff 0 (ehdrAt rd s ip).phnum.toNat + maxArgPages + 1 +
    maxArgPages + maxArgPages

theorem headerReads_of_loads (h : ∀ i < phnum, LoadsAt rd s₁ ip phoff i) :
    HeaderReads E rd s₁ ip phoff phnum := by
  refine ⟨fun i hi hnot => absurd (h i hi).1 hnot, fun i hi ph hph hload k hk hnot => ?_⟩
  obtain ⟨-, ph', hph', hread⟩ := h i hi
  cases hph.symm.trans hph'
  exact absurd (fun hin => ((hread hload.1).2 k hk hin).1) hnot

/-- A valid program with strings that fit is prepared if there are enough frames. -/
theorem wp_prepareImage {s₀ : Fs} {cur : Current} {filename argv envp : Word} {G : Prop}
    {args envs : List (List Byte)} (hnamei : namei rd cur filename s₀ = .ok (some ip) s₁)
    (hI : w₀.Inv main) (hj : w₀.pgdir j = none) (hmm : s₁.mm = w₀.mm)
    (hdir : cur.pgdir ≠ 0 → ∃ i, w₀.pgdir i = some cur.pgdir)
    (hargs : ArgVector (callerView main w₀ cur.pgdir) argv args)
    (henvs : ArgVector (callerView main w₀ cur.pgdir) envp envs)
    (hgo : G → ValidProgram rd cur s₁ ip ∧ totalBytes args envs < topOffset ∧
      programFrames rd s₁ ip ≤ freeFrames w₀.mm.memMap)
    (hnot : ¬ G → (∀ e s, E e s) ∧ ∀ m, wp (iput rd (some ip)) (fun _ s' => s'.mm = m ∧ True) E
      { s₁ with mm := m }) :
    wp (prepare rd cur filename argv envp) (fun r s' => (G → ∃ image, r = .ok image) ∧
      ImageOr (NewImage main w₀ j s₁ rd ip args envs) r s') E s₀ := by
  have hread {strs : List (List Byte)} {v : Word}
      (h : ArgVector (callerView main w₀ cur.pgdir) v strs) :
      ArgVector (userByte s₁.mm.mem cur.pgdir) v strs := by
    rw [hmm]
    exact h.imp fun a c => callerView_some
  have hs₁ : s₁ = { s₁ with mm := w₀.mm } := by rw [← hmm]
  have hfail {c : FsM PUnit} {e : ℤ} {s : Fs} (hg : ¬ G) (he : e ≠ 0) :
      wp (c >>= fun _ => pure (Except.error e)) (fun r s' => (G → ∃ image, r = .ok image) ∧
        ImageOr (NewImage main w₀ j s₁ rd ip args envs) r s') E s :=
    wp_bind.mpr (wp_of_forall (fun _ _ => wp_pure.mpr ⟨fun h => absurd h hg, he⟩) (hnot hg).1)
  rw [prepare, wp_bind, wp_of_ok hnamei, wp_bind, wp_countArgs_vector (hread hargs), wp_bind,
    wp_countArgs_vector (hread henvs), wp_bind, readInodeTable, wp_bind, wp_get, wp_pure]
  refine wp_ite.mpr ⟨fun hreg => hfail (fun hg => ?_) (by decide), fun _ => wp_ite.mpr
    ⟨fun hmay => hfail (fun hg => ?_) (by decide), fun _ => ?_⟩⟩
  · rw [(hgo hg).1.regular] at hreg
    cases hreg
  · rw [(hgo hg).1.allowed] at hmay
    cases hmay
  refine wp_bind.mpr (wp_readFile (fun hout => absurd (by decide) hout) ?_)
  refine wp_ite.mpr ⟨fun hbad : (!(fileBytes rd s₁ ip 52 0 52).1) = true =>
    hfail (fun hg => ?_) (by decide), fun _ => wp_ite.mpr
    ⟨fun helf : (!(ehdrAt rd s₁ ip).runnable) = true => hfail (fun hg => ?_) (by decide),
      fun hrun : ¬ (!(ehdrAt rd s₁ ip).runnable) = true => ?_⟩⟩
  · rw [(hgo hg).1.header] at hbad
    cases hbad
  · rw [(hgo hg).1.elf] at helf
    cases helf
  have hcopy := wp_copyBoth (E := E) s₁ hI hj hdir hargs henvs (fun hg => (hgo hg).2)
    fun hg => (hnot hg).1
  rw [← hs₁, wp_bind] at hcopy
  refine hcopy.next fun r s h => h.next fun r s h => ?_
  refine wp_ite.mpr ⟨fun hp => hfail (h.1 hp) (by decide), fun hp => ?_⟩
  obtain ⟨m, rfl, hheld, hlen, harea, hfree⟩ := h.2 hp
  have hreads : HeaderReads E rd s₁ ip (ehdrAt rd s₁ ip).phoff (ehdrAt rd s₁ ip).phnum.toNat := by
    by_cases hg : G
    · exact headerReads_of_loads (hgo hg).1.headers
    · exact ⟨fun _ _ _ => (hnot hg).1 _, fun _ _ _ _ _ _ _ _ => (hnot hg).1 _⟩
  have hpos : r.1.toNat ≠ 0 := fun h0 => hp (BitVec.eq_of_toNat_eq h0)
  have hnat : topOffset - totalBytes args envs = r.1.toNat := by omega
  refine (wp_build (I := fun _ => True) (fun hg => (hnot hg).2) (by simpa using hrun) hreads
    (fun hg => ⟨(hgo hg).1.headers, hfree hg⟩) hheld.space).imp fun r s' h => ?_
  obtain ⟨hbuilt, h⟩ := h
  cases r with
  | error e => exact ⟨fun hg => absurd hg h.2, h.1⟩
  | ok image =>
  refine ⟨fun _ => ⟨image, rfl⟩, ?_⟩
  obtain ⟨lost, pages, -, -, -, -, m', hs', h'⟩ := hbuilt
  obtain ⟨himage, haccepted, hview⟩ := h
  subst hs'
  have hshow := h'.showing
  rw [show userByte m'.mem image.pgdir = _ from hview, harea] at hshow
  show NewImage main w₀ j s₁ rd ip args envs image _
  refine ⟨?_, ?_, ?_, ?_, by omega, ?_, haccepted, m', rfl, ?_⟩
  all_goals try rw [himage]
  · rw [stringsAt, hnat, BitVec.ofNat_toNat, BitVec.setWidth_eq]
  · rwa [loadedView, hnat]

end

end LinuxRv.Proc
