import LinuxRv.Mm.SpareContents
import LinuxRv.Proc.ExecFile

/-!
The memory `do_execve` takes.

From the point at which the file is found up to the point of no return the call
changes nothing but memory: the state is `s₁` with another `mm`. The argument
pages are the call's own until they are mapped, the directory is built beside
the address spaces of the tasks, and a segment's page that is mapped over
another one leaves that one lost.
-/

namespace LinuxRv.Proc

open ByteMemory Prog Fs Minix Mm Function Finset Multiset Nat

variable {i : Fin maxArgPages} {page : Fin maxArgPages → Word}

/-- `s` is `s₁` with a memory for which `S` holds. -/
def WithMm (s₁ : Fs) (S : Mm.State → Prop) (s : Fs) : Prop :=
  ∃ m, s = { s₁ with mm := m } ∧ S m

/-- `E` holds of all stops but panics. -/
def AllowsStops (E : Minix.Halt → Fs → Prop) : Prop :=
  ∀ e s, (∀ m, e ≠ .panic m) → E e s

section

variable {α : Type} {s₁ s : Fs} {S : Mm.State → Prop} {E : Minix.Halt → Fs → Prop}

theorem WithMm.wp_liftMm {c : Mm.M α} {S' : α → Mm.State → Prop} (h : WithMm s₁ S s)
    (hc : ∀ m, S m → wp c S' (fun e m' => E (.ofMm e) { s₁ with mm := m' }) m) :
    wp (Minix.liftMm c) (fun a => WithMm s₁ (S' a)) E s := by
  obtain ⟨m, rfl, hm⟩ := h
  rw [Minix.wp_liftMm]
  exact (hc m hm).mono (fun a m' hm' => ⟨m', rfl, hm'⟩) fun _ _ he => he

/-- A read of user memory returns or ends the task. -/
theorem wp_getFs_same {n : ℕ} {pgdir a : Word} {Q : BitVec (8 * n) → Fs → Prop} (hE : AllowsStops E)
    (hQ : translateUser s.mm.mem pgdir a ≠ -1 →
      Q (loadN n s.mm.mem (translateUser s.mm.mem pgdir a)) s) :
    wp (Minix.liftMm (Mm.getFs n pgdir a)) Q E s := by
  rw [Minix.wp_liftMm, Mm.getFs, wp_bind, wp_get]
  by_cases h : translateUser s.mm.mem pgdir a = -1
  · simp only [h, if_true, wp_bind, wp_throw]
    exact hE _ _ fun m => by simp [Minix.Halt.ofMm]
  · simp only [h, if_false, wp_pure]
    exact hQ h

end

/-! ### Argument pages -/

/-- The pages in `page`. -/
def argOwn (page : Fin maxArgPages → Word) : Multiset Word :=
  ∑ i, if page i = 0 then 0 else {page i}

theorem argOwn_zero : argOwn (fun _ => 0) = 0 := by
  simp [argOwn]

theorem argOwn_update {new : Word} (h0 : page i = 0) :
    argOwn (update page i new) = if new = 0 then argOwn page else new ::ₘ argOwn page := by
  have hrest (f : Fin maxArgPages → Word) : argOwn f = (if f i = 0 then 0 else {f i}) +
      ∑ k ∈ univ.erase i, if f k = 0 then 0 else {f k} :=
    (add_sum_erase _ _ (mem_univ i)).symm
  have hsame : (∑ k ∈ univ.erase i, if update page i new k = 0 then
      (0 : Multiset Word) else {update page i new k}) =
      ∑ k ∈ univ.erase i, if page k = 0 then 0 else {page k} := by
    refine sum_congr rfl fun k hk => ?_
    rw [update_of_ne (ne_of_mem_erase hk)]
  rw [hrest, hrest page, hsame, update_self, if_pos h0, zero_add]
  by_cases hnew : new = 0
  · rw [if_pos hnew, if_pos hnew, zero_add]
  · rw [if_neg hnew, if_neg hnew, singleton_add]

theorem argOwn_clear (h0 : page i ≠ 0) : argOwn page = page i ::ₘ argOwn (update page i 0) := by
  have h : argOwn (update (update page i 0) i (page i)) = _ :=
    argOwn_update (update_self ..)
  rwa [update_idem, update_eq_self, if_neg h0] at h

theorem mem_argOwn (h0 : page i ≠ 0) : page i ∈ argOwn page := by
  rw [argOwn_clear h0]
  exact mem_cons_self ..

structure ArgPages.Ok (a : ArgPages) : Prop where
  offset_nonneg : 0 ≤ a.offset
  offset_lt : a.offset < 4096
  pag : a.pag ≠ 0 → a.pag ∈ argOwn a.page

/-- The word at `a` as `get_fs_long` finds it. -/
def userWord (m : Mm.State) (pgdir a : Word) : Word :=
  loadN 4 m.mem (translateUser m.mem pgdir a)

section

variable {Q : ℕ → Fs → Prop} {a : ArgPages} {argv : Word} {main : MainMemory} {w₀ : World}
  {j : Fin nrTasks} {s₁ s : Fs} {E : Minix.Halt → Fs → Prop} {cur : Current} {argc len : ℕ}
  {tmp : Word}

/-- The pages in `page` are taken, and nothing else. -/
abbrev ArgsTaken (main : MainMemory) (w₀ : World) (j : Fin nrTasks) (s₁ : Fs)
    (page : Fin maxArgPages → Word) : Fs → Prop :=
  WithMm s₁ (SpareSpace main w₀ j none (argOwn page) ∅)

/-- If a pointer of the vector has become null in the meantime, `E` allows the
panic. -/
def Pointers (E : Minix.Halt → Fs → Prop) (main : MainMemory) (w₀ : World)
    (j : Fin nrTasks) (pgdir argv : Word) (argc : ℕ) : Prop :=
  ∀ n < argc, ∀ own m, SpareSpace main w₀ j none own ∅ m →
    userWord m pgdir (argv + 4 * .ofNat 32 n) = 0 → ∀ s, E (.panic "argc is wrong") s

theorem wp_argPage (hE : AllowsStops E) (h : ArgsTaken main w₀ j s₁ a.page s) :
    wp (argPage a) (fun a' s' => ArgsTaken main w₀ j s₁ a'.page s' ∧ a'.Ok) E s := by
  have hoffset : ((a.p.toNat % 4096 : ℕ) : ℤ) < 4096 := by omega
  unfold argPage
  split
  · next hlt =>
    dsimp only
    split
    · next h0 => exact wp_pure.mpr ⟨h, Int.natCast_nonneg _, hoffset, fun _ => mem_argOwn h0⟩
    · next h0 =>
      rw [not_not] at h0
      obtain ⟨m, rfl, hm⟩ := h
      rw [wp_bind, Minix.wp_liftMm]
      refine hm.wp_getFreePage.imp fun new m' ⟨_, _, _, h'⟩ => ?_
      refine wp_pure.mpr ⟨⟨m', rfl, ?_⟩, Int.natCast_nonneg _, hoffset, fun hnew => ?_⟩
      · rw [argOwn_update h0]
        split at h'
        · next hnew => exact (if_pos hnew).symm ▸ h'.1
        · next hnew => exact (if_neg hnew).symm ▸ h'.1
      · rw [argOwn_update h0, if_neg hnew]
        exact mem_cons_self ..
  · exact wp_throw.mpr (hE _ _ fun m => by simp)

theorem wp_storeByte {page : Fin maxArgPages → Word} {pag : Word} {offset : ℤ} {c : Byte}
    (h : ArgsTaken main w₀ j s₁ page s) (hpag : pag ∈ argOwn page) (h0 : 0 ≤ offset)
    (hlt : offset < 4096) :
    wp (storeByte (pag + BitVec.ofInt 32 offset) c) (fun _ => ArgsTaken main w₀ j s₁ page) E s := by
  obtain ⟨o, rfl⟩ := Int.eq_ofNat_of_zero_le h0
  refine h.wp_liftMm fun m hm => wp_modify.mpr (hm.write hpag fun q hq hne => ?_).1
  rw [BitVec.ofInt_natCast]
  exact sameBytes_update (hm.isFrame hpag) hq hne (by omega)

theorem wp_copyString (hE : AllowsStops E) (h : ArgsTaken main w₀ j s₁ a.page s) (ha : a.Ok) :
    wp (copyString cur len tmp a)
      (fun r s' => ArgsTaken main w₀ j s₁ r.2.page s' ∧ r.2.Ok) E s := by
  induction len generalizing tmp a s with
  | zero => exact wp_pure.mpr ⟨h, ha⟩
  | succ len ih =>
    have hcopy {a : ArgPages} {s : Fs} (h : ArgsTaken main w₀ j s₁ a.page s) (ha : a.Ok) : wp (do
          if a.pag = 0 then
            return (false, a)
          else
            let c ← getFsByte cur (tmp - 1)
            storeByte (a.pag + BitVec.ofInt 32 a.offset) c
            copyString cur len (tmp - 1) a)
          (fun r s' => ArgsTaken main w₀ j s₁ r.2.page s' ∧ r.2.Ok) E s := by
      refine wp_ite.mpr ⟨fun _ => wp_pure.mpr ⟨h, ha⟩, fun hpag => wp_bind.mpr ?_⟩
      refine wp_getFs_same hE fun _ => ?_
      refine (wp_storeByte h (ha.pag hpag) ha.offset_nonneg ha.offset_lt).next fun _ s' h' => ?_
      exact ih h' ha
    rw [copyString]
    dsimp only
    by_cases hneg : a.offset - 1 < 0
    · rw [if_pos hneg, wp_bind]
      exact (wp_argPage (a := { a with p := a.p - 1, offset := a.offset - 1 }) hE h).imp
        fun a' s' h' => hcopy h'.1 h'.2
    · rw [if_neg hneg, wp_bind, wp_pure]
      refine hcopy h ⟨by simpa using hneg, ?_, ha.pag⟩
      have := ha.offset_lt
      show a.offset - 1 < 4096
      omega

/-- The length of a string changes nothing. -/
theorem wp_strLen {fuel : ℕ} (hE : AllowsStops E) (hQ : ∀ n, Q n s) :
    wp (strLen cur fuel tmp len) Q E s := by
  induction fuel generalizing tmp len with
  | zero => exact wp_throw.mpr (hE _ _ fun m => by simp)
  | succ fuel ih =>
    refine wp_bind.mpr (wp_getFs_same hE fun _ => wp_ite.mpr ⟨fun _ => wp_pure.mpr (hQ _), ?_⟩)
    exact fun _ => ih

theorem wp_copyStringsFrom (hE : AllowsStops E) (hptr : Pointers E main w₀ j cur.pgdir argv argc)
    (h : ArgsTaken main w₀ j s₁ a.page s) (ha : a.Ok) : wp (copyStringsFrom cur argv argc a)
      (fun r s' => ArgsTaken main w₀ j s₁ r.2.page s') E s := by
  induction argc generalizing a s with
  | zero => exact wp_pure.mpr h
  | succ argc ih =>
    refine wp_bind.mpr (wp_getFs_same hE fun _ => wp_ite.mpr ⟨fun h0 => ?_, fun _ => ?_⟩)
    · obtain ⟨m, rfl, hm⟩ := h
      exact wp_throw.mpr (hptr argc (lt_succ_self _) _ m hm h0 _)
    · refine wp_bind.mpr (wp_strLen hE fun len => ?_)
      refine (wp_copyString hE h ha).next fun r s' h' => ?_
      obtain ⟨_ | _, a'⟩ := r
      · exact wp_pure.mpr h'.1
      · exact ih (fun n hn => hptr n (lt_succ_of_lt hn)) h'.1 h'.2

theorem wp_copyStrings {p : Word} {page : Fin maxArgPages → Word} (hE : AllowsStops E)
    (hptr : Pointers E main w₀ j cur.pgdir argv argc) (h : ArgsTaken main w₀ j s₁ page s) :
    wp (copyStrings cur argc argv page p) (fun r s' => ArgsTaken main w₀ j s₁ r.2 s') E s := by
  have hlt : (0 : ℤ) < 4096 := by norm_num
  have ha : ArgPages.Ok ⟨page, p, 0, 0⟩ := ⟨le_rfl, hlt, fun h0 => absurd rfl h0⟩
  rw [copyStrings]
  refine wp_ite.mpr ⟨fun _ => wp_pure.mpr h, fun _ => ?_⟩
  exact (wp_copyStringsFrom (a := ⟨page, p, 0, 0⟩) hE hptr h ha).next fun r s' h' => wp_pure.mpr h'

/-- The first `argc` pointers of the vector are not null. -/
def Counted (m : Mm.State) (pgdir argv : Word) (argc : ℕ) : Prop :=
  ∀ n < argc, translateUser m.mem pgdir (argv + 4 * .ofNat 32 n) ≠ -1 ∧
    userWord m pgdir (argv + 4 * .ofNat 32 n) ≠ 0

theorem wp_countFrom (fuel : ℕ) {i : ℕ} (hE : AllowsStops E)
    (hi : Counted s.mm cur.pgdir argv i) (hQ : ∀ n, Counted s.mm cur.pgdir argv n → Q n s) :
    wp (countFrom cur fuel (argv + 4 * .ofNat 32 i) i) Q E s := by
  induction fuel generalizing i with
  | zero => exact wp_throw.mpr (hE _ _ fun m => by simp)
  | succ fuel ih =>
    refine wp_bind.mpr (wp_getFs_same hE fun hmap => wp_ite.mpr
      ⟨fun _ => wp_pure.mpr (hQ i hi), fun hv => ?_⟩)
    have hnext : argv + 4 * .ofNat 32 i + 4 = argv + 4 * .ofNat 32 (i + 1) := by
      rw [BitVec.ofNat_add, BitVec.mul_add, BitVec.add_assoc]
      rfl
    rw [hnext]
    refine ih fun n hn => ?_
    rcases Nat.lt_succ_iff_lt_or_eq.mp hn with hn | rfl
    · exact hi n hn
    · exact ⟨hmap, hv⟩

theorem wp_countArgs (hE : AllowsStops E)
    (hQ : ∀ n, (argv = 0 → n = 0) → Counted s.mm cur.pgdir argv n → Q n s) :
    wp (countArgs cur argv) Q E s := by
  have hnone : Counted s.mm cur.pgdir argv 0 := fun n hn => absurd hn (not_lt_zero n)
  refine wp_ite.mpr ⟨fun _ => wp_pure.mpr (hQ 0 (fun _ => rfl) hnone), fun hne => ?_⟩
  have hstart : argv = argv + 4 * .ofNat 32 0 := by simp
  have h := wp_countFrom maxString hE hnone fun n hn => hQ n (fun h => absurd h hne) hn
  rwa [← hstart] at h

end

/-! ### The new directory -/

/-- The pages from `STACK_BASE` on. -/
def stackPages : Set ℕ := {n | stackBase.toNat / 4096 ≤ n}

theorem toNat_pageSize : (4096 : Word).toNat = 4096 := by decide

theorem stackPage_toNat (i : Fin maxArgPages) :
    (stackBase + 4096 * .ofNat 32 i).toNat / 4096 = stackBase.toNat / 4096 + i := by
  have hi : i.1 < 32 := i.isLt
  have hbase := toNat_stackBase
  have hnat : (BitVec.ofNat 32 i.1).toNat = i.1 := by
    rw [BitVec.toNat_ofNat]
    exact mod_eq_of_lt (by omega)
  have hmul : (4096 * .ofNat 32 i.1 : Word).toNat = 4096 * i.1 := by
    rw [BitVec.toNat_mul, hnat, toNat_pageSize]
    exact mod_eq_of_lt (by omega)
  rw [BitVec.toNat_add, hmul, mod_eq_of_lt (by omega)]
  omega

section

variable {eh : Ehdr} {lost : Multiset Word} {n : ℕ} {page : Fin maxArgPages → Word}
  {main : MainMemory} {w₀ : World} {j : Fin nrTasks} {s₁ s : Fs} {rd : RamDisk} {ip : Ino}
  {E : Minix.Halt → Fs → Prop} {d : Word} {own : Multiset Word} {pages : Set ℕ}

/-- The directory `d` is under construction, and the frames in `own` are not
mapped. -/
abbrev Building (main : MainMemory) (w₀ : World) (j : Fin nrTasks) (s₁ : Fs) (d : Word)
    (own : Multiset Word) (pages : Set ℕ) : Fs → Prop :=
  WithMm s₁ (SpareSpace main w₀ j (some d) own pages)

/-! ### Segments -/

/-- If the read for the page at `vaddr` is out of range, `E` allows the panic. -/
def Phdr.Reads (ph : Phdr) (E : Minix.Halt → Fs → Prop) (vaddr : Word) : Prop :=
  ¬ ph.InRange vaddr → ∀ s, E tooBig s

/-- The pages with `n` numbers from `m` on. -/
def pageRun (m n : ℕ) : Set ℕ := {k | m ≤ k ∧ k < m + n}

/-- What loading some pages leaves: frames that were mapped there before are
lost. -/
def Loaded (main : MainMemory) (w₀ : World) (j : Fin nrTasks) (s₁ : Fs) (d : Word)
    (own : Multiset Word) (pages new : Set ℕ) (ok : Bool) (s : Fs) : Prop :=
  ∃ lost pages', Building main w₀ j s₁ d (lost + own) pages' s ∧ pages' ⊆ pages ∪ new ∧
    (Disjoint new pages → lost = 0) ∧
    (ok = true → pages' = pages ∪ new ∧ (lost = 0 → Disjoint new pages))

theorem Loaded.of_building {new : Set ℕ} (h : Building main w₀ j s₁ d own pages s) :
    Loaded main w₀ j s₁ d own pages new false s :=
  ⟨0, pages, by rwa [zero_add], Set.subset_union_left, fun _ => rfl, fun hf => absurd hf (by simp)⟩

theorem pageRun_succ (m n : ℕ) : pageRun m (n + 1) = insert m (pageRun (m + 1) n) := by
  ext k
  simp only [pageRun, Set.mem_insert_iff, Set.mem_ofPred_eq]
  omega

/-- One page before the others. -/
theorem Loaded.cons {lost : Multiset Word} {m : ℕ} {ok : Bool} (hlost : lost = 0 ↔ m ∉ pages)
    (h : Loaded main w₀ j s₁ d (lost + own) (insert m pages) (pageRun (m + 1) n) ok s) :
    Loaded main w₀ j s₁ d own pages (pageRun m (n + 1)) ok s := by
  have hfresh : m ∉ pageRun (m + 1) n := fun hk => absurd hk.1 (not_succ_le_self m)
  obtain ⟨lost', pages', h, hsub, hlost', hall⟩ := h
  rw [Set.insert_union, ← Set.union_insert] at hsub hall
  rw [pageRun_succ]
  refine ⟨lost' + lost, pages', by rwa [add_assoc], hsub, fun hdisj => ?_, fun hok => ?_⟩
  · rw [Set.disjoint_insert_left] at hdisj
    rw [hlost.mpr hdisj.1, hlost', add_zero]
    exact Set.disjoint_insert_right.mpr ⟨hfresh, hdisj.2⟩
  · refine ⟨(hall hok).1, fun hzero => ?_⟩
    obtain ⟨hzero', hzero⟩ := add_eq_zero.mp hzero
    exact Set.disjoint_insert_left.mpr ⟨hlost.mp hzero,
      (Set.disjoint_insert_right.mp ((hall hok).2 hzero')).2⟩

theorem Phdr.pageRun_eq (ph : Phdr) : pageRun (ph.first.toNat / 4096) ph.pageCount = ph.pages := by
  have hfirst := toNat_page ph.vaddr
  have hlast := toNat_page (ph.vaddr + ph.memsz + 0xfff)
  ext k
  simp only [pageRun, pages, pageCount, first, last, Set.mem_ofPred_eq, hfirst, hlast]
  omega

/-- A segment ends below the stack. -/
theorem disjoint_stackPages (o : Option Phdr) : Disjoint (segPages o) stackPages := by
  rw [Set.disjoint_left]
  intro n hn hstack
  cases o with
  | none => exact hn
  | some ph =>
    rw [segPages] at hn
    split at hn
    · next hload =>
      have hlast := Phdr.last_le hload
      have hlt : n < ph.last.toNat / 4096 := hn.2
      have hge : stackBase.toNat / 4096 ≤ n := hstack
      omega
    · exact hn

/-! ### Headers -/

/-- What a file makes `do_execve` read after the first header; if it is out of
range, `E` allows the panic. -/
structure HeaderReads (E : Minix.Halt → Fs → Prop) (rd : RamDisk) (s : Fs) (ip : Ino)
    (phoff : Word) (phnum : ℕ) : Prop where
  header : ∀ i < phnum, ¬ FileRange (phoff + 32 * .ofNat 32 i) 32 → ∀ s, E tooBig s
  segment : ∀ i < phnum, ∀ ph, phdrAt rd s ip phoff i = some ph → ph.Loads →
    ∀ k < ph.pageCount, ph.Reads E (ph.first + .ofNat 32 (4096 * k))

/-- The pages of the headers before number `i`. -/
def pagesBefore (rd : RamDisk) (s : Fs) (ip : Ino) (phoff : Word) (i : ℕ) : Set ℕ :=
  {m | ∃ i' < i, m ∈ segPages (phdrAt rd s ip phoff i')}

/-- The segments have been loaded, up to where one could not be. -/
def LoadedAll (main : MainMemory) (w₀ : World) (j : Fin nrTasks) (s₁ : Fs) (rd : RamDisk)
    (ip : Ino) (phoff : Word) (phnum : ℕ) (d : Word) (s : Fs) : Prop :=
  ∃ lost pages, Building main w₀ j s₁ d lost pages s ∧ (Apart rd s₁ ip phoff phnum → lost = 0)

/-- One header: what can be read of it decides. -/
theorem wp_loadHeaders_step {phoff : Word} {i : ℕ} {Q : Option ℤ → Fs → Prop}
    (hs : ∃ m, s = { s₁ with mm := m })
    (hrange : ¬ FileRange (phoff + 32 * .ofNat 32 i) 32 → E tooBig s)
    (hnone : phdrAt rd s₁ ip phoff i = none → Q (some (-eio)) s)
    (hskip : ∀ ph, phdrAt rd s₁ ip phoff i = some ph → ph.type ≠ 1 →
      wp (loadHeaders rd ip phoff d n (i + 1)) Q E s)
    (hbad : ∀ ph, phdrAt rd s₁ ip phoff i = some ph → ph.type = 1 → ¬ ph.Loads →
      Q (some (-enoexec)) s) (hload : ∀ ph, phdrAt rd s₁ ip phoff i = some ph → ph.Loads →
      wp (loadSegment rd ip ph d) (fun ok s' => if ok = true then
        wp (loadHeaders rd ip phoff d n (i + 1)) Q E s' else Q (some (-enomem)) s') E s) :
    wp (loadHeaders rd ip phoff d (n + 1) i) Q E s := by
  obtain ⟨m, rfl⟩ := hs
  refine wp_bind.mpr (wp_readFile hrange ?_)
  rw [fileBytes_mm]
  cases hr : fileBytes rd s₁ ip 32 (phoff + 32 * .ofNat 32 i) 32 with
  | mk ok bytes =>
  cases ok with
  | false => exact wp_pure.mpr (hnone (by rw [phdrAt, hr]; rfl))
  | true =>
    have hph : phdrAt rd s₁ ip phoff i = some (Phdr.ofBytes bytes) := by
      rw [phdrAt, hr]
      rfl
    refine wp_ite.mpr ⟨fun hf => absurd hf (by simp), fun _ => wp_ite.mpr
      ⟨hskip _ hph, fun htype => wp_ite.mpr ⟨fun hout => ?_, fun hbounds => wp_bind.mpr ?_⟩⟩⟩
    · refine wp_pure.mpr (hbad _ hph (not_not.mp htype) fun hl => ?_)
      rcases hout with hout | hout
      · exact BitVec.not_le.mpr hl.2.1 hout
      · exact BitVec.not_lt.mpr hl.2.2 hout
    · rw [not_or] at hbounds
      have hl : (Phdr.ofBytes bytes).Loads :=
        ⟨not_not.mp htype, BitVec.not_le.mp hbounds.1, BitVec.not_lt.mp hbounds.2⟩
      refine (hload _ hph hl).imp fun ok s' h => wp_ite.mpr ⟨fun hok => ?_, fun hok => ?_⟩
      · rwa [if_pos hok] at h
      · rw [if_neg hok] at h
        exact wp_pure.mpr h

/-! ### Giving everything back -/

/-- The pages of `page` from number `l` on. -/
def pagesFrom (page : Fin maxArgPages → Word) (l : ℕ) : Fin maxArgPages → Word := fun i =>
  if i.1 < l then 0 else page i

theorem pagesFrom_succ (page : Fin maxArgPages → Word) (i : Fin maxArgPages) :
    pagesFrom page (i + 1) = update (pagesFrom page i) i 0 := by
  funext i'
  by_cases h : i' = i
  · rw [h, update_self]
    exact if_pos (lt_succ_self _)
  · rw [update_of_ne h, pagesFrom, pagesFrom]
    have hne : i'.1 ≠ i.1 := fun he => h (Fin.ext he)
    exact if_congr (by omega) rfl rfl

variable {I : (Ino → MInode) → Prop}

/-- `iput` of the file has to leave memory alone. -/
theorem wp_giveBack (hiput : ∀ m, wp (iput rd (some ip)) (fun _ s' => s'.mm = m ∧ I s'.inode) E
      { s₁ with mm := m })
    (h : WithMm s₁ (SpareSpace main w₀ j none (argOwn page + lost) pages) s) :
    wp (execError rd ip page)
      (fun _ s' => SpareSpace main w₀ j none lost pages s'.mm ∧ I s'.inode) E s := by
  obtain ⟨m, rfl, hm⟩ := h
  refine (hiput m).next fun _ s' ⟨hmm, hinode⟩ => ?_
  rw [← hmm] at hm
  have hloop : wp (forN maxArgPages fun i =>
      if page i = 0 then return () else Minix.liftMm (Mm.freePage (page i)))
      (fun _ s => SpareSpace main w₀ j none (argOwn (pagesFrom page maxArgPages) + lost) pages s.mm ∧
        I s.inode) E s' := by
    refine wp_forN (fun l (s : Fs) => SpareSpace main w₀ j none
      (argOwn (pagesFrom page l) + lost) pages s.mm ∧ I s.inode) (fun i s ⟨hs, hinode⟩ => ?_) ?_
    · have hself : pagesFrom page i i = page i := if_neg (lt_irrefl _)
      rw [pagesFrom_succ]
      refine wp_ite.mpr ⟨fun h0 => wp_pure.mpr ?_, fun h0 => ?_⟩
      · rw [← hself] at h0
        rw [← h0, update_eq_self]
        exact ⟨hs, hinode⟩
      · rw [← hself] at h0
        rw [argOwn_clear h0, hself, cons_add] at hs
        rw [Minix.wp_liftMm]
        exact hs.wp_freePage.imp fun _ _ hm => ⟨hm, hinode⟩
    · have hzero : pagesFrom page 0 = page := funext fun i => if_neg (not_lt_zero _)
      rw [hzero]
      exact ⟨hm, hinode⟩
  refine hloop.imp fun _ s h => ?_
  have hnone : pagesFrom page maxArgPages = fun _ => 0 := funext fun i => if_pos i.isLt
  rwa [hnone, argOwn_zero, zero_add] at h

/-- What `do_execve` leaves before the point of no return: after a failure at
most lost frames, and otherwise the new directory. -/
def Built (main : MainMemory) (w₀ : World) (j : Fin nrTasks) (s₁ : Fs) (rd : RamDisk)
    (ip : Ino) (eh : Ehdr) (I : (Ino → MInode) → Prop) (r : Except ℤ Image) (s : Fs) : Prop :=
  ∃ lost pages, (Apart rd s₁ ip eh.phoff eh.phnum.toNat → lost = 0) ∧
    match r with
    | .error _ => SpareSpace main w₀ j none lost pages s.mm ∧ I s.inode
    | .ok image => image.ip = ip ∧ image.eh = eh ∧ eh.runnable = true ∧
        Building main w₀ j s₁ image.pgdir lost pages s

end

end LinuxRv.Proc
