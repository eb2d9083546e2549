import LinuxRv.Lib.PageArea
import LinuxRv.Proc.ExecSpace

/-!
The strings of a program (`copy_strings` in `fs/exec.c`).

What a task has in memory is a function from addresses to bytes, and a vector of
strings is a property of it, for the caller of `execve` as well as for the new
program. Copying the vector stores the strings one behind the other in an area
of 32 pages, from the top. That a string does not fit is tested by a comparison
that is never true, so what is beyond the area is written as well.
-/

namespace LinuxRv.Proc

open ByteMemory Prog Fs Minix Mm PageArea Function BitVec List Nat List

variable {argv : Word} {str : List Byte} {strs : List (List Byte)} {u : UserView}

/-! ### Vectors of strings -/

/-- A string and the zero byte behind it. -/
def StringAt (u : UserView) (a : Word) (str : List Byte) : Prop :=
  0 ∉ str ∧ BytesAt u a (str ++ [0])

/-- Pointers to the strings. -/
def PointersAt (u : UserView) (argv : Word) (strs : List (List Byte)) : Prop :=
  ∀ (k : ℕ) (h : k < strs.length), ∃ p, p ≠ 0 ∧
    WordAt u (argv + 4 * .ofNat 32 k) p ∧ StringAt u p strs[k]

/-- Pointers to the strings, and a null pointer behind them. -/
def VectorAt (u : UserView) (argv : Word) (strs : List (List Byte)) : Prop :=
  PointersAt u argv strs ∧ WordAt u (argv + 4 * .ofNat 32 strs.length) 0

/-- The strings one behind the other. -/
def stringBytes (strs : List (List Byte)) : List Byte := strs.flatMap (· ++ [0])

theorem stringBytes_concat (strs : List (List Byte)) (str : List Byte) :
    stringBytes (strs ++ [str]) = stringBytes strs ++ (str ++ [0]) := by
  rw [stringBytes, flatMap_append, flatMap_singleton, stringBytes]

theorem PointersAt.init (h : PointersAt u argv (strs ++ [str])) : PointersAt u argv strs := by
  intro k hk
  have hlt : k < (strs ++ [str]).length := by
    rw [length_append]
    exact Nat.lt_add_right _ hk
  obtain ⟨p, hp, hword, hstr⟩ := h k hlt
  exact ⟨p, hp, hword, by rwa [getElem_append_left hk] at hstr⟩

theorem PointersAt.last (h : PointersAt u argv (strs ++ [str])) : ∃ p, p ≠ 0 ∧
      WordAt u (argv + 4 * .ofNat 32 strs.length) p ∧ StringAt u p str := by
  have hlt : strs.length < (strs ++ [str]).length := by
    rw [length_append]
    exact lt_succ_self _
  obtain ⟨p, hp, hword, hstr⟩ := h strs.length hlt
  exact ⟨p, hp, hword, by rwa [getElem_concat_length rfl] at hstr⟩

/-- A string that ends is not longer than the address space. -/
theorem StringAt.length_lt {a : Word} (h : StringAt u a str) : str.length < 2 ^ 32 := by
  by_contra hlong
  obtain ⟨hnot, hbytes⟩ := h
  have hlen : (str ++ [(0 : Byte)]).length = str.length + 1 := by simp
  have hfirst : str.length - 2 ^ 32 < str.length := by omega
  -- the zero byte has the address of one of the others
  have hsame : a + .ofNat 32 str.length = a + .ofNat 32 (str.length - 2 ^ 32) := by
    refine congrArg (a + ·) (eq_of_toNat_eq ?_)
    rw [toNat_ofNat, toNat_ofNat]
    omega
  have hzero := hbytes str.length (by omega)
  rw [hsame, hbytes (str.length - 2 ^ 32) (by omega), getElem_append_left hfirst,
    getElem_concat_length rfl, Option.some.injEq] at hzero
  exact hnot (hzero ▸ getElem_mem hfirst)

/-- A vector as it is given to `execve`. -/
def ArgVector (u : UserView) (argv : Word) (strs : List (List Byte)) : Prop :=
  if argv = 0 then strs = [] else argv.toNat % 4 = 0 ∧ VectorAt u argv strs

theorem wordAt_unique {a v v' : Word} (h : WordAt u a v) (h' : WordAt u a v') : v = v' := by
  apply eq_of_getLsbD_eq
  intro i hi
  have hk : i / 8 < 4 := by omega
  have hbyte := congrArg (fun b : Byte => b.getLsbD (i % 8))
    (Option.some.inj ((h (i / 8) hk).symm.trans (h' (i / 8) hk)))
  have hmod : i % 8 < 8 := mod_lt i (by decide)
  simp only [getLsbD_extractLsb', hmod, decide_true, Bool.true_and, div_add_mod] at hbyte
  exact hbyte

/-- A vector that ends is not longer than the address space. -/
theorem VectorAt.length_lt (h : VectorAt u argv strs) : strs.length < 2 ^ 30 := by
  by_contra hlong
  have hfirst : strs.length - 2 ^ 30 < strs.length := by omega
  obtain ⟨p, hp, hword, -⟩ := h.1 _ hfirst
  -- the null pointer has the address of one of the others
  have hsame : 4 * BitVec.ofNat 32 strs.length = 4 * BitVec.ofNat 32 (strs.length - 2 ^ 30) := by
    apply eq_of_toNat_eq
    rw [toNat_mul, toNat_mul, toNat_ofNat, toNat_ofNat, show (4 : Word).toNat = 4 from rfl]
    omega
  have hlast := h.2
  rw [hsame] at hlast
  exact hp (wordAt_unique hword hlast)

theorem ArgVector.pointersAt
    (h : ArgVector u argv strs) : argv.toNat % 4 = 0 ∧ PointersAt u argv strs := by
  unfold ArgVector at h
  split at h
  · next h0 =>
    subst h0 h
    exact ⟨rfl, fun k hk => absurd hk (not_lt_zero k)⟩
  · exact ⟨h.1, h.2.1⟩

/-! ### The caller -/

instance (main : MainMemory) (a : Word) : Decidable (main.Outside a) :=
  inferInstanceAs (Decidable (_ ∨ _))

/-- What the caller of `execve` has in memory. A kernel task uses physical
addresses, and has its strings outside of main memory. -/
def callerView (main : MainMemory) (w : World) (pgdir : Word) : UserView := fun a =>
  if pgdir = 0 ∧ ¬ main.Outside a then none else userByte w.mm.mem pgdir a

/-- The argument pages are taken; `w₀` is the world before. -/
structure HeldPages (main : MainMemory) (w₀ : World) (j : Fin nrTasks)
    (page : Fin maxArgPages → Word) (m : Mm.State) : Prop where
  space : SpareSpace main w₀ j none (argOwn page) ∅ m
  outside : ∀ a, main.Outside a → m.mem a = w₀.mm.mem a

section

variable {main : MainMemory} {w₀ : World} {j : Fin nrTasks} {page : Fin maxArgPages → Word}
  {m : Mm.State} {pgdir a v : Word} {c : Byte}

/-- Taking pages does not change what the caller sees. -/
theorem HeldPages.userByte_eq (h : HeldPages main w₀ j page m)
    (hdir : pgdir ≠ 0 → ∃ i, w₀.pgdir i = some pgdir)
    (hc : callerView main w₀ pgdir a = some c) : userByte m.mem pgdir a = some c := by
  unfold callerView at hc
  split at hc
  · cases hc
  · next hnot =>
    by_cases h0 : pgdir = 0
    · have hout : main.Outside a := by
        by_contra hin
        exact hnot ⟨h0, hin⟩
      rw [userByte, translateUser, if_pos h0] at hc ⊢
      rwa [h.outside a hout]
    · obtain ⟨i, hi⟩ := hdir h0
      obtain ⟨w, rfl, -, hw, -⟩ := h.space
      rwa [hw.userByte_eq hi]

theorem ArgVector.imp {u u' : UserView} (hu : ∀ a c, u a = some c → u' a = some c) {argv : Word}
    {strs : List (List Byte)} (h : ArgVector u argv strs) : ArgVector u' argv strs := by
  unfold ArgVector at h ⊢
  split
  · next h0 => rwa [if_pos h0] at h
  · next h0 =>
    rw [if_neg h0] at h
    obtain ⟨halign, hptr, hlast⟩ := h
    refine ⟨halign, fun k hk => ?_, fun k hk => hu _ _ (hlast k hk)⟩
    obtain ⟨p, hp, hword, hnot, hbytes⟩ := hptr k hk
    exact ⟨p, hp, fun k hk => hu _ _ (hword k hk), hnot, fun k hk => hu _ _ (hbytes k hk)⟩

theorem HeldPages.wordAt (h : HeldPages main w₀ j page m)
    (hdir : pgdir ≠ 0 → ∃ i, w₀.pgdir i = some pgdir)
    (hv : WordAt (callerView main w₀ pgdir) a v) : WordAt (userByte m.mem pgdir) a v :=
  fun k hk => h.userByte_eq hdir (hv k hk)

theorem HeldPages.isFrame (h : HeldPages main w₀ j page m) {i : Fin maxArgPages}
    (hi : page i ≠ 0) : ∃ n, main.Has n ∧ page i = frame n := by
  obtain ⟨w, -, -, hw, -⟩ := h.space
  exact View.Inv.main_of_held hw.inv (hw.mem_held (mem_argOwn hi))

/-- No page is there twice. -/
theorem HeldPages.injective (h : HeldPages main w₀ j page m) {i i' : Fin maxArgPages}
    (hi : page i ≠ 0) (hsame : page i' = page i) : i' = i := by
  by_contra hne
  obtain ⟨w, -, -, hw, -⟩ := h.space
  have hmem : page i ∈ argOwn (update page i 0) := by
    have hi' : update page i 0 i' ≠ 0 := by
      rw [update_of_ne hne, hsame]
      exact hi
    have h' := mem_argOwn hi'
    rwa [update_of_ne hne, hsame] at h'
  have htwice : 1 < (argOwn page).count (page i) := by
    rw [argOwn_clear hi, Multiset.count_cons_self]
    exact succ_lt_succ (Multiset.count_pos.mpr hmem)
  have hle := hw.refs_le (page i)
  have hone := View.Inv.held_exclusive hw.inv (page i) (hw.mem_held (mem_argOwn hi))
  omega

end

/-! ### The area -/

/-- The bytes in the argument pages. -/
def argArea (m : Mm.State) (page : Fin maxArgPages → Word) : Area Byte := fun x =>
  if h : x / 4096 < maxArgPages then
    if page ⟨x / 4096, h⟩ = 0 then none
    else some (m.mem (page ⟨x / 4096, h⟩ + .ofNat 32 (x % 4096)))
  else none

theorem argArea_eq_none {m : Mm.State} {page : Fin maxArgPages → Word} {x : ℕ}
    (h : x / 4096 < maxArgPages) : argArea m page x = none ↔ page ⟨x / 4096, h⟩ = 0 := by
  rw [argArea, dif_pos h]
  split
  · next h0 => exact iff_of_true rfl h0
  · next h0 => exact iff_of_false (by simp) h0

theorem isSome_argArea {m : Mm.State} {page : Fin maxArgPages → Word} {x : ℕ} :
    (argArea m page x).isSome = true ↔ ∃ h : x / 4096 < maxArgPages, page ⟨x / 4096, h⟩ ≠ 0 := by
  by_cases h : x / 4096 < maxArgPages
  · rw [Option.isSome_iff_ne_none, Ne, argArea_eq_none h]
    exact ⟨fun h0 => ⟨h, h0⟩, fun ⟨_, h0⟩ => h0⟩
  · rw [argArea, dif_neg h]
    exact iff_of_false Bool.false_ne_true fun ⟨h', _⟩ => h h'

theorem paged_argArea (m : Mm.State) (page : Fin maxArgPages → Word) :
    Paged 4096 (argArea m page) := by
  intro x y hxy
  rw [isSome_argArea, isSome_argArea]
  simp only [hxy]

/-- The area is in the frames of its pages. -/
theorem argArea_congr {m m' : Mm.State} {page : Fin maxArgPages → Word}
    (h : ∀ q ∈ argOwn page, SameBytes m.mem m'.mem q) : argArea m' page = argArea m page := by
  funext x
  unfold argArea
  split
  · next hx =>
    split
    · rfl
    · next hne => exact congrArg some (h _ (mem_argOwn hne) _ (mod_lt x (by decide)))
  · rfl

section

variable {main : MainMemory} {w₀ : World} {j : Fin nrTasks} {page : Fin maxArgPages → Word}
  {m : Mm.State} {q : ℕ}

theorem HeldPages.store (h : HeldPages main w₀ j page m) {i : Fin maxArgPages} (hi : page i ≠ 0)
    {o : ℕ} (ho : o < 4096) (c : Byte) : HeldPages main w₀ j page
      (m.setMem (update m.mem (page i + .ofNat 32 o) c)) where
  space := (h.space.write (mem_argOwn hi) fun q hq hne =>
    sameBytes_update (h.space.isFrame (mem_argOwn hi)) hq hne ho).1
  outside a ha := by
    obtain ⟨n, hn, hframe⟩ := h.isFrame hi
    have hne : a ≠ page i + .ofNat 32 o := by
      rw [hframe]
      exact ha.ne hn ho
    exact (update_of_ne hne ..).trans (h.outside a ha)

theorem offset_inj {p : Word} {o o' : ℕ} (ho : o < 4096) (ho' : o' < 4096)
    (h : p + .ofNat 32 o = p + .ofNat 32 o') : o = o' := by
  have hnat := congrArg BitVec.toNat (add_left_cancel h)
  rw [toNat_ofNat, toNat_ofNat] at hnat
  omega

/-- A byte stored in a page that is there. -/
theorem HeldPages.argArea_store (h : HeldPages main w₀ j page m) (hq : q / 4096 < maxArgPages)
    (hi : page ⟨q / 4096, hq⟩ ≠ 0) (c : Byte) :
    argArea (m.setMem (update m.mem (page ⟨q / 4096, hq⟩ + .ofNat 32 (q % 4096)) c)) page =
        update (argArea m page) q (some c) := by
  have hlt (x : ℕ) : x % 4096 < 4096 := mod_lt x (by decide)
  funext x
  by_cases hx : x = q
  · rw [hx, update_self, argArea, dif_pos hq, if_neg hi]
    exact congrArg some (update_self ..)
  rw [update_of_ne hx, argArea, argArea]
  by_cases hx' : x / 4096 < maxArgPages
  · rw [dif_pos hx', dif_pos hx']
    split
    · rfl
    · next hpage =>
      by_cases hdiv : x / 4096 = q / 4096
      · refine congrArg some (update_of_ne (fun hsame => hx ?_) ..)
        simp only [hdiv] at hsame
        have := offset_inj (hlt x) (hlt q) hsame
        omega
      · have hne : page ⟨x / 4096, hx'⟩ ≠ page ⟨q / 4096, hq⟩ := fun he =>
          hdiv (Fin.val_eq_of_eq (h.injective hi he))
        exact congrArg some (sameBytes_update (h.space.isFrame (mem_argOwn hi))
          (h.space.isFrame (mem_argOwn hpage)) hne (hlt q) _ (hlt x))
  · rw [dif_neg hx', dif_neg hx']

/-- A page for an index that has none. -/
theorem HeldPages.wp_getFreePage {E : Mm.Halt → Mm.State → Prop} (h : HeldPages main w₀ j page m)
    (hq : q / 4096 < maxArgPages) (hnone : page ⟨q / 4096, hq⟩ = 0) : wp getFreePage (fun new m' =>
      HeldPages main w₀ j (update page ⟨q / 4096, hq⟩ new) m' ∧
      if new = 0 then freeFrames m.memMap = 0
      else argArea m' (update page ⟨q / 4096, hq⟩ new) = touch 4096 (argArea m page) q ∧
        freeFrames m'.memMap + 1 = freeFrames m.memMap) E m := by
  refine h.space.wp_getFreePage.imp fun new m' ⟨hsame, hout, _, hcase⟩ => ?_
  have hout' (a : Word) (ha : main.Outside a) := (hout a ha).trans (h.outside a ha)
  have hown : argOwn (update page ⟨q / 4096, hq⟩ new) = _ := argOwn_update hnone
  by_cases hnew : new = 0
  · rw [if_pos hnew] at hcase hown ⊢
    exact ⟨⟨hown ▸ hcase.1, hout'⟩, hcase.2⟩
  rw [if_neg hnew] at hcase hown ⊢
  obtain ⟨hspace, hzero, hfree⟩ := hcase
  refine ⟨⟨hown ▸ hspace, hout'⟩, funext fun x => ?_, hfree⟩
  rw [touch, ← argArea_congr hsame, argArea, argArea]
  by_cases hx' : x / 4096 < maxArgPages
  · rw [dif_pos hx', dif_pos hx']
    by_cases hx : x / 4096 = q / 4096
    · simp only [hx, update_self, hnone, if_true, if_neg hnew]
      exact congrArg some (congrFun hzero ⟨x % 4096, mod_lt x (by decide)⟩)
    · rw [if_neg hx, update_of_ne fun he => hx (Fin.val_eq_of_eq he)]
  · rw [dif_neg hx', dif_neg hx', if_neg fun hx => hx' (hx.trans_lt hq)]

end

/-! ### Copying -/

/-- How far the copying has come: `done` is stored below `p₀`, in the area that
was `A₀` when `f₀` frames were free. The offset is that of `p` in its page, or
zero at the beginning. -/
structure Copying (main : MainMemory) (w₀ : World) (j : Fin nrTasks) (A₀ : Area Byte) (f₀ p₀ : ℕ)
    (done : List Byte) (a : ArgPages) (m : Mm.State) : Prop where
  held : HeldPages main w₀ j a.page m
  pos : a.p.toNat + done.length = p₀
  area : argArea m a.page = putAll 4096 A₀ a.p.toNat done
  free : freeFrames m.memMap + missing 4096 maxArgPages A₀ p₀ =
    f₀ + missing 4096 maxArgPages (argArea m a.page) p₀
  cache : a.offset ≠ 0 → a.offset = (a.p.toNat % 4096 : ℕ) ∧
    ∃ h : a.p.toNat / 4096 < maxArgPages, a.pag = a.page ⟨a.p.toNat / 4096, h⟩ ∧ a.pag ≠ 0

/-- The page of the next byte, with the frames it has cost; without a page the
area needs more frames than there are. -/
structure NextPage (main : MainMemory) (w₀ : World) (j : Fin nrTasks) (A : Area Byte) (f p₀ q : ℕ)
    (a : ArgPages) (m : Mm.State) : Prop where
  held : HeldPages main w₀ j a.page m
  pos : a.p.toNat = q
  offset : a.offset = (q % 4096 : ℕ)
  page : ∃ h : q / 4096 < maxArgPages, a.pag = a.page ⟨q / 4096, h⟩
  none : a.pag = 0 → f = 0 ∧ A q = none
  area : a.pag ≠ 0 → argArea m a.page = touch 4096 A q
  free : a.pag ≠ 0 → freeFrames m.memMap + missing 4096 maxArgPages A p₀ =
    f + missing 4096 maxArgPages (touch 4096 A q) p₀

section

variable {E : Minix.Halt → Fs → Prop} {Q : ℕ → Fs → Prop} {argv tmp : Word}
  {page : Fin maxArgPages → Word} {q : ℕ} {str : List Byte} {strs : List (List Byte)}
  {main : MainMemory} {w₀ : World} {j : Fin nrTasks} {A₀ : Area Byte} {f₀ p₀ : ℕ} {done : List Byte}
  {a : ArgPages} {m : Mm.State} {s₁ s : Fs} {cur : Current}

theorem wp_argPage_next (h : HeldPages main w₀ j a.page m) (hpos : a.p.toNat = q) (hq : q < p₀)
    (hp₀ : p₀ ≤ 4096 * maxArgPages) : wp (argPage a) (fun a' s' => ∃ m', s' = { s₁ with mm := m' } ∧
      NextPage main w₀ j (argArea m a.page) (freeFrames m.memMap) p₀ q a' m') E
      { s₁ with mm := m } := by
  have hlt : q / 4096 < maxArgPages := by omega
  subst hpos
  unfold argPage
  rw [dif_pos hlt]
  dsimp only
  by_cases h0 : a.page ⟨a.p.toNat / 4096, hlt⟩ = 0
  · rw [if_neg (not_not.mpr h0), wp_bind, Minix.wp_liftMm]
    refine (h.wp_getFreePage hlt h0).imp fun new m' ⟨hheld, hcase⟩ => wp_pure.mpr ⟨m', rfl, ?_⟩
    have hnone := (argArea_eq_none (m := m) hlt).mpr h0
    have hself : new = update a.page ⟨a.p.toNat / 4096, hlt⟩ new
        ⟨a.p.toNat / 4096, hlt⟩ := by rw [update_self]
    refine ⟨hheld, rfl, rfl, ⟨hlt, hself⟩, fun hnew => ?_, fun hnew => ?_, fun hnew => ?_⟩
    · rw [if_pos hnew] at hcase
      exact ⟨hcase, hnone⟩
    · rw [if_neg hnew] at hcase
      exact hcase.1
    · rw [if_neg hnew] at hcase
      have htouch := missing_touch (by decide) (paged_argArea m a.page) hlt hq hnone
      have hfree := hcase.2
      show freeFrames m'.memMap + _ = _
      omega
  · rw [if_pos h0, wp_pure]
    have hsome : (argArea m a.page a.p.toNat).isSome = true := isSome_argArea.mpr ⟨hlt, h0⟩
    have htouch := (paged_argArea m a.page).touch_eq hsome
    refine ⟨m, rfl, h, rfl, rfl, ⟨hlt, rfl⟩, fun hpag => absurd hpag h0, fun _ => htouch.symm,
      fun _ => ?_⟩
    rw [htouch]

/-- Where the next byte goes. Below the area there is no page. -/
theorem Copying.wp_next (h : Copying main w₀ j A₀ f₀ p₀ done a m) (hp₀ : p₀ ≤ 4096 * maxArgPages) :
    wp (if a.offset - 1 < 0 then argPage { a with p := a.p - 1, offset := a.offset - 1 }
        else pure { a with p := a.p - 1, offset := a.offset - 1 })
      (fun a' s' => ∃ m' q, s' = { s₁ with mm := m' } ∧ a.p.toNat = q + 1 ∧
        NextPage main w₀ j (argArea m a.page) (freeFrames m.memMap) p₀ q a' m')
      (fun e _ => e = .wild ∧ a.p.toNat = 0) { s₁ with mm := m } := by
  have hlen := h.pos
  cases hp : a.p.toNat with
  | zero =>
    have hoffset : a.offset = 0 := by
      by_contra hne
      have hcache := (h.cache hne).1
      rw [hp] at hcache
      exact hne hcache
    have hwrap : (a.p - 1).toNat = 2 ^ 32 - 1 := by
      rw [toNat_sub, hp]
      rfl
    have hout : ¬ (a.p - 1).toNat / 4096 < maxArgPages := by
      rw [hwrap]
      decide
    rw [hoffset, if_pos (by decide), argPage, dif_neg hout, wp_throw]
    exact ⟨rfl, rfl⟩
  | succ q =>
    have hprev : (a.p - 1).toNat = q := by
      have hlt := a.p.isLt
      rw [toNat_sub, hp, show (1 : Word).toNat = 1 from rfl]
      omega
    by_cases hoffset : a.offset = 0
    · rw [hoffset, if_pos (by decide)]
      refine (wp_argPage_next (a := { a with p := a.p - 1, offset := (0 : ℤ) - 1 }) h.held hprev
        (by omega) hp₀).imp fun a' s' ⟨m', hs', hnext⟩ => ?_
      exact ⟨m', q, hs', rfl, hnext⟩
    · obtain ⟨hcache, hlt, hpag, h0⟩ := h.cache hoffset
      rw [hp] at hcache
      have hpos : ¬ a.offset - 1 < 0 := by omega
      have hdiv : q / 4096 = a.p.toNat / 4096 := by omega
      have hlt' : q / 4096 < maxArgPages := hdiv ▸ hlt
      have hpage : a.pag = a.page ⟨q / 4096, hlt'⟩ := by
        rw [hpag]
        simp only [hdiv]
      have hsome : (argArea m a.page q).isSome = true :=
        isSome_argArea.mpr ⟨hlt', hpage ▸ h0⟩
      have htouch := (paged_argArea m a.page).touch_eq hsome
      rw [if_neg hpos, wp_pure]
      refine ⟨m, q, rfl, rfl, h.held, hprev, ?_, ⟨hlt', hpage⟩, fun hnone => absurd hnone h0,
        fun _ => htouch.symm, fun _ => by rw [htouch]⟩
      show a.offset - 1 = _
      omega

/-- A byte is stored. -/
theorem NextPage.store {a' : ArgPages} {m' : Mm.State}
    (h : Copying main w₀ j A₀ f₀ p₀ done a m) (hq : a.p.toNat = q + 1)
    (h' : NextPage main w₀ j (argArea m a.page) (freeFrames m.memMap) p₀ q a' m')
    (hpag : a'.pag ≠ 0) (c : Byte) : Copying main w₀ j A₀ f₀ p₀ (c :: done) a'
      (m'.setMem (update m'.mem (a'.pag + BitVec.ofInt 32 a'.offset) c)) := by
  obtain ⟨hlt, hpage⟩ := h'.page
  have h0 : a'.page ⟨q / 4096, hlt⟩ ≠ 0 := hpage ▸ hpag
  have haddr : a'.pag + BitVec.ofInt 32 a'.offset =
      a'.page ⟨q / 4096, hlt⟩ + .ofNat 32 (q % 4096) := by
    rw [hpage, h'.offset, ofInt_natCast]
  have hlen := h.pos
  have harea : argArea (m'.setMem (update m'.mem
      (a'.page ⟨q / 4096, hlt⟩ + .ofNat 32 (q % 4096)) c)) a'.page =
        put 4096 (argArea m a.page) q c := by
    rw [h'.held.argArea_store hlt h0, h'.area hpag]
    rfl
  rw [haddr]
  refine ⟨h'.held.store h0 (mod_lt q (by decide)) c, ?_, ?_, ?_, fun _ => ⟨?_, ?_⟩⟩
  · rw [h'.pos, length_cons]
    omega
  · rw [harea, h.area, h'.pos, hq]
    rfl
  · rw [harea, missing_put]
    have hfree := h.free
    have hfree' := h'.free hpag
    show freeFrames m'.memMap + _ = _
    omega
  · rw [h'.offset, h'.pos]
  · simp only [h'.pos]
    exact ⟨hlt, hpage, hpag⟩

/-- What the copying comes to: `done` is stored, or there are fewer frames than
pages are missing. -/
def CopyEnd (main : MainMemory) (w₀ : World) (j : Fin nrTasks) (A₀ : Area Byte) (f₀ p₀ : ℕ)
    (s₁ : Fs) (done : List Byte) (ok : Bool) (a : ArgPages) (s : Fs) : Prop :=
  ∃ m, s = { s₁ with mm := m } ∧
    if ok = true then Copying main w₀ j A₀ f₀ p₀ done a m
    else HeldPages main w₀ j a.page m ∧ f₀ < missing 4096 maxArgPages A₀ p₀

/-- Or else the bytes are more than the place for them, and the pages for all
of it could be taken. -/
def CopyWild (A₀ : Area Byte) (f₀ p₀ len : ℕ) (e : Minix.Halt) (_ : Fs) : Prop :=
  e = .wild ∧ p₀ < len ∧ missing 4096 maxArgPages A₀ p₀ ≤ f₀

theorem Copying.wild (h : Copying main w₀ j A₀ f₀ p₀ done a m) (h0 : a.p.toNat = 0) :
    missing 4096 maxArgPages A₀ p₀ ≤ f₀ := by
  have hall : missing 4096 maxArgPages (argArea m a.page) p₀ = 0 := by
    refine missing_eq_zero fun x hx => ?_
    have hpos := h.pos
    rw [h.area, isSome_putAll, h0]
    exact .inl ⟨x, by omega, by rw [Nat.zero_add]⟩
  have hfree := h.free
  omega

theorem Copying.full {a' : ArgPages} {m' : Mm.State}
    (h : Copying main w₀ j A₀ f₀ p₀ done a m) (hq : a.p.toNat = q + 1)
    (h' : NextPage main w₀ j (argArea m a.page) (freeFrames m.memMap) p₀ q a' m')
    (hpag : a'.pag = 0) : f₀ < missing 4096 maxArgPages A₀ p₀ := by
  obtain ⟨hf, hnone⟩ := h'.none hpag
  obtain ⟨hlt, -⟩ := h'.page
  have hpos := h.pos
  have hfree := h.free
  have htouch := missing_touch (by decide) (paged_argArea m a.page) hlt (show q < p₀ by omega) hnone
  omega

theorem wp_copyString_bytes {l : List Byte}
    (hdir : cur.pgdir ≠ 0 → ∃ i, w₀.pgdir i = some cur.pgdir)
    (hbytes : BytesAt (callerView main w₀ cur.pgdir) tmp l) (hp₀ : p₀ ≤ 4096 * maxArgPages)
    (h : Copying main w₀ j A₀ f₀ p₀ done a m) :
    wp (copyString cur l.length (tmp + .ofNat 32 l.length) a)
      (fun r => CopyEnd main w₀ j A₀ f₀ p₀ s₁ (l ++ done) r.1 r.2)
      (CopyWild A₀ f₀ p₀ (l.length + done.length)) { s₁ with mm := m } := by
  -- a string is copied from its end
  induction l using reverseRecOn generalizing done a m with
  | nil => exact wp_pure.mpr ⟨m, rfl, h⟩
  | append_singleton l c ih =>
    have hlen : (l ++ [c]).length = l.length + 1 := by simp
    have htmp : tmp + .ofNat 32 (l.length + 1) - 1 = tmp + .ofNat 32 l.length := by
      rw [ofNat_add, ← BitVec.add_assoc]
      exact add_sub_cancel ..
    have hinit : BytesAt (callerView main w₀ cur.pgdir) tmp l := by
      intro k hk
      rw [hbytes k (by omega), getElem_append_left hk]
    have hlast : callerView main w₀ cur.pgdir (tmp + .ofNat 32 l.length) = some c := by
      rw [hbytes l.length (by omega), getElem_concat_length rfl]
    rw [hlen, copyString]
    dsimp only
    rw [htmp, wp_ite_bind]
    refine (h.wp_next hp₀).mono (fun a' s' h' => ?_) fun e s' he => ?_
    · obtain ⟨m', q, rfl, hq, h'⟩ := h'
      refine wp_ite.mpr ⟨fun hpag => wp_pure.mpr ⟨m', rfl, ?_⟩, fun hpag => ?_⟩
      · rw [if_neg Bool.false_ne_true]
        exact ⟨h'.held, h.full hq h' hpag⟩
      · rw [wp_bind, Minix.getFsByte, Minix.wp_liftMm, wp_getFsByte_some (h'.held.userByte_eq hdir
          hlast), wp_bind, storeByte, Minix.wp_liftMm, wp_modify]
        refine (ih hinit (h'.store h hq hpag c)).mono (fun r s' hr => ?_) fun e s' he => ?_
        · rwa [List.append_assoc]
        · rwa [length_cons, ← Nat.add_assoc, Nat.add_right_comm] at he
    · have hpos := h.pos
      exact ⟨he.1, by omega, h.wild he.2⟩

/-! ### Strings -/

theorem StringAt.tail {u : UserView} {c : Byte}
    (h : StringAt u tmp (c :: str)) : StringAt u (tmp + 1) str := by
  refine ⟨fun hmem => h.1 (.tail _ hmem), fun k hk => ?_⟩
  have haddr : tmp + 1 + .ofNat 32 k = tmp + .ofNat 32 (k + 1) := by
    rw [Nat.add_comm, ofNat_add, ← BitVec.add_assoc]
    rfl
  rw [haddr]
  exact h.2 (k + 1) (succ_lt_succ hk)

theorem wp_strLen_string {fuel len : ℕ} (h : StringAt (userByte s.mm.mem cur.pgdir) tmp str)
    (hfuel : str.length < fuel) :
    wp (strLen cur fuel tmp len) Q E s ↔ Q (len + (str ++ [(0 : Byte)]).length) s := by
  induction str generalizing fuel len tmp with
  | nil =>
    obtain ⟨fuel, rfl⟩ := exists_eq_succ_of_ne_zero (Nat.ne_of_gt hfuel)
    have hbyte := h.2 0 (by decide)
    rw [BitVec.add_zero] at hbyte
    rw [strLen, wp_bind, Minix.getFsByte, Minix.wp_liftMm, wp_getFsByte_some hbyte]
    exact wp_pure
  | cons c str ih =>
    obtain ⟨fuel, rfl⟩ := exists_eq_succ_of_ne_zero (Nat.ne_of_gt (zero_lt_of_lt hfuel))
    have hbyte := h.2 0 (succ_pos _)
    rw [BitVec.add_zero] at hbyte
    have hc : c ≠ 0 := fun h0 => h.1 (h0 ▸ mem_cons_self ..)
    rw [strLen, wp_bind, Minix.getFsByte, Minix.wp_liftMm, wp_getFsByte_some hbyte]
    show wp (if c = 0 then _ else _) Q E s ↔ _
    rw [if_neg hc, ih h.tail (lt_of_succ_lt_succ hfuel), List.cons_append, List.length_cons,
      Nat.add_right_comm, Nat.add_assoc]

theorem HeldPages.stringAt {pgdir p : Word}
    (h : HeldPages main w₀ j page m) (hdir : pgdir ≠ 0 → ∃ i, w₀.pgdir i = some pgdir)
    (hstr : StringAt (callerView main w₀ pgdir) p str) : StringAt (userByte m.mem pgdir) p str :=
  ⟨hstr.1, fun k hk => h.userByte_eq hdir (hstr.2 k hk)⟩

theorem toNat_pointer_mod (hargv : argv.toNat % 4 = 0) (n : ℕ) :
    (argv + 4 * .ofNat 32 n).toNat % 4 = 0 := by
  rw [toNat_add, toNat_mul, show (4 : Word).toNat = 4 from rfl]
  omega

theorem wp_copyStringsFrom_strings (hdir : cur.pgdir ≠ 0 → ∃ i, w₀.pgdir i = some cur.pgdir)
    (hargv : argv.toNat % 4 = 0) (hstrs : PointersAt (callerView main w₀ cur.pgdir) argv strs)
    (hp₀ : p₀ ≤ 4096 * maxArgPages) (h : Copying main w₀ j A₀ f₀ p₀ done a m) :
    wp (copyStringsFrom cur argv strs.length a)
      (fun r s' => ∃ ok, CopyEnd main w₀ j A₀ f₀ p₀ s₁ (stringBytes strs ++ done) ok r.2 s' ∧
        r.1 = if ok = true then r.2.p else 0)
      (CopyWild A₀ f₀ p₀ ((stringBytes strs).length + done.length)) { s₁ with mm := m } := by
  -- the last string is the first one to be copied
  induction strs using reverseRecOn generalizing done a m with
  | nil => exact wp_pure.mpr ⟨true, ⟨m, rfl, h⟩, rfl⟩
  | append_singleton strs str ih =>
    obtain ⟨p, hp, hword, hstr⟩ := hstrs.last
    have hlen : (strs ++ [str]).length = strs.length + 1 := by simp
    have hfuel : str.length < maxString := by
      unfold maxString
      exact hstr.length_lt
    have hread : StringAt (userByte { s₁ with mm := m }.mm.mem cur.pgdir) p str :=
      h.held.stringAt hdir hstr
    rw [hlen, copyStringsFrom, wp_bind, Minix.wp_liftMm,
      wp_getFsLong_word (h.held.wordAt hdir hword) (toNat_pointer_mod hargv _), if_neg hp, wp_bind,
      wp_strLen_string hread hfuel, wp_bind, Nat.zero_add]
    rw [stringBytes_concat, List.append_assoc]
    refine (wp_copyString_bytes hdir hstr.2 hp₀ h).mono (fun r s' hr => ?_) fun e s' he => ?_
    · obtain ⟨_ | _, a'⟩ := r
      · obtain ⟨m', rfl, hend⟩ := hr
        exact wp_pure.mpr ⟨false, ⟨m', rfl, hend⟩, rfl⟩
      · obtain ⟨m', rfl, hcopy⟩ := hr
        refine (ih hstrs.init hcopy).mono (fun r s' hr => hr) fun e s' he => ?_
        rwa [length_append, ← Nat.add_assoc, ← length_append] at he
    · obtain ⟨he, hlong, hfree⟩ := he
      refine ⟨he, ?_, hfree⟩
      rw [length_append]
      omega

theorem wp_countFrom_vector {fuel i : ℕ} (hargv : argv.toNat % 4 = 0)
    (h : VectorAt (userByte s.mm.mem cur.pgdir) argv strs) (hi : i ≤ strs.length)
    (hfuel : strs.length - i < fuel) :
    wp (countFrom cur fuel (argv + 4 * .ofNat 32 i) i) Q E s ↔ Q strs.length s := by
  induction fuel generalizing i with
  | zero => exact absurd hfuel (not_lt_zero _)
  | succ fuel ih =>
    have halign := toNat_pointer_mod hargv i
    rw [countFrom, wp_bind, Minix.wp_liftMm]
    rcases Nat.lt_or_eq_of_le hi with hlt | rfl
    · obtain ⟨p, hp, hword, -⟩ := h.1 i hlt
      have hnext : argv + 4 * .ofNat 32 i + 4 = argv + 4 * .ofNat 32 (i + 1) := by
        rw [ofNat_add, mul_add, BitVec.add_assoc]
        rfl
      rw [wp_getFsLong_word hword halign, if_neg hp, hnext]
      exact ih hlt (by omega)
    · rw [wp_getFsLong_word h.2 halign, if_pos rfl]
      exact wp_pure

theorem wp_countArgs_vector (h : ArgVector (userByte s.mm.mem cur.pgdir) argv strs) :
    wp (countArgs cur argv) Q E s ↔ Q strs.length s := by
  unfold ArgVector at h
  unfold countArgs
  split at h
  · next h0 =>
    rw [if_pos h0, wp_pure, h]
    rfl
  · next h0 =>
    have hlt : strs.length < maxString := by
      unfold maxString
      exact h.2.length_lt.trans (by decide)
    have hfrom := wp_countFrom_vector (Q := Q) (E := E) h.1 h.2 (zero_le _)
      (show strs.length - 0 < maxString from hlt)
    rw [if_neg h0]
    rwa [show (4 : Word) * .ofNat 32 0 = 0#32 from rfl, BitVec.add_zero] at hfrom

theorem copying_start (h : HeldPages main w₀ j page m) (p : Word) :
    Copying main w₀ j (argArea m page) (freeFrames m.memMap) p.toNat [] ⟨page, p, 0, 0⟩ m :=
  ⟨h, rfl, rfl, rfl, fun hne => absurd rfl hne⟩

theorem wp_copyStrings_strings (s₁ : Fs) (cur : Current) {p : Word}
    (hdir : cur.pgdir ≠ 0 → ∃ i, w₀.pgdir i = some cur.pgdir) (hargv : argv.toNat % 4 = 0)
    (hstrs : PointersAt (callerView main w₀ cur.pgdir) argv strs)
    (hp : p.toNat ≤ 4096 * maxArgPages) (hp0 : p ≠ 0) (h : HeldPages main w₀ j page m) :
    wp (copyStrings cur strs.length argv page p)
      (fun r s' => ∃ ok a, CopyEnd main w₀ j (argArea m page) (freeFrames m.memMap) p.toNat s₁
        (stringBytes strs) ok a s' ∧ r = (if ok = true then a.p else 0, a.page))
      (CopyWild (argArea m page) (freeFrames m.memMap) p.toNat (stringBytes strs).length)
      { s₁ with mm := m } := by
  rw [copyStrings, if_neg hp0, wp_bind]
  refine (wp_copyStringsFrom_strings hdir hargv hstrs hp (copying_start h p)).mono
    (fun r s' h => ?_) fun e s' he => ?_
  · obtain ⟨ok, hend, hr⟩ := h
    rw [append_nil] at hend
    exact wp_pure.mpr ⟨ok, r.2, hend, by rw [hr]⟩
  · rwa [length_nil, Nat.add_zero] at he

end

/-! ### The guard -/

/-- Strings with `total` bytes, copied below `p`: no index is outside of `page`,
the offset moves down, and what does not fit is refused. -/
structure StaysInside (p : Word) (total : ℕ)
    (r : EStateM.Result Minix.Halt Fs (Word × (Fin maxArgPages → Word))) : Prop where
  index : ∀ s, r ≠ .error .wild s
  offset : ∀ p' page s, r = .ok (p', page) s → p' = 0 ∨ p'.toNat ≤ p.toNat
  refused : p.toNat < total → ∃ page s, r = .ok (0, page) s

theorem staysInside_ok {p p' : Word} {total : ℕ} {page : Fin maxArgPages → Word} {s : Fs}
    (hle : p'.toNat ≤ p.toNat) (hrefused : p.toNat < total → p' = 0) :
    StaysInside p total (.ok (p', page) s) where
  index _ h := nomatch h
  offset _ _ _ h := by
    obtain ⟨rfl, -⟩ := Prod.mk.inj (EStateM.Result.ok.inj h).1
    exact .inr hle
  refused hlt := ⟨page, s, by rw [hrefused hlt]⟩

/-- `copy_strings` stays inside its pages exactly if there is place for the
strings, or it runs out of memory before it has filled the place there is. -/
theorem copy_strings_inside_iff {main : MainMemory} {w₀ : World} {j : Fin nrTasks}
    {page : Fin maxArgPages → Word} {m : Mm.State} {argv p : Word} {strs : List (List Byte)}
    (s₁ : Fs) (cur : Current) (h : HeldPages main w₀ j page m)
    (hdir : cur.pgdir ≠ 0 → ∃ i, w₀.pgdir i = some cur.pgdir) (hargv : argv.toNat % 4 = 0)
    (hstrs : PointersAt (callerView main w₀ cur.pgdir) argv strs)
    (hp : p.toNat ≤ 32 * 4096 - 4) :
    StaysInside p (stringBytes strs).length
        (copyStrings cur strs.length argv page p { s₁ with mm := m }) ↔
      p = 0 ∨ (stringBytes strs).length ≤ p.toNat ∨
        freeFrames m.memMap < missing 4096 maxArgPages (argArea m page) p.toNat := by
  have hzero : (0 : Word).toNat ≤ p.toNat := zero_le _
  by_cases hp0 : p = 0
  · refine iff_of_true ?_ (.inl hp0)
    rw [copyStrings, if_pos hp0]
    exact staysInside_ok hzero fun _ => rfl
  have hpages : p.toNat ≤ 4096 * maxArgPages := hp.trans (by decide)
  have hrun := wp_copyStrings_strings s₁ cur hdir hargv hstrs hpages hp0 h
  cases hr : copyStrings cur strs.length argv page p { s₁ with mm := m } with
  | ok r s =>
    obtain ⟨ok, a, ⟨m', -, hend⟩, rfl⟩ := hrun.of_ok hr
    cases ok with
    | true =>
      have hpos : a.p.toNat + _ = p.toNat := hend.pos
      exact iff_of_true (staysInside_ok (Nat.le.intro hpos) fun hlt => by omega)
        (.inr (.inl (by omega)))
    | false =>
      exact iff_of_true (staysInside_ok hzero fun _ => rfl) (.inr (.inr hend.2))
  | error e s =>
    obtain ⟨rfl, hlong, hfree⟩ := hrun.of_error hr
    refine iff_of_false (fun hinside => hinside.index s rfl) ?_
    rintro (h0 | hle | hlt)
    · exact hp0 h0
    · omega
    · omega

/-! ### A kernel task with one string -/

/-- A string of `len` bytes at `0x10000`, and a pointer to it at `0x2000`. -/
def oneString (len : ℕ) : World where
  mm := ⟨fun a => if a = 0x2002 then 1
      else if 0x10000 ≤ a.toNat ∧ a.toNat < 0x10000 + len then 0x61 else 0,
    countsFrom4M, false⟩
  pgdir _ := none
  held := 0

def kernelTask : Current := ⟨0, 0, 0, 0, 0, 0, none, none⟩

theorem callerView_kernel {main : MainMemory} {w : World} {a : Word} (ha : a.toNat < 2 ^ 31) :
    callerView main w 0 a = some (w.mm.mem a) := by
  have hne : a ≠ -1 := by
    rintro rfl
    exact absurd ha (by decide)
  rw [callerView, if_neg fun h => h.2 (.inl ha), userByte, translateUser, if_pos rfl, if_neg hne]

theorem pointersAt_oneString {len : ℕ} (hlen : len < 2 ^ 30) :
    PointersAt (callerView mainFrom4M (oneString len) 0) 0x2000 [replicate len 0x61] := by
  intro k hk
  obtain rfl : k = 0 := lt_one_iff.mp hk
  show ∃ p, p ≠ 0 ∧ WordAt _ _ p ∧ StringAt _ p (replicate len 0x61)
  refine ⟨0x10000, by decide, fun k hk => ?_, fun h0 => ?_, fun k hk => ?_⟩
  · rw [callerView_kernel (by interval_cases k <;> decide)]
    interval_cases k <;> rfl
  · exact absurd (eq_of_mem_replicate h0) (by decide)
  · have hk' : k < len + 1 := by simpa using hk
    have haddr : ((0x10000 : Word) + .ofNat 32 k).toNat = 0x10000 + k := by
      rw [toNat_add, toNat_ofNat, show (0x10000 : Word).toNat = 0x10000 from rfl]
      omega
    have hne : (0x10000 : Word) + .ofNat 32 k ≠ 0x2002 := by
      intro he
      rw [he] at haddr
      have : (0x2002 : Word).toNat = 0x2002 := rfl
      omega
    rw [callerView_kernel (by rw [haddr]; omega), oneString]
    dsimp only
    rw [if_neg hne, haddr, Option.some.injEq]
    by_cases hlast : k < len
    · rw [if_pos ⟨by omega, by omega⟩, getElem_append_left (by simpa using hlast),
        List.getElem_replicate]
    · obtain rfl : k = len := by omega
      rw [if_neg (by omega), getElem_append_right (by simp)]
      simp

theorem heldPages_oneString (len : ℕ) :
    HeldPages mainFrom4M (oneString len) 1 (fun _ => 0) (oneString len).mm where
  space := by
    rw [argOwn_zero]
    exact spareSpace_start (countsFrom4M_inv ..) rfl
  outside _ _ := rfl

theorem length_oneString (len : ℕ) :
    (stringBytes [replicate len (0x61 : Byte)]).length = len + 1 := by
  simp [stringBytes]

/-- A kernel without files. -/
def noFiles (m : Mm.State) : Fs :=
  ⟨m, fun _ _ _ => 0, fun _ _ => 0, fun _ => .cleared, 0,
    fun _ => ⟨0, 0, 0, 0, 0, 0, fun _ => none, fun _ => none, 0, none, none⟩, 0, fun _ _ _ => 0⟩

theorem copy_strings_inside_short :
    StaysInside (32 * 4096 - 4) 8 (copyStrings kernelTask 1 0x2000 (fun _ => 0) (32 * 4096 - 4)
      (noFiles (oneString 7).mm)) := by
  have hlen := length_oneString 7
  have h := (copy_strings_inside_iff (noFiles (oneString 7).mm) kernelTask (p := 32 * 4096 - 4)
    (heldPages_oneString 7) (fun h => absurd rfl h) (by decide) (pointersAt_oneString (by decide))
    (by decide)).mpr (.inr (.inl (by rw [hlen]; decide)))
  rwa [hlen] at h

/-- A string that is one byte too long: `page` is read beyond its end. -/
theorem copy_strings_beyond : ∃ s', copyStrings kernelTask 1 0x2000 (fun _ => 0) (32 * 4096 - 4)
    (noFiles (oneString (32 * 4096 - 4)).mm) = .error .wild s' := by
  have hlen := length_oneString (32 * 4096 - 4)
  have hrun := wp_copyStrings_strings (noFiles (oneString (32 * 4096 - 4)).mm) kernelTask
    (p := 32 * 4096 - 4) (fun h => absurd rfl h) (by decide)
    (@pointersAt_oneString (32 * 4096 - 4) (by decide)) (by decide) (by decide)
    (heldPages_oneString _)
  cases hr : copyStrings kernelTask 1 0x2000 (fun _ => 0) (32 * 4096 - 4)
      (noFiles (oneString (32 * 4096 - 4)).mm) with
  | error e s' => exact ⟨s', by rw [(hrun.of_error hr).1]⟩
  | ok r s' =>
    obtain ⟨ok, a, ⟨m', -, hend⟩, -⟩ := hrun.of_ok hr
    cases ok with
    | true =>
      have hpos : a.p.toNat + _ = 32 * 4096 - 4 := hend.pos
      rw [hlen] at hpos
      omega
    | false =>
      have hfree := le_freeFrames_countsFrom4M
      have hmissing := hend.2.trans_le (missing_le _ _)
      exact absurd (hfree.trans_lt hmissing) (by decide)

end LinuxRv.Proc
