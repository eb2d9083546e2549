import LinuxRv.Mm.SpareSpace
import LinuxRv.Mm.UserAccess
import Mathlib.Data.List.GetD

/-!
The memory a program sees.

In an address space whose pages are all writable no two pages have a frame in
common, so a `put_fs_*` inside one page changes the bytes at its own addresses
and at no others.
-/

namespace LinuxRv.Mm

open ByteMemory Prog BitVec List Option World Nat BitVec

/-- The byte at an address of the space of `d`. -/
def userByte (μ : Mem) (d a : Word) : Option Byte :=
  if translateUser μ d a = -1 then none else some (μ (translateUser μ d a))

/-- The bytes of a task at its addresses. -/
abbrev UserView := Word → Option Byte

def WordAt (u : UserView) (a v : Word) : Prop :=
  ∀ k < 4, u (a + .ofNat 32 k) = some (v.extractLsb' (8 * k) 8)

def BytesAt (u : UserView) (a : Word) (l : List Byte) : Prop :=
  ∀ (k : ℕ) (h : k < l.length), u (a + .ofNat 32 k) = some l[k]

def WordsAt (u : UserView) (a : Word) (ws : List Word) : Prop :=
  ∀ (i : ℕ) (h : i < ws.length), WordAt u (a + 4 * .ofNat 32 i) ws[i]

/-- Words from `a` on, over another view. -/
def UserView.putWords (V : UserView) (a : Word) (ws : List Word) : UserView := fun b =>
  if (b - a).toNat < 4 * ws.length then
    some ((ws.getD ((b - a).toNat / 4) 0).extractLsb' (8 * ((b - a).toNat % 4)) 8)
  else V b

/-- The first of `n` words from `a` on are there. -/
def UserView.Mapped (V : UserView) (a : Word) (n : ℕ) : Prop :=
  ∀ i < n, V (a + 4 * .ofNat 32 i) ≠ none

section

variable {V : UserView} {a b v : Word} {ws ws' : List Word} {i n : ℕ}

theorem UserView.putWords_of_le (h : 4 * ws.length ≤ (b - a).toNat) : V.putWords a ws b = V b :=
  if_neg (not_lt.mpr h)

theorem UserView.putWords_of_lt (h : (b - a).toNat < 4 * ws.length) : V.putWords a ws b =
    some ((ws.getD ((b - a).toNat / 4) 0).extractLsb' (8 * ((b - a).toNat % 4)) 8) :=
  if_pos h

theorem UserView.putWords_singleton : V.putWords a [v] = fun b =>
    if (b - a).toNat < 4 then some (v.extractLsb' (8 * (b - a).toNat) 8) else V b := by
  funext b
  by_cases hb : (b - a).toNat < 4
  · rw [if_pos hb, putWords_of_lt hb, mod_eq_of_lt hb, div_eq_of_lt hb]
    rfl
  · rw [if_neg hb, putWords_of_le (not_lt.mp hb)]

/-- The distance from an address `n` words further on. -/
theorem toNat_sub_words (hn : 4 * n ≤ (b - a).toNat) :
    (b - (a + 4 * .ofNat 32 n)).toNat = (b - a).toNat - 4 * n := by
  have hlt := (b - a).isLt
  rw [← sub_sub, toNat_sub, toNat_mul, toNat_ofNat, show (4 : Word).toNat = 4 from rfl]
  omega

theorem le_toNat_sub_words (hn : (b - a).toNat < 4 * n) (hfit : 4 * (n + i) ≤ 2 ^ 32) :
    4 * i ≤ (b - (a + 4 * .ofNat 32 n)).toNat := by
  have hlt := (b - a).isLt
  rw [← sub_sub, toNat_sub, toNat_mul, toNat_ofNat, show (4 : Word).toNat = 4 from rfl]
  omega

/-- Words behind others. -/
theorem UserView.putWords_append (hfit : 4 * (ws.length + ws'.length) ≤ 2 ^ 32) :
    (V.putWords a ws).putWords (a + 4 * .ofNat 32 ws.length) ws' = V.putWords a (ws ++ ws') := by
  funext b
  have hlength : (ws ++ ws').length = ws.length + ws'.length := length_append
  by_cases hfirst : (b - a).toNat < 4 * ws.length
  · rw [putWords_of_le (le_toNat_sub_words hfirst hfit), putWords_of_lt hfirst,
      putWords_of_lt (by omega), getD_append _ _ _ _ (by omega)]
  · have hdist := toNat_sub_words (not_lt.mp hfirst)
    by_cases hsecond : (b - a).toNat - 4 * ws.length < 4 * ws'.length
    · rw [putWords_of_lt (by omega), hdist, putWords_of_lt (by omega),
        getD_append_right _ _ _ _ (by omega)]
      congr 3 <;> omega
    · rw [putWords_of_le (by omega), putWords_of_le (not_lt.mp hfirst), putWords_of_le (by omega)]

/-- Words before others. -/
theorem UserView.putWords_before (hfit : 4 * (ws.length + ws'.length) ≤ 2 ^ 32) :
    (V.putWords (a + 4 * .ofNat 32 ws.length) ws').putWords a ws = V.putWords a (ws ++ ws') := by
  rw [← putWords_append hfit]
  funext b
  by_cases hfirst : (b - a).toNat < 4 * ws.length
  · rw [putWords_of_lt hfirst, putWords_of_le (le_toNat_sub_words hfirst hfit),
      putWords_of_lt hfirst]
  · rw [putWords_of_le (not_lt.mp hfirst), putWords, putWords]
    exact if_congr Iff.rfl rfl (putWords_of_le (not_lt.mp hfirst)).symm

theorem UserView.wordsAt_putWords (hfit : 4 * ws.length ≤ 2 ^ 32) :
    WordsAt (V.putWords a ws) a ws := by
  intro i hi k hk
  have hdist : (a + 4 * .ofNat 32 i + .ofNat 32 k - a).toNat = 4 * i + k := by
    have ha := a.isLt
    simp only [toNat_sub, toNat_add, toNat_mul, toNat_ofNat, show (4 : Word).toNat = 4 from rfl]
    omega
  rw [putWords_of_lt (by omega), hdist, show (4 * i + k) / 4 = i by omega,
    show (4 * i + k) % 4 = k by omega, getD_eq_getElem _ _ hi]

theorem WordsAt.append {u : UserView} (h : WordsAt u a (ws ++ ws')) :
    WordsAt u a ws ∧ WordsAt u (a + 4 * .ofNat 32 ws.length) ws' := by
  refine ⟨fun i hi => ?_, fun i hi => ?_⟩
  · have hi' := h i (by rw [length_append]; omega)
    rwa [getElem_append_left hi] at hi'
  · have hi' := h (ws.length + i) (by rw [length_append]; omega)
    rw [getElem_append_right (Nat.le_add_right ..), ofNat_add, mul_add, ← add_assoc] at hi'
    simpa only [Nat.add_sub_cancel_left] using hi'

theorem WordsAt.cons {u : UserView} (h : WordsAt u a (v :: ws)) :
    WordAt u a v ∧ WordsAt u (a + 4) ws := by
  obtain ⟨hfirst, hrest⟩ := @append a [v] ws u h
  have hword := hfirst 0 Nat.one_pos
  rw [show a + 4 * .ofNat 32 0 = a from add_zero a] at hword
  exact ⟨hword, hrest⟩

/-- Words change nothing behind them. -/
theorem UserView.mapped_putWords (hfit : 4 * (ws.length + n) ≤ 2 ^ 32) :
    (V.putWords a ws).Mapped (a + 4 * .ofNat 32 ws.length) n ↔
      V.Mapped (a + 4 * .ofNat 32 ws.length) n := by
  refine forall₂_congr fun i hi => ?_
  rw [putWords_of_le]
  simp only [toNat_sub, toNat_add, toNat_mul, toNat_ofNat, show (4 : Word).toNat = 4 from rfl]
  omega

theorem add_sub_right (p q a : Word) : p + q - a = p - a + q := by
  rw [sub_eq_add_neg, add_assoc, add_comm q, ← add_assoc, ← sub_eq_add_neg]

theorem UserView.bytesAt_putWords {p : Word} {l : List Byte} (h : BytesAt V p l)
    (hbelow : 4 * ws.length ≤ (p - a).toNat) (hfit : (p - a).toNat + l.length ≤ 2 ^ 32) :
    BytesAt (V.putWords a ws) p l := by
  intro k hk
  rw [putWords_of_le, h k hk]
  rw [add_sub_right, toNat_add, toNat_ofNat]
  omega

theorem bytesAt_append {u : UserView} {l l' : List Byte} :
    BytesAt u a (l ++ l') ↔ BytesAt u a l ∧ BytesAt u (a + .ofNat 32 l.length) l' := by
  have haddr (k : ℕ) : a + .ofNat 32 l.length + .ofNat 32 k = a + .ofNat 32 (l.length + k) := by
    rw [ofNat_add, add_assoc]
  refine ⟨fun h => ⟨fun k hk => ?_, fun k hk => ?_⟩, fun ⟨h, h'⟩ k hk => ?_⟩
  · rw [h k (by rw [length_append]; omega), getElem_append_left hk]
  · rw [haddr, h (l.length + k) (by rw [length_append]; omega),
      getElem_append_right (Nat.le_add_right ..)]
    simp only [Nat.add_sub_cancel_left]
  · by_cases hfirst : k < l.length
    · rw [h k hfirst, getElem_append_left hfirst]
    · have hsecond : k - l.length < l'.length := by
        rw [length_append] at hk
        omega
      have hk' := h' (k - l.length) hsecond
      rw [haddr, Nat.add_sub_cancel' (not_lt.mp hfirst)] at hk'
      rw [hk', getElem_append_right (not_lt.mp hfirst)]

theorem UserView.mapped_add : V.Mapped a (n + i) ↔
    V.Mapped a n ∧ V.Mapped (a + 4 * .ofNat 32 n) i := by
  have hnext (k : ℕ) : a + 4 * .ofNat 32 n + 4 * .ofNat 32 k = a + 4 * .ofNat 32 (n + k) := by
    rw [ofNat_add, mul_add, add_assoc]
  refine ⟨fun h => ⟨fun k hk => h k (by omega), fun k hk => ?_⟩, fun ⟨h, h'⟩ k hk => ?_⟩
  · rw [hnext]
    exact h (n + k) (by omega)
  · by_cases hfirst : k < n
    · exact h k hfirst
    · have hsecond := h' (k - n) (by omega)
      rwa [hnext, Nat.add_sub_cancel' (not_lt.mp hfirst)] at hsecond

theorem UserView.mapped_one : V.Mapped a 1 ↔ V a ≠ none := by
  have h0 : a + 4 * .ofNat 32 0 = a := add_zero a
  refine ⟨fun h => h0 ▸ h 0 Nat.one_pos, fun h k hk => ?_⟩
  rwa [lt_one_iff.mp hk, h0]

end

/-- The directory `d` maps writable pages only. -/
def OwnSpace (main : MainMemory) (j : Fin nrTasks) (d : Word) (μ : Mem) : Prop :=
  ∃ w : World, w.mm.mem = μ ∧ w.Inv main ∧ w.pgdir j = some d ∧
    ∀ k l e, w.view.entry (.leaf j k l) = some e → e &&& pteW ≠ 0

section

variable {main : MainMemory} {w : World} {j : Fin nrTasks} {d a b : Word} {μ : Mem} {n : ℕ}

theorem World.Inv.userByte_eq (hI : w.Inv main) (hd : w.pgdir j = some d) (a : Word) :
    userByte w.mm.mem d a = (w.physAddr j a).map w.mm.mem := by
  rw [userByte, hI.translateUser_eq hd]
  cases hp : w.physAddr j a with
  | none => rfl
  | some pa => rw [getD_some, if_neg (hI.physAddr_ne hp)]; rfl

theorem toNat_sub_lt_iff (hfit : a.toNat + n ≤ 2 ^ 32) :
    (b - a).toNat < n ↔ a.toNat ≤ b.toNat ∧ b.toNat < a.toNat + n := by
  have ha := a.isLt
  have hb := b.isLt
  rw [toNat_sub]
  omega

theorem storeN_eq_fillN (n : ℕ) (μ : Mem) (a : Word) (v : BitVec (8 * n)) :
    storeN n μ a v = fillN n μ a fun k => v.extractLsb' (8 * k) 8 := by
  unfold storeN fillN
  rfl

/-- Two addresses with leaves for one frame are in one page. -/
theorem World.Inv.page_eq_of_frame (hI : w.Inv main)
    (hW : ∀ k l e, w.view.entry (.leaf j k l) = some e → e &&& pteW ≠ 0) {e e' : Word}
    (ha : w.leafAt j a = some e) (hb : w.leafAt j b = some e') (h : ptePhys e' = ptePhys e) :
    b.toNat / 4096 = a.toNat / 4096 := by
  unfold leafAt at ha hb
  split at ha
  · next hlim =>
    split at hb
    · next hlim' =>
      have href : userLeaf j b hlim' = userLeaf j a hlim := by
        refine View.Inv.eq_of_exclusive hI ha (hW _ _ e ha) ?_
        rw [View.target, hb]
        exact congrArg some h
      rw [userLeaf, userLeaf, Ref.leaf.injEq] at href
      rw [← pageNr_toNat hlim, ← pageNr_toNat hlim', href.2.1, href.2.2]
    · cases hb
  · cases ha

/-- Addresses in one page have one leaf. -/
theorem World.leafAt_eq (h : b.toNat / 4096 = a.toNat / 4096) : w.leafAt j b = w.leafAt j a := by
  have hlim : b < userLimit ↔ a < userLimit := by
    rw [lt_def, lt_def, show userLimit.toNat = 524288 * 4096 from rfl]
    omega
  unfold leafAt
  by_cases ha : a < userLimit
  · rw [dif_pos ha, dif_pos (hlim.mpr ha)]
    rw [userLeaf, userLeaf, pageNr_congr (hlim.mpr ha) ha h]
  · rw [dif_neg ha, dif_neg fun hb => ha (hlim.mp hb)]

/-- A store inside a page. -/
theorem OwnSpace.store (h : OwnSpace main j d μ) (hmap : translateUser μ d a ≠ -1)
    (hfit : pageOffset a + n ≤ 4096) (v : BitVec (8 * n)) :
    OwnSpace main j d (storeN n μ (translateUser μ d a) v) ∧
      ∀ b, userByte (storeN n μ (translateUser μ d a) v) d b =
        if (b - a).toNat < n then some (v.extractLsb' (8 * (b - a).toNat) 8)
        else userByte μ d b := by
  obtain ⟨w, rfl, hI, hd, hW⟩ := h
  have htrans := hI.translateUser_eq hd a
  cases he : w.leafAt j a with
  | none =>
    rw [physAddr, he] at htrans
    exact absurd htrans hmap
  | some e =>
  rw [physAddr, he, map_some, getD_some] at htrans
  have hdata := hI.dataFrame_leafAt he
  rw [htrans, storeN_eq_fillN]
  have hsame := hI.sameTables_fillN hdata hfit fun k => v.extractLsb' (8 * k) 8
  refine ⟨⟨w.setMm (w.mm.setMem _), rfl, hsame.inv hI, hd, fun k l e he => ?_⟩, fun b => ?_⟩
  · rw [hsame.view_eq] at he
    exact hW k l e he
  have hbyte := (hsame.inv hI).userByte_eq hd b
  rw [hsame.physAddr_eq] at hbyte
  refine hbyte.trans ?_
  rw [hI.userByte_eq hd]
  by_cases hpage : b.toNat / 4096 = a.toNat / 4096
  · have hdist : ptePhys e + .ofNat 32 (pageOffset b) -
        (ptePhys e + .ofNat 32 (pageOffset a)) = b - a := by
      apply eq_of_toNat_eq
      rw [pageOffset_eq, pageOffset_eq]
      simp only [toNat_sub, toNat_add, toNat_ofNat]
      omega
    rw [physAddr, w.leafAt_eq hpage, he, map_some, map_some, map_some]
    by_cases hin : (b - a).toNat < n
    · rw [if_pos hin]
      refine congrArg some ((fillN_of_lt (by rw [hdist]; exact hin)).trans ?_)
      rw [hdist]
    · rw [if_neg hin]
      exact congrArg some (fillN_of_le (by rw [hdist]; exact not_lt.mp hin))
  · have hout : ¬ (b - a).toNat < n := by
      rw [pageOffset_eq] at hfit
      rw [toNat_sub_lt_iff (by omega)]
      omega
    rw [if_neg hout]
    cases he' : w.leafAt j b with
    | none => rw [physAddr, he']; rfl
    | some e' =>
      have hne : ptePhys e' ≠ ptePhys e := fun h => hpage (hI.page_eq_of_frame hW he he' h)
      have hdata' := hI.dataFrame_leafAt he'
      rw [physAddr, he', map_some, map_some, map_some]
      refine congrArg some ?_
      show fillN n w.mm.mem _ _ _ = _
      rw [fillN_within (n := 4096) (by decide) hfit]
      exact fillN_apply_ne (hI.isFrame_data hdata) (hI.isFrame_data hdata') hne (pageOffset_lt b)

/-- `put_fs_long` at a multiple of four. -/
theorem OwnSpace.wp_putFsLong {s : State} {v : Word} (h : OwnSpace main j d s.mem)
    (ha : a.toNat % 4 = 0) : wp (putFsLong v d a)
      (fun _ s' => userByte s.mem d a ≠ none ∧ OwnSpace main j d s'.mem ∧
        userByte s'.mem d = UserView.putWords (userByte s.mem d) a [v])
      (fun e _ => e = .exit 11 ∧ userByte s.mem d a = none) s := by
  rw [putFsLong, putFs, wp_bind, wp_get]
  by_cases hmap : translateUser s.mem d a = -1
  · have hnone : userByte s.mem d a = none := if_pos hmap
    simp only [hmap, if_true, wp_bind, wp_throw]
    exact ⟨trivial, hnone⟩
  · have hsome : userByte s.mem d a ≠ none := by
      rw [userByte, if_neg hmap]
      exact some_ne_none _
    simp only [hmap, if_false, wp_set]
    have hfit : pageOffset a + 4 ≤ 4096 := by
      rw [pageOffset_eq]
      omega
    obtain ⟨hown', hbyte⟩ := h.store hmap hfit v
    exact ⟨hsome, hown', (funext hbyte).trans UserView.putWords_singleton.symm⟩

/-! ### Reading -/

variable {s : State} {v : Word} {c : Byte} {k : ℕ} {E : Halt → State → Prop}

theorem userByte_eq_some : userByte μ d a = some c ↔
    translateUser μ d a ≠ -1 ∧ μ (translateUser μ d a) = c := by
  unfold userByte
  split
  · next h => exact iff_of_false (by simp) fun hne => hne.1 h
  · next h => rw [some.injEq, and_iff_right h]

theorem wp_getFsByte_some {Q : Byte → State → Prop} (h : userByte s.mem d a = some c) :
    wp (getFsByte d a) Q E s ↔ Q c s := by
  obtain ⟨hne, hc⟩ := userByte_eq_some.mp h
  rw [getFsByte, wp_getFs rfl hne]
  have hload : loadN 1 s.mem (translateUser s.mem d a) = c := by
    apply eq_of_getLsbD_eq
    intro i hi
    rw [getLsbD_loadN _ _ hi, div_eq_of_lt hi, mod_eq_of_lt hi, BitVec.add_zero, hc]
  rw [hload]

/-- The addresses of one page are translated alike. -/
theorem translateUser_add (hk : pageOffset a + k < 4096) (hmap : translateUser μ d a ≠ -1) :
    translateUser μ d (a + .ofNat 32 k) = translateUser μ d a + .ofNat 32 k := by
  by_cases hd : d = 0
  · rw [translateUser, if_pos hd, translateUser, if_pos hd]
  have hnat : (a + .ofNat 32 k).toNat = a.toNat + k := by
    have ha := a.isLt
    rw [pageOffset_eq] at hk
    rw [toNat_add, toNat_ofNat]
    omega
  rw [pageOffset_eq] at hk
  have hlim : ¬ userLimit ≤ a := fun hle => hmap (by rw [translateUser, if_neg hd, if_pos hle])
  have hlim' : ¬ userLimit ≤ a + .ofNat 32 k := by
    rw [le_def, show userLimit.toNat = 524288 * 4096 from rfl] at hlim ⊢
    omega
  have hdir : dirIndex (a + .ofNat 32 k) = dirIndex a := by
    rw [dirIndex, dirIndex, toNat_ushiftRight, toNat_ushiftRight, hnat,
      shiftRight_eq_div_pow, shiftRight_eq_div_pow]
    omega
  have htable : tableIndex (a + .ofNat 32 k) = tableIndex a := by
    rw [tableIndex, tableIndex, toNat_and, toNat_and, toNat_ushiftRight,
      toNat_ushiftRight, hnat, shiftRight_eq_div_pow, shiftRight_eq_div_pow,
      show (a.toNat + k) / 2 ^ 12 = a.toNat / 2 ^ 12 by omega]
  have hoffset : pageOffset (a + .ofNat 32 k) = pageOffset a + k := by
    rw [pageOffset_eq, pageOffset_eq, hnat]
    omega
  rw [translateUser, if_neg hd, if_neg hlim] at hmap
  rw [translateUser, if_neg hd, if_neg hlim', hdir, htable, translateUser, if_neg hd, if_neg hlim]
  dsimp only at hmap ⊢
  by_cases hv : word μ d (dirIndex a) &&& pteV = 0
  · rw [if_pos hv] at hmap
    exact absurd rfl hmap
  rw [if_neg hv] at hmap ⊢
  rw [if_neg hv]
  split at hmap
  · exact absurd rfl hmap
  · next hpte =>
    rw [if_neg hpte, if_neg hpte, ptePhys_or, ptePhys_or, hoffset, offset_add]

theorem wp_getFsLong_word {Q : Word → State → Prop} (h : WordAt (userByte s.mem d) a v)
    (ha : a.toNat % 4 = 0) : wp (getFsLong d a) Q E s ↔ Q v s := by
  have hne : translateUser s.mem d a ≠ -1 := by
    have h0 := (userByte_eq_some.mp (h 0 (by decide))).1
    rwa [BitVec.add_zero] at h0
  rw [getFsLong, wp_getFs rfl hne]
  have hload : loadN 4 s.mem (translateUser s.mem d a) = v := by
    apply eq_of_getLsbD_eq
    intro i hi
    have hk : i / 8 < 4 := by omega
    have hbyte := (userByte_eq_some.mp (h (i / 8) hk)).2
    rw [translateUser_add (by rw [pageOffset_eq]; omega) hne] at hbyte
    rw [getLsbD_loadN _ _ hi, hbyte, getLsbD_extractLsb', div_add_mod,
      decide_eq_true (mod_lt i (by decide)), Bool.true_and]
  rw [hload]

end

/-! ### While memory is taken -/

/-- Not in main memory, which pages are taken from. -/
def MainMemory.Outside (main : MainMemory) (a : Word) : Prop :=
  a.toNat < 2 ^ 31 ∨ ¬ main.Has ((a.toNat - 2 ^ 31) / 4096)

theorem MainMemory.Outside.ne {main : MainMemory} {a : Word} {n o : ℕ} (ha : main.Outside a)
    (hn : main.Has n) (ho : o < 4096) : a ≠ frame n + .ofNat 32 o := by
  rintro rfl
  have hlt := hn.lt
  have hnat : (frame n + .ofNat 32 o).toNat = 2 ^ 31 + 4096 * n + o := by
    unfold pagingPages at hlt
    rw [toNat_add, toNat_frame hn.lt, toNat_ofNat]
    omega
  rcases ha with ha | ha
  · omega
  · refine ha ?_
    rwa [hnat, show (2 ^ 31 + 4096 * n + o - 2 ^ 31) / 4096 = n by omega]

section

variable {main : MainMemory} {w₀ w : World} {i j : Fin nrTasks} {own : Multiset Word} {d : Word}

theorem Beside.ne_spare (h : Beside main w₀ j own w) (hi : w₀.pgdir i = some d) : i ≠ j := by
  rintro rfl
  rw [h.spare] at hi
  cases hi

theorem Beside.physAddr_eq (h : Beside main w₀ j own w) (hi : w₀.pgdir i = some d) (a : Word) :
    w.physAddr i a = w₀.physAddr i a := by
  have hleaf : w.leafAt i a = w₀.leafAt i a := by
    unfold leafAt
    split
    · exact h.entry _ (h.ne_spare hi)
    · rfl
  rw [physAddr, hleaf, physAddr]

theorem Beside.translateUser_eq (h : Beside main w₀ j own w) (hi : w₀.pgdir i = some d) (a : Word) :
    translateUser w.mm.mem d a = translateUser w₀.mm.mem d a := by
  rw [h.inv.translateUser_eq ((h.pgdir i (h.ne_spare hi)).trans hi), h.base.translateUser_eq hi,
    h.physAddr_eq hi]

/-- What the tasks have in memory is not touched. -/
theorem Beside.userByte_eq (h : Beside main w₀ j own w) (hi : w₀.pgdir i = some d) (a : Word) :
    userByte w.mm.mem d a = userByte w₀.mm.mem d a := by
  rw [h.inv.userByte_eq ((h.pgdir i (h.ne_spare hi)).trans hi), h.base.userByte_eq hi,
    h.physAddr_eq hi]
  cases hp : w₀.physAddr i a with
  | none => rfl
  | some pa =>
    obtain ⟨q, off, hq, hoff, rfl⟩ := h.base.dataFrame_of_physAddr hp
    exact congrArg some (h.data q hq off hoff)

end

end LinuxRv.Mm
