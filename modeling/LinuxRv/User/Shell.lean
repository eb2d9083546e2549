import LinuxRv.Lib.ByteMemory
import Mathlib.Data.List.DropRight
import Mathlib.Data.List.GetD

/-!
How the shell splits a line into words (`main` of `user/sh.c`).

Every blank becomes a NUL, and a word starts behind it unless the line ends
there. So a blank at the beginning of the line and a blank behind another one
make empty words, and eight words leave no room for the NULL entry.
-/

namespace LinuxRv.Shell

open ByteMemory Function List

/-! ### The loop -/

def isBlank (c : Byte) : Bool := c = 0x20 ∨ c = 0x09

/-- `line`, whose end is a NUL, and `argv` with pointers into it. -/
structure Scan where
  line : List Byte
  argv : Fin 8 → Option ℕ
  i : Fin 8

/-- `for (n = 0; line[n]; n++)` -/
def splitLoop : ℕ → ℕ → Scan → Scan
  | 0, _, s => s
  | fuel + 1, n, s =>
    if s.line.getD n 0 = 0 then s
    else if isBlank (s.line.getD n 0) then
      let line := s.line.set n 0
      if s.i < 7 ∧ line.getD (n + 1) 0 ≠ 0 then
        splitLoop fuel (n + 1) ⟨line, update s.argv (s.i + 1) (some (n + 1)), s.i + 1⟩
      else
        splitLoop fuel (n + 1) { s with line := line }
    else
      splitLoop fuel (n + 1) s

/-- The line that starts here: up to a newline, and without `\r` at its end. -/
def lineText (buf : List Byte) : List Byte :=
  ((buf.takeWhile (· ≠ 0)).takeWhile (· ≠ 0x0a)).rdropWhile fun c => c = 0x0d ∨ c = 0x0a

def scanLine (line : List Byte) : Scan :=
  splitLoop line.length 0 ⟨line, update (fun _ => none) 0 (some 0), 0⟩

/-- The string at a pointer. -/
def Scan.word (s : Scan) (p : ℕ) : List Byte := (s.line.drop p).takeWhile (· ≠ 0)

/-- The words a command is called with; none if `*argv[0]` is a NUL. -/
def handed (buf : List Byte) : Option (Fin 8 → Option (List Byte)) :=
  let s := scanLine (lineText buf)
  if s.word 0 = [] then none else some fun j => (s.argv j).map s.word

/-! ### The words of a line -/

/-- The maximal runs of characters that are not blank. -/
def words (line : List Byte) : List (List Byte) := (line.splitOnP isBlank).filter (· ≠ [])

/-- At most seven words and a NULL entry behind them, if there are words. -/
def HandsWords (buf : List Byte) : Prop :=
  handed buf = if words (lineText buf) = [] then none else
    some fun j => ((words (lineText buf)).take 7)[j]?

/-- What the loop takes for words. -/
def fields : List Byte → List (List Byte)
  | [] => [[]]
  | c :: l =>
    if isBlank c then if l = [] then [[]] else [] :: fields l
    else (fields l).modifyHead (c :: ·)

/-- Where they start, from the second on, if the line goes on with `l` at `p`. -/
def starts : ℕ → List Byte → List ℕ
  | _, [] => []
  | p, c :: l => if isBlank c ∧ l ≠ [] then (p + 1) :: starts (p + 1) l else starts (p + 1) l

/-- Blanks become NULs. -/
def cut (l : List Byte) : List Byte := l.map fun c => if isBlank c then 0 else c

section

variable {fuel : ℕ} {L : List ℕ} {i : Fin 8}

/-- The first eight. -/
def slots (L : List ℕ) (j : Fin 8) : Option ℕ := L[j]?

/-- One more goes into the next entry, if there is one. -/
theorem slots_concat (hL : L ≠ []) (hi : i.1 = min (L.length - 1) 7) (p : ℕ) :
    slots (L ++ [p]) = if i < 7 then update (slots L) (i + 1) (some p) else slots L := by
  have hpos := length_pos_iff.mpr hL
  funext j
  have hslot (L : List ℕ) : slots L j = L[j.1]? := rfl
  by_cases h7 : i < 7
  · have hval : (i + 1).1 = L.length := by
      rw [Fin.val_add_one_of_lt (show i < Fin.last 7 from h7)]
      have : i.1 < 7 := h7
      omega
    rw [if_pos h7, hslot, getElem?_append, getElem?_singleton]
    by_cases hj : j = i + 1
    · rw [hj, update_self, hval, if_neg (lt_irrefl _), if_pos (Nat.sub_self _)]
    · have hne : j.1 ≠ L.length := fun h => hj (Fin.ext (h.trans hval.symm))
      rw [update_of_ne hj, hslot]
      split
      · rfl
      · rw [if_neg (by omega), getElem?_eq_none (by omega)]
  · have hj : j.1 < L.length := by
      have : ¬ i.1 < 7 := h7
      omega
    rw [if_neg h7, hslot, hslot, getElem?_append_left hj]

/-- The loop at the rest of the line: it finds the starts that are left, as far
as there are entries for them. -/
theorem splitLoop_eq {rest : List Byte} (done : List Byte) (hrest : 0 ∉ rest) (hfuel : rest.length ≤ fuel)
    (hL : L ≠ []) (hi : i.1 = min (L.length - 1) 7) :
    ∃ i', splitLoop fuel done.length ⟨cut done ++ rest, slots L, i⟩ =
      ⟨cut (done ++ rest), slots (L ++ starts done.length rest), i'⟩ := by
  induction rest generalizing done L i fuel with
  | nil =>
    refine ⟨i, ?_⟩
    cases fuel <;> simp [splitLoop, starts, cut, getD]
  | cons c rest ih =>
    rw [mem_cons, not_or] at hrest
    obtain ⟨hc, hrest⟩ := hrest
    obtain ⟨fuel, rfl⟩ : ∃ f, fuel = f + 1 := ⟨fuel - 1, by simp at hfuel; omega⟩
    replace hfuel : rest.length ≤ fuel := Nat.le_of_succ_le_succ hfuel
    have hlen (l : List Byte) : (cut l).length = l.length := length_map _
    have hget : (cut done ++ c :: rest).getD done.length 0 = c := by
      rw [← hlen, getD_append_right _ _ _ _ le_rfl]
      simp
    have hwhole : done ++ c :: rest = (done ++ [c]) ++ rest := by simp
    have hcount : done.length + 1 = (done ++ [c]).length := by simp
    rw [splitLoop, hget, if_neg (Ne.symm hc), starts, hwhole, hcount]
    by_cases hblank : isBlank c
    · have hset : (cut done ++ c :: rest).set done.length 0 = cut (done ++ [c]) ++ rest := by
        rw [← hlen]
        simp [cut, hblank]
      have hnext : (cut (done ++ [c]) ++ rest).getD (done ++ [c]).length 0 = rest.getD 0 0 := by
        rw [← hlen, getD_append_right _ _ _ _ le_rfl, Nat.sub_self]
      dsimp only
      rw [if_pos hblank, hset, hnext]
      cases rest with
      | nil =>
        rw [if_neg (by simp), if_neg (by simp)]
        exact ih _ hrest hfuel hL hi
      | cons c' rest =>
        have hgoes : (c' :: rest).getD 0 0 ≠ 0 := fun h => hrest (h ▸ mem_cons_self)
        have hadd := slots_concat hL hi (done ++ [c]).length
        have hlist (p : ℕ) : L ++ (if isBlank c ∧ c' :: rest ≠ [] then
            p :: starts p (c' :: rest) else starts p (c' :: rest)) =
            L ++ [p] ++ starts p (c' :: rest) := by
          rw [if_pos ⟨hblank, by simp⟩, append_cons]
        rw [hlist]
        by_cases h7 : i < 7
        · rw [if_pos ⟨h7, hgoes⟩, ← hadd.trans (if_pos h7)]
          refine ih _ hrest hfuel (by simp) ?_
          rw [Fin.val_add_one_of_lt (show i < Fin.last 7 from h7), length_append]
          have : i.1 < 7 := h7
          have := length_pos_iff.mpr hL
          simp
          omega
        · rw [if_neg fun h => h7 h.1, ← hadd.trans (if_neg h7)]
          refine ih _ hrest hfuel (by simp) ?_
          have : ¬ i.1 < 7 := h7
          simp
          omega
    · have hcut : cut done ++ c :: rest = cut (done ++ [c]) ++ rest := by simp [cut, hblank]
      rw [if_neg hblank, if_neg fun h => hblank h.1, hcut]
      exact ih _ hrest hfuel hL hi

theorem scanLine_eq {l : List Byte} (hl : 0 ∉ l) :
    ∃ i, scanLine l = ⟨cut l, slots (0 :: starts 0 l), i⟩ := by
  have hfirst : update (fun _ => none) 0 (some 0) = slots [0] := by decide
  rw [scanLine, hfirst]
  exact splitLoop_eq (L := [0]) [] hl le_rfl (by simp) rfl

/-! ### What it finds -/

variable {l : List Byte}

/-- A word ends at the next blank. -/
theorem takeWhile_cut (hl : 0 ∉ l) : (cut l).takeWhile (· ≠ 0) = l.takeWhile (!isBlank ·) := by
  induction l with
  | nil => rfl
  | cons c l ih =>
    rw [mem_cons, not_or] at hl
    have hc : c ≠ 0 := Ne.symm hl.1
    by_cases hblank : isBlank c
    · simp [cut, hblank]
    · rw [cut, map_cons, if_neg hblank, takeWhile_cons_of_pos (by simpa using hc),
        takeWhile_cons_of_pos (by simpa using hblank)]
      exact congrArg _ (ih hl.2)

theorem fields_ne_nil (l : List Byte) : fields l ≠ [] := by
  induction l with
  | nil => simp [fields]
  | cons c l ih =>
    rw [fields]
    split
    · split <;> simp
    · simpa using ih

theorem head_fields (l : List Byte) : (fields l).head? = some (l.takeWhile (!isBlank ·)) := by
  induction l with
  | nil => rfl
  | cons c l ih =>
    rw [fields]
    by_cases hblank : isBlank c
    · simp only [hblank, if_true]
      split <;> simp [hblank]
    · obtain ⟨w, ws, hw⟩ := exists_cons_of_ne_nil (fields_ne_nil l)
      rw [hw] at ih ⊢
      simp_all

/-- The words at the starts are the fields. -/
theorem starts_fields (p : ℕ) {word : ℕ → List Byte}
    (hword : ∀ n ≤ l.length, word (p + n) = (l.drop n).takeWhile (!isBlank ·)) :
    (starts p l).map word = (fields l).tail := by
  induction l generalizing p with
  | nil => rfl
  | cons c l ih =>
    have ih := ih (p + 1) fun n hn => by
      rw [Nat.add_assoc, Nat.add_comm 1, hword (n + 1) (Nat.succ_le_succ hn), drop_succ_cons]
    have hnext : word (p + 1) = l.takeWhile (!isBlank ·) := hword 1 (by simp)
    rw [starts, fields]
    by_cases hblank : isBlank c
    · by_cases hl : l = []
      · subst hl
        simp [hblank, starts]
      · have hhead := head_fields l
        obtain ⟨w, ws, hw⟩ := exists_cons_of_ne_nil (fields_ne_nil l)
        rw [hw] at hhead ih ⊢
        simp_all
    · rw [if_neg fun h => hblank h.1, if_neg hblank, tail_modifyHead]
      exact ih

/-- A blank at the end of the line is not taken for the beginning of a word. -/
theorem splitOnP_eq (l : List Byte) :
    ∃ e, (e = [] ∨ e = [[]]) ∧ l.splitOnP isBlank = fields l ++ e := by
  induction l with
  | nil => exact ⟨[], .inl rfl, rfl⟩
  | cons c l ih =>
    obtain ⟨e, he, heq⟩ := ih
    rw [splitOnP_cons_eq_if_modifyHead, fields]
    by_cases hblank : isBlank c
    · by_cases hl : l = []
      · subst hl
        exact ⟨[[]], .inr rfl, by simp [hblank]⟩
      · exact ⟨e, he, by simp [hblank, hl, heq]⟩
    · refine ⟨e, he, ?_⟩
      obtain ⟨w, ws, hw⟩ := exists_cons_of_ne_nil (fields_ne_nil l)
      rw [if_neg hblank, if_neg hblank, heq, hw]
      rfl

theorem words_eq (l : List Byte) : words l = (fields l).filter (· ≠ []) := by
  obtain ⟨e, he, heq⟩ := splitOnP_eq l
  rw [words, heq, filter_append]
  rcases he with rfl | rfl <;> simp

theorem zero_notMem_lineText (buf : List Byte) : 0 ∉ lineText buf := by
  intro h
  have h' := mem_takeWhile_imp ((takeWhile_sublist _).subset (( rdropWhile_prefix _ _).subset h))
  simp at h'

theorem handed_eq {buf w : List Byte} {ws : List (List Byte)}
    (hfields : fields (lineText buf) = w :: ws) :
    handed buf = if w = [] then none else some fun j => (w :: ws)[j]? := by
  have hl := zero_notMem_lineText buf
  generalize hline : lineText buf = l at hl hfields
  obtain ⟨i, hscan⟩ := scanLine_eq hl
  have hword (p : ℕ) : Scan.word ⟨cut l, slots (0 :: starts 0 l), i⟩ p =
      (l.drop p).takeWhile (!isBlank ·) := by
    rw [Scan.word, cut, ← map_drop]
    exact takeWhile_cut fun h => hl (mem_of_mem_drop h)
  have hhead := head_fields l
  have htail := starts_fields 0 fun n _ => (hword (0 + n)).trans (by rw [Nat.zero_add])
  rw [hfields, head?_cons, Option.some.injEq] at hhead
  rw [hfields, tail_cons] at htail
  have hslots : (0 :: starts 0 l).map (Scan.word ⟨cut l, slots (0 :: starts 0 l), i⟩) =
      w :: ws := by
    rw [map_cons, htail, hword, drop_zero, ← hhead]
  rw [handed, hline, hscan]
  dsimp only
  rw [hword, drop_zero, ← hhead]
  refine congrArg (fun f => if w = [] then none else some f) (funext fun j => ?_)
  change Option.map _ (0 :: starts 0 l)[j.1]? = (w :: ws)[j.1]?
  rw [← hslots, getElem?_map]

/-- No blank at the beginning of the line, and none behind another. -/
def Tidy (l : List Byte) : Prop := (0x20 :: l).IsChain fun a b => ¬ (isBlank a ∧ isBlank b)

theorem fields_ne_iff {c : Byte} : (∀ w ∈ fields (c :: l), w ≠ []) ↔
    ¬ isBlank c ∧ ∀ w ∈ (fields (c :: l)).tail, w ≠ [] := by
  have hhead := head_fields (c :: l)
  obtain ⟨w, ws, hw⟩ := exists_cons_of_ne_nil (fields_ne_nil (c :: l))
  rw [hw, head?_cons, Option.some.injEq] at hhead
  rw [hw, forall_mem_cons, tail_cons, hhead, takeWhile_cons]
  by_cases hblank : isBlank c <;> simp [hblank]

theorem tail_fields_iff (l : List Byte) : (∀ w ∈ (fields l).tail, w ≠ []) ↔
    l.IsChain fun a b => ¬ (isBlank a ∧ isBlank b) := by
  induction l with
  | nil => simp [fields]
  | cons c l ih =>
    rw [fields]
    cases l with
    | nil => by_cases hblank : isBlank c <;> simp [hblank, fields]
    | cons c' l =>
      rw [isChain_cons_cons, ← ih]
      by_cases hblank : isBlank c
      · rw [if_pos hblank, if_neg (by simp), tail_cons, fields_ne_iff]
        simp [hblank]
      · simp [hblank]

end

/-- The shell hands over the words of a line exactly if it has none, or if it is
tidy and has at most seven. -/
theorem shell_words_iff (buf : List Byte) : HandsWords buf ↔
    words (lineText buf) = [] ∨ Tidy (lineText buf) ∧ (words (lineText buf)).length ≤ 7 := by
  obtain ⟨w, ws, hw⟩ := exists_cons_of_ne_nil (fields_ne_nil (lineText buf))
  have hwords := words_eq (lineText buf)
  rw [HandsWords, handed_eq hw]
  generalize lineText buf = l at hw hwords
  by_cases hnone : words l = []
  · rw [if_pos hnone]
    have hempty : w = [] := by
      by_contra hne
      rw [hwords, hw, filter_cons_of_pos (by simpa using hne)] at hnone
      cases hnone
    simp [hnone, hempty]
  · have htidy : Tidy l ↔ ∀ x ∈ fields l, x ≠ [] := by
      cases l with
      | nil => exact absurd rfl hnone
      | cons c l =>
        rw [fields_ne_iff, tail_fields_iff, Tidy, isChain_cons_cons]
        simp [isBlank]
    rw [if_neg hnone, or_iff_right hnone, htidy, hw]
    constructor
    · intro h
      have hslots (j : Fin 8) : (w :: ws)[j.1]? = ((words l).take 7)[j.1]? := by
        split at h
        · cases h
        · exact congrFun (Option.some.inj h) j
      -- the last entry is NULL
      have hseven : (w :: ws).length ≤ 7 := by
        rw [← getElem?_eq_none_iff]
        exact (hslots 7).trans (getElem?_eq_none (length_take_le ..))
      have hle : (words l).length ≤ (w :: ws).length := by
        rw [hwords, hw]
        exact length_filter_le ..
      have hsame : w :: ws = words l := by
        refine ext_getElem? fun n => ?_
        by_cases hn : n < 8
        · rw [hslots ⟨n, hn⟩, take_of_length_le (hle.trans hseven)]
        · rw [getElem?_eq_none (by omega), getElem?_eq_none (by omega)]
      refine ⟨fun x hx => ?_, hle.trans hseven⟩
      rw [hsame, hwords] at hx
      simpa using (mem_filter.mp hx).2
    · rintro ⟨hall, hseven⟩
      have hsame : words l = w :: ws := by
        rw [hwords, hw]
        exact filter_eq_self.mpr fun x hx => by simpa using hall x hx
      rw [hsame] at hseven ⊢
      rw [if_neg (hall w mem_cons_self), take_of_length_le hseven]

def text (s : String) : List Byte := s.toList.map fun c => .ofNat 8 c.toNat

/-- `echo a  b` is called with an empty word, and eight words fill the array. -/
theorem shell_hands_empty_word : ¬ HandsWords (text "echo a  b") ∧
    (handed (text "echo a  b")).map (· 2) = some (some []) ∧
    (handed (text "a b c d e f g h")).map (· 7) = some (some (text "h")) := by
  refine ⟨fun h => ?_, by decide +kernel, by decide +kernel⟩
  exact absurd (congrArg (Option.map (· 2)) h) (by decide +kernel)

end LinuxRv.Shell
