import LinuxRv.Chr.Tty
import Mathlib.Data.List.DropRight

/-!
Canonical line editing of the console.

The reference is an editor of lists: it has no queues, no indices and no counter
of lines. The queues of the console behave like it as long as there is room in
them: `con_poll` drops what does not fit in `read_q`, and `copy_to_cooked` stops
in front of a full `secondary`.
-/

namespace LinuxRv.Chr

open ByteMemory List Queue

/-! ### The reference -/

namespace Editor

/-- Newline and `^D`. -/
def isTerminator (c : Byte) : Bool := c = 10 || c = 4

/-- The last character goes, unless it ends a line. -/
def erase (l : List Byte) : List Byte :=
  if l.getLast?.any fun c => !isTerminator c then l.dropLast else l

/-- All that comes after the last line goes. -/
def kill (l : List Byte) : List Byte := l.rdropWhile fun c => !isTerminator c

/-- What a typed character makes of the characters that are waiting. -/
def edit (l : List Byte) (c : Byte) : List Byte :=
  let c := if c = 13 then 10 else c
  -- `^U`
  if c = 0x15 then kill l
  -- DEL and BS
  else if c = 0x7f ∨ c = 8 then erase l
  -- `^S`, `^Q`, `^C` and `^\`
  else if c = 0x13 ∨ c = 0x11 ∨ c = 0x03 ∨ c = 0x1c then l
  else l ++ [c]

/-- What a reader of at most `nr` characters gets, and what is left. A `^D` ends
the read and is not delivered. -/
def take : ℕ → List Byte → List Byte × List Byte
  | 0, l => ([], l)
  | _ + 1, [] => ([], [])
  | nr + 1, c :: l => if c = 4 then ([], l) else (c :: (take nr l).1, (take nr l).2)

def terminators (l : List Byte) : ℕ := l.countP isTerminator

/-- Nothing is lost and nothing comes twice. -/
theorem take_append (nr : ℕ) (l : List Byte) :
    l = (take nr l).1 ++ (take nr l).2 ∨ l = (take nr l).1 ++ 4 :: (take nr l).2 := by
  induction nr generalizing l with
  | zero => exact .inl rfl
  | succ nr ih =>
    cases l with
    | nil => exact .inl rfl
    | cons c l =>
      rw [take]
      split
      · rename_i hc
        exact .inr (by rw [hc]; rfl)
      · rcases ih l with h | h
        · exact .inl (congrArg (c :: ·) h)
        · exact .inr (congrArg (c :: ·) h)

theorem terminators_erase (l : List Byte) : terminators (erase l) = terminators l := by
  rcases eq_nil_or_concat' l with rfl | ⟨l, c, rfl⟩
  · rfl
  · rw [erase, getLast?_concat, dropLast_concat]
    split
    · rename_i hc
      have hterm : isTerminator c = false := by simpa using hc
      simp [terminators, hterm]
    · rfl

theorem terminators_kill (l : List Byte) : terminators (kill l) = terminators l := by
  induction l using reverseRecOn with
  | nil => rfl
  | append_singleton l c ih =>
    by_cases hc : isTerminator c = true
    · rw [kill, rdropWhile_concat_neg _ _ _ (by simp [hc])]
    · rw [kill, rdropWhile_concat_pos _ _ _ (by simpa using hc)]
      refine ih.trans ?_
      simp [terminators, hc]

theorem length_edit_le (l : List Byte) (c : Byte) : (edit l c).length ≤ l.length + 1 := by
  have hkill : (kill l).length ≤ l.length := ( rdropWhile_prefix _ _).length_le
  have herase : (erase l).length ≤ l.length := by
    rw [erase]
    split
    · rw [length_dropLast]
      omega
    · exact le_rfl
  rw [edit]
  generalize (if c = 13 then (10 : Byte) else c) = c
  split
  · omega
  · split
    · omega
    · split
      · omega
      · rw [length_append, length_singleton]

theorem length_foldl_edit_le (l p : List Byte) : (p.foldl edit l).length ≤ l.length + p.length := by
  induction p generalizing l with
  | nil => exact le_rfl
  | cons c p ih =>
    have hc := length_edit_le l c
    have hp := ih (edit l c)
    rw [foldl_cons, length_cons]
    omega

end Editor

open Editor

/-! ### One character -/

/-- The console, with as many complete lines counted as there are. -/
structure Sound (tty : Tty) : Prop where
  termios : tty.termios = consoleTermios
  data : tty.secondary.data = .ofNat 32 (terminators tty.secondary.toList)

section

variable {tty : Tty} {c : Byte}

/-- Signs do not matter for the control characters of the console. -/
theorem isCc_eq {cc : Byte} (hcc : cc.toNat < 128) : isCc c cc = decide (c = cc) := by
  have hsign : cc.toInt = cc.toNat := BitVec.toInt_eq_toNat_of_lt (by omega)
  rw [isCc, ← hsign]
  exact decide_eq_decide.mpr BitVec.toInt_inj

theorem mapInput_console (c : Byte) :
    mapInput consoleTermios c = some (if c = 13 then 10 else c) := by
  by_cases hc : c = 13
  · simp only [mapInput, if_pos hc]
    rfl
  · simp only [mapInput, if_neg hc]
    simp [consoleTermios]

theorem atLineStart_console (q : Queue) :
    atLineStart consoleTermios q = !(q.toList.getLast?.any fun c => !isTerminator c) := by
  by_cases hnil : q.toList = []
  · have hempty : q.empty = true := empty_iff.mpr hnil
    simp [atLineStart, hempty, hnil]
  · have hempty : q.empty = false := Bool.eq_false_iff.mpr (mt empty_iff.mp hnil)
    have heof : isCc q.last consoleTermios.eofChar = decide (q.last = 4) := isCc_eq (by decide)
    rw [atLineStart, hempty, heof, toList_decHead hnil]
    simp [isTerminator]

theorem toList_eraseLast (h : tty.termios = consoleTermios) :
    (eraseLast tty).secondary.toList = erase tty.secondary.toList := by
  rw [eraseLast, erase, h, atLineStart_console]
  cases hlast : tty.secondary.toList.getLast?.any fun c => !isTerminator c with
  | false => rfl
  | true =>
    have hnil : tty.secondary.toList ≠ [] := by
      intro hnil
      rw [hnil] at hlast
      cases hlast
    change tty.secondary.decHead.toList = tty.secondary.toList.dropLast
    rw [toList_decHead hnil, dropLast_concat]

theorem toList_killLine {fuel : ℕ} (h : tty.termios = consoleTermios)
    (hfuel : tty.secondary.toList.length ≤ fuel) :
    (killLine fuel tty).secondary.toList = kill tty.secondary.toList := by
  induction fuel generalizing tty with
  | zero =>
    have hnil : tty.secondary.toList = [] := length_eq_zero_iff.mp (by omega)
    rw [killLine, hnil]
    rfl
  | succ fuel ih =>
    rw [killLine, h, atLineStart_console]
    rcases eq_nil_or_concat' tty.secondary.toList with hnil | ⟨l, c, hlist⟩
    · simp [hnil, kill]
    · have hdec := toList_decHead (q := tty.secondary) (by simp [hlist])
      obtain ⟨hrest, hlast⟩ : tty.secondary.decHead.toList = l ∧ tty.secondary.last = c := by
        rw [hlist] at hdec
        simpa [eq_comm] using hdec
      by_cases hc : isTerminator c = true
      · rw [kill, hlist, rdropWhile_concat_neg _ _ _ (by simp [hc])]
        simp [hc, hlist]
      · have hc : isTerminator c = false := by simpa using hc
        rw [kill, hlist, rdropWhile_concat_pos _ _ _ (by simp [hc])]
        simp only [getLast?_concat, Option.any_some, hc, Bool.not_false, Bool.not_true,
          Bool.false_eq_true, if_false]
        refine (ih (by exact rfl) ?_).trans ?_
        · rw [hlist] at hfuel
          simp only [length_append, length_singleton] at hfuel
          change tty.secondary.decHead.toList.length ≤ fuel
          rw [hrest]
          omega
        · exact congrArg kill hrest

@[simp] theorem killLine_data (fuel : ℕ) (tty : Tty) :
    (killLine fuel tty).secondary.data = tty.secondary.data := by
  induction fuel generalizing tty with
  | zero => rfl
  | succ fuel ih =>
    rw [killLine]
    split
    · rfl
    · exact ih _

/-- What the console does to its other fields. -/
structure OnlySecondary (tty tty' : Tty) : Prop where
  termios : tty'.termios = tty.termios
  pgrp : tty'.pgrp = tty.pgrp
  readQ : tty'.readQ = tty.readQ

theorem onlySecondary_killLine (fuel : ℕ) (tty : Tty) : OnlySecondary tty (killLine fuel tty) := by
  induction fuel generalizing tty with
  | zero => exact ⟨rfl, rfl, rfl⟩
  | succ fuel ih =>
    rw [killLine]
    split
    · exact ⟨rfl, rfl, rfl⟩
    · exact ⟨(ih _).termios, (ih _).pgrp, (ih _).readQ⟩

theorem onlySecondary_cookChar (c : Byte) (tty : Tty) : OnlySecondary tty (cookChar c tty) := by
  have hintr (mask : Word) : OnlySecondary tty (ttyIntr mask tty) := by
    rw [ttyIntr]
    split <;> exact ⟨rfl, rfl, rfl⟩
  have herase : OnlySecondary tty (eraseLast tty) := by
    rw [eraseLast]
    split <;> exact ⟨rfl, rfl, rfl⟩
  rw [cookChar]
  cases mapInput tty.termios c with
  | none => exact ⟨rfl, rfl, rfl⟩
  | some c =>
    simp only
    split_ifs
    · exact onlySecondary_killLine _ _
    · exact herase
    · exact ⟨rfl, rfl, rfl⟩
    · exact ⟨rfl, rfl, rfl⟩
    · exact hintr _
    · exact hintr _
    · exact ⟨rfl, rfl, rfl⟩

/-- The cases of `copy_to_cooked` for the console. -/
theorem cookChar_console (h : tty.termios = consoleTermios) (c : Byte) : cookChar c tty =
      let c := if c = 13 then 10 else c
      if c = 0x15 then killLine ttyBufSize tty
      else if c = 0x7f ∨ c = 8 then eraseLast tty
      else if c = 0x13 then { tty with stopped := true }
      else if c = 0x11 then { tty with stopped := false }
      else if c = 0x03 then ttyIntr intMask tty
      else if c = 0x1c then ttyIntr quitMask tty
      else takeIn c tty := by
  have hcc (c : Byte) {cc : Byte} (h : cc.toNat < 128) : isCc c cc = true ↔ c = cc := by
    rw [isCc_eq h, decide_eq_true_eq]
  have hkill (c : Byte) : isCc c consoleTermios.killChar = true ↔ c = 0x15 := hcc c (by decide)
  have herase (c : Byte) : isCc c consoleTermios.eraseChar = true ↔ c = 0x7f := hcc c (by decide)
  have hstop (c : Byte) : isCc c consoleTermios.stopChar = true ↔ c = 0x13 := hcc c (by decide)
  have hstart (c : Byte) : isCc c consoleTermios.startChar = true ↔ c = 0x11 := hcc c (by decide)
  have hintr (c : Byte) : isCc c consoleTermios.intrChar = true ↔ c = 0x03 := hcc c (by decide)
  have hquit (c : Byte) : isCc c consoleTermios.quitChar = true ↔ c = 0x1c := hcc c (by decide)
  simp only [cookChar, h, mapInput_console, show consoleTermios.icanon = true from rfl,
    show consoleTermios.isig = true from rfl, true_and, hkill, herase, hstop, hstart, hintr, hquit]

theorem Sound.takeIn (h : Sound tty) (hroom : tty.secondary.toList.length < 1023) (c : Byte) :
    (takeIn c tty).secondary.toList = tty.secondary.toList ++ [c] ∧ (takeIn c tty).secondary.data =
        .ofNat 32 (terminators (tty.secondary.toList ++ [c])) := by
  have heof : isCc c tty.termios.eofChar = decide (c = 4) := by
    rw [h.termios]
    exact isCc_eq (by decide)
  have hcount : terminators (tty.secondary.toList ++ [c]) =
      terminators tty.secondary.toList + if c = 10 ∨ c = 4 then 1 else 0 := by
    simp [terminators, isTerminator, countP_append, countP_singleton]
  rw [Chr.takeIn, heof, hcount]
  simp only [decide_eq_true_eq]
  by_cases hc : c = 10 ∨ c = 4
  · simp only [if_pos hc]
    refine ⟨toList_putch (q := { tty.secondary with data := tty.secondary.data + 1 }) hroom, ?_⟩
    rw [BitVec.ofNat_add, ← h.data]
    rfl
  · simp only [if_neg hc]
    exact ⟨toList_putch hroom, h.data⟩

/-- `copy_to_cooked` edits as the reference does, while there is room. -/
theorem Sound.cookChar (h : Sound tty) (hroom : tty.secondary.toList.length < 1023) (c : Byte) :
    Sound (cookChar c tty) ∧ (cookChar c tty).secondary.toList = edit tty.secondary.toList c := by
  have htermios := (onlySecondary_cookChar c tty).termios.trans h.termios
  suffices hstep : (Chr.cookChar c tty).secondary.toList = edit tty.secondary.toList c ∧
      (Chr.cookChar c tty).secondary.data = .ofNat 32 (terminators (edit tty.secondary.toList c)) by
    exact ⟨⟨htermios, hstep.1.symm ▸ hstep.2⟩, hstep.1⟩
  rw [cookChar_console h.termios, edit]
  generalize (if c = 13 then (10 : Byte) else c) = c
  simp only
  have hsame (mask : Word) : (ttyIntr mask tty).secondary = tty.secondary := by
    rw [ttyIntr]
    split <;> rfl
  by_cases hkill : c = 0x15
  · simp only [if_pos hkill]
    refine ⟨toList_killLine h.termios (hroom.le.trans (by decide)), ?_⟩
    rw [killLine_data, h.data, terminators_kill]
  by_cases herase : c = 0x7f ∨ c = 8
  · simp only [if_neg hkill, if_pos herase]
    refine ⟨toList_eraseLast h.termios, ?_⟩
    rw [terminators_erase, ← h.data, eraseLast]
    split <;> rfl
  simp only [if_neg hkill, if_neg herase]
  by_cases hquiet : c = 0x13 ∨ c = 0x11 ∨ c = 0x03 ∨ c = 0x1c
  · rw [if_pos hquiet]
    rcases hquiet with rfl | rfl | rfl | rfl
    · exact ⟨rfl, h.data⟩
    · exact ⟨rfl, h.data⟩
    · exact ⟨congrArg Queue.toList (hsame intMask), (congrArg Queue.data (hsame intMask)).trans h.data⟩
    · exact ⟨congrArg Queue.toList (hsame quitMask),
        (congrArg Queue.data (hsame quitMask)).trans h.data⟩
  · rw [if_neg hquiet]
    simp only [not_or] at hquiet
    obtain ⟨hstop, hstart, hintr, hquit⟩ := hquiet
    rw [if_neg hstop, if_neg hstart, if_neg hintr, if_neg hquit]
    exact h.takeIn hroom c

end

/-! ### Polling and reading -/

/-- The editor with room for 1023 characters: what is waiting to be read, and what
is still to be edited. -/
def Editor.cook : List Byte → List Byte → List Byte × List Byte
  | l, [] => (l, [])
  | l, c :: r => if l.length = 1023 then (l, c :: r) else cook (edit l c) r

section

variable {tty : Tty}

theorem Sound.cookLoop {fuel : ℕ} (h : Sound tty) (hfuel : tty.readQ.toList.length ≤ fuel) :
    Sound (cookLoop fuel tty) ∧
      ((cookLoop fuel tty).secondary.toList, (cookLoop fuel tty).readQ.toList) =
        cook tty.secondary.toList tty.readQ.toList := by
  induction fuel generalizing tty with
  | zero =>
    have hnil : tty.readQ.toList = [] := length_eq_zero_iff.mp (by omega)
    rw [Chr.cookLoop, hnil]
    exact ⟨h, rfl⟩
  | succ fuel ih =>
    rw [Chr.cookLoop]
    by_cases hnil : tty.readQ.toList = []
    · rw [if_pos (.inl (empty_iff.mpr hnil)), hnil]
      exact ⟨h, rfl⟩
    have hget := toList_getch hnil
    by_cases hfull : tty.secondary.toList.length = 1023
    · rw [if_pos (.inr (full_iff.mpr hfull)), hget, cook, if_pos hfull]
      exact ⟨h, rfl⟩
    · rw [if_neg (not_or.mpr ⟨mt empty_iff.mp hnil, mt full_iff.mp hfull⟩)]
      have hroom : tty.secondary.toList.length < 1023 := by
        have hle := tty.secondary.chars_le
        rw [length_toList] at hfull ⊢
        omega
      -- the loop goes on with one character less
      set c := tty.readQ.getch.1
      set tty₁ : Tty := { tty with readQ := tty.readQ.getch.2 }
      have h₁ : Sound tty₁ := ⟨h.termios, h.data⟩
      obtain ⟨h₂, hlist⟩ := h₁.cookChar hroom c
      have hread : (Chr.cookChar c tty₁).readQ = tty.readQ.getch.2 :=
        (onlySecondary_cookChar c tty₁).readQ
      obtain ⟨h₃, hcook⟩ := ih h₂ (by
        rw [hread]
        rw [hget, length_cons] at hfuel
        omega)
      refine ⟨h₃, hcook.trans ?_⟩
      rw [hget, cook, if_neg hfull, hlist, hread]

/-- The queue after the characters that find it not full. -/
def Queue.fill (q : Queue) (bytes : List Byte) : Queue :=
  bytes.foldl (fun q c => if q.full then q else q.putch c) q

theorem foldl_receive (bytes : List Byte) (tty : Tty) :
    bytes.foldl receive tty = { tty with readQ := tty.readQ.fill bytes } := by
  induction bytes generalizing tty with
  | nil => rfl
  | cons c bytes ih =>
    rw [foldl_cons, ih, fill, fill, foldl_cons, receive]
    split <;> rfl

theorem Queue.toList_fill (q : Queue) (bytes : List Byte) :
    (q.fill bytes).toList = q.toList ++ bytes.take (1023 - q.toList.length) := by
  induction bytes generalizing q with
  | nil => simp [fill]
  | cons c bytes ih =>
    by_cases hfull : q.toList.length = 1023
    · have hsame : q.fill (c :: bytes) = q.fill bytes := by
        rw [fill, foldl_cons, if_pos (full_iff.mpr hfull)]
        rfl
      rw [hsame, ih, hfull]
      simp
    · have hlt : q.toList.length < 1023 := by
        have hle := q.chars_le
        rw [length_toList] at hfull ⊢
        omega
      have hput : q.fill (c :: bytes) = (q.putch c).fill bytes := by
        rw [fill, foldl_cons, if_neg (mt full_iff.mp hfull)]
        rfl
      have hroom : 1023 - q.toList.length = (1023 - (q.toList.length + 1)) + 1 := by omega
      rw [hput, ih, toList_putch hlt, length_append, length_singleton, hroom,
        take_succ_cons, append_assoc, singleton_append]

/-- `con_poll`: what fits in `read_q` goes there and is edited. -/
theorem Sound.conPoll (h : Sound tty) (bytes : List Byte) : Sound (conPoll bytes tty) ∧
      ((conPoll bytes tty).secondary.toList, (conPoll bytes tty).readQ.toList) =
        cook tty.secondary.toList
          (tty.readQ.toList ++ bytes.take (1023 - tty.readQ.toList.length)) := by
  rw [Chr.conPoll, foldl_receive, ← toList_fill]
  have hfill : Sound { tty with readQ := tty.readQ.fill bytes } := ⟨h.termios, h.data⟩
  simp only
  split
  · rename_i hempty
    refine ⟨hfill, ?_⟩
    rw [empty_iff.mp hempty]
    rfl
  · refine hfill.cookLoop ?_
    rw [length_toList]
    exact (chars_le _).trans (by decide)

/-- `GETCH` by a reader, who counts a line off. -/
theorem Sound.getch (h : Sound tty) (hnil : tty.secondary.toList ≠ []) :
    let c := tty.secondary.getch.1
    let q := tty.secondary.getch.2
    Sound { tty with
      secondary := if c = 4 ∨ c = 10 then { q with data := q.data - 1 } else q } := by
  intro c q
  have hdata : q.data = .ofNat 32 (terminators (c :: q.toList)) := by
    rw [← toList_getch hnil]
    exact h.data
  refine ⟨h.termios, ?_⟩
  by_cases hc : c = 4 ∨ c = 10
  · have hterm : isTerminator c = true := by simpa [isTerminator, or_comm] using hc
    simp only [if_pos hc]
    change q.data - 1 = .ofNat 32 (terminators q.toList)
    rw [hdata, terminators, countP_cons_of_pos hterm, BitVec.ofNat_add]
    exact BitVec.add_sub_cancel ..
  · have hterm : ¬ isTerminator c = true := by simpa [isTerminator, or_comm] using hc
    simp only [if_neg hc]
    rw [hdata, terminators, countP_cons_of_neg hterm]
    rfl

/-- The characters a reader gets. -/
theorem Sound.takeLoop {nr : ℕ} (h : Sound tty) (hnr : nr ≠ 0 → tty.secondary.toList ≠ []) :
    Sound (takeLoop nr tty).2 ∧ (takeLoop nr tty).2.readQ = tty.readQ ∧
      ((takeLoop nr tty).1, (takeLoop nr tty).2.secondary.toList) =
        Editor.take nr tty.secondary.toList := by
  induction nr generalizing tty with
  | zero => exact ⟨h, rfl, rfl⟩
  | succ nr ih =>
    have hnil : tty.secondary.toList ≠ [] := hnr (by simp)
    have hsound := h.getch hnil
    have heof : tty.termios.eofChar = 4 := by
      rw [h.termios]
      rfl
    have hcanon : tty.termios.icanon = true := by
      rw [h.termios]
      rfl
    rw [toList_getch hnil, Chr.takeLoop]
    simp only [heof, hcanon, and_true] at hsound ⊢
    set c := tty.secondary.getch.1
    set q := tty.secondary.getch.2
    set q' : Queue := if c = 4 ∨ c = 10 then { q with data := q.data - 1 } else q with hq'
    have hlist : q'.toList = q.toList := by
      rw [hq']
      split <;> rfl
    rw [Editor.take]
    by_cases hc : c = 4
    · simp only [if_pos hc]
      exact ⟨hsound, trivial, by rw [hlist]⟩
    simp only [if_neg hc]
    by_cases hempty : q'.toList = []
    · rw [if_pos (empty_iff.mpr hempty), ← hlist, hempty]
      refine ⟨hsound, rfl, ?_⟩
      cases nr <;> rfl
    · rw [if_neg (mt empty_iff.mp hempty)]
      obtain ⟨h₁, h₂, h₃⟩ := ih hsound fun _ => hempty
      rw [← hlist]
      refine ⟨h₁, h₂, ?_⟩
      rw [← show _ = Editor.take nr q'.toList from h₃]

end

/-! ### Runs -/

inductive Event
  /-- `con_poll` finds these characters. -/
  | poll (bytes : List Byte)
  /-- `tty_read` of so many characters. -/
  | read (nr : ℕ)

/-- What an event delivers to a reader. A `tty_read` that has to wait takes nothing;
while it waits it polls, which is an event of its own. -/
def Tty.step (tty : Tty) : Event → List Byte × Tty
  | .poll bytes => ([], conPoll bytes tty)
  | .read nr => if mustWait tty then ([], tty) else takeLoop nr tty

def Tty.run : Tty → List Event → List (List Byte) × Tty
  | tty, [] => ([], tty)
  | tty, e :: es => ((tty.step e).1 :: ((tty.step e).2.run es).1, ((tty.step e).2.run es).2)

/-- A reader waits for a complete line, unless little room is left. -/
def Editor.mustWait (l : List Byte) : Bool :=
  l = [] || (terminators l = 0 && decide (l.length + 20 < 1023))

def Editor.step (l : List Byte) : Event → List Byte × List Byte
  | .poll bytes => ([], bytes.foldl edit l)
  | .read nr => if mustWait l then ([], l) else take nr l

def Editor.run : List Byte → List Event → List (List Byte) × List Byte
  | l, [] => ([], l)
  | l, e :: es =>
    ((step l e).1 :: (Editor.run (step l e).2 es).1, (Editor.run (step l e).2 es).2)

/-- Both queues have room for all that is typed. -/
def Fits (l : List Byte) : Event → Prop
  | .poll bytes => bytes.length ≤ 1023 ∧ ∀ p, p <+: bytes → (p.foldl edit l).length < 1023
  | .read _ => True

def AlwaysFits : List Byte → List Event → Prop
  | _, [] => True
  | l, e :: es => Fits l e ∧ AlwaysFits (Editor.step l e).2 es

/-- The console with nothing typed. -/
def console : Tty where
  termios := consoleTermios
  pgrp := 0
  stopped := false
  readQ := ⟨0, 0, 0, fun _ => 0⟩
  secondary := ⟨0, 0, 0, fun _ => 0⟩
  printed := []
  sent := 0

section

variable {tty : Tty} {l : List Byte}

theorem fits_poll_of_short {bytes : List Byte} (h : l.length + bytes.length < 1023) :
    Fits l (.poll bytes) := by
  refine ⟨by omega, fun p hp => ?_⟩
  have hlength := length_foldl_edit_le l p
  have hle := hp.length_le
  omega

theorem cook_of_fits {bytes : List Byte} (h : ∀ p, p <+: bytes → (p.foldl edit l).length < 1023) :
    cook l bytes = (bytes.foldl edit l, []) := by
  induction bytes generalizing l with
  | nil => rfl
  | cons c bytes ih =>
    have hlt : l.length < 1023 := h [] nil_prefix
    rw [cook, if_neg hlt.ne]
    exact ih fun p hp => h (c :: p) (cons_prefix_cons.mpr ⟨rfl, hp⟩)

theorem Sound.toNat_data (h : Sound tty) :
    tty.secondary.data.toNat = terminators tty.secondary.toList := by
  have hle := tty.secondary.chars_le
  have hcount : terminators tty.secondary.toList ≤ tty.secondary.toList.length :=
    countP_le_length
  rw [length_toList] at hcount
  rw [h.data, BitVec.toNat_ofNat, Nat.mod_eq_of_lt (by omega)]

theorem Sound.mustWait (h : Sound tty) :
    Chr.mustWait tty = Editor.mustWait tty.secondary.toList := by
  have hle := tty.secondary.chars_le
  have hempty : tty.secondary.empty = decide (tty.secondary.toList = []) := by
    rw [Bool.eq_iff_iff, empty_iff, decide_eq_true_eq]
  have hdata : decide (tty.secondary.data = 0) = decide (terminators tty.secondary.toList = 0) := by
    rw [decide_eq_decide, ← BitVec.toNat_inj, h.toNat_data]
    rfl
  have hleft : decide (20 < tty.secondary.left) =
      decide (tty.secondary.toList.length + 20 < 1023) := by
    rw [decide_eq_decide, left_eq, length_toList]
    omega
  rw [Chr.mustWait, Editor.mustWait, hempty, hdata, hleft, h.termios]
  rfl

theorem Sound.step (h : Sound tty) (hread : tty.readQ.toList = []) {e : Event}
    (hfits : Fits tty.secondary.toList e) :
    Sound (tty.step e).2 ∧ (tty.step e).2.readQ.toList = [] ∧
      ((tty.step e).1, (tty.step e).2.secondary.toList) = Editor.step tty.secondary.toList e := by
  cases e with
  | poll bytes =>
    obtain ⟨hsound, hcook⟩ := h.conPoll bytes
    rw [hread, nil_append, length_nil, take_of_length_le hfits.1,
      cook_of_fits hfits.2, Prod.mk.injEq] at hcook
    exact ⟨hsound, hcook.2, Prod.ext rfl hcook.1⟩
  | read nr =>
    rw [Tty.step, Editor.step, h.mustWait]
    split
    · exact ⟨h, hread, rfl⟩
    · rename_i hready
      have hnil : tty.secondary.toList ≠ [] := by
        rintro hnil
        exact hready (by rw [hnil]; rfl)
      obtain ⟨hsound, hsame, htake⟩ := h.takeLoop (show nr ≠ 0 → _ from fun _ => hnil)
      exact ⟨hsound, hsame ▸ hread, htake⟩

theorem Sound.run {es : List Event} (h : Sound tty) (hread : tty.readQ.toList = [])
    (hfits : AlwaysFits tty.secondary.toList es) : Sound (tty.run es).2 ∧
      ((tty.run es).1, (tty.run es).2.secondary.toList) = Editor.run tty.secondary.toList es := by
  induction es generalizing tty with
  | nil => exact ⟨h, rfl⟩
  | cons e es ih =>
    obtain ⟨h₁, hread₁, hstep⟩ := h.step hread hfits.1
    have hlist : (tty.step e).2.secondary.toList = (Editor.step tty.secondary.toList e).2 :=
      congrArg Prod.snd hstep
    obtain ⟨h₂, hrun⟩ := ih h₁ hread₁ (hlist ▸ hfits.2)
    refine ⟨h₂, ?_⟩
    rw [Tty.run, Editor.run, ← hstep]
    simp only
    rw [← hrun]

theorem sound_console : Sound console := ⟨rfl, rfl⟩

/-- The console is the editor of lines: it shows every reader the same characters,
keeps the same ones for later, and counts the lines. A read takes from the front. -/
theorem console_edits_lines (es : List Event) (hfits : AlwaysFits [] es) :
    let tty := (console.run es).2
    (console.run es).1 = (Editor.run [] es).1 ∧ tty.secondary.toList = (Editor.run [] es).2 ∧
      tty.secondary.data.toNat = terminators tty.secondary.toList ∧
      ∀ nr, Chr.mustWait tty = false →
        let taken := Chr.takeLoop nr tty
        tty.secondary.toList = taken.1 ++ taken.2.secondary.toList ∨
          tty.secondary.toList = taken.1 ++ 4 :: taken.2.secondary.toList := by
  intro tty
  obtain ⟨hsound, hrun⟩ := sound_console.run rfl hfits
  refine ⟨congrArg Prod.fst hrun, congrArg Prod.snd hrun, hsound.toNat_data, fun nr hready => ?_⟩
  have hnil : tty.secondary.toList ≠ [] := by
    intro hnil
    rw [hsound.mustWait, hnil] at hready
    cases hready
  obtain ⟨-, -, htake⟩ := hsound.takeLoop (show nr ≠ 0 → _ from fun _ => hnil)
  have hfront := take_append nr tty.secondary.toList
  rwa [← htake] at hfront

/-- A line that is corrected, read in two pieces. -/
theorem console_edits_corrected_line :
    let es : List Event := [.poll [0x61, 0x62, 0x7f], .poll [0x63, 13], .read 1, .read 5]
    AlwaysFits [] es ∧ (console.run es).1 = [[], [], [0x61], [0x63, 10]] := by
  intro es
  have hfits : AlwaysFits [] es :=
    ⟨fits_poll_of_short (by decide), fits_poll_of_short (by decide), trivial, trivial, trivial⟩
  exact ⟨hfits, (console_edits_lines es hfits).1.trans (by decide)⟩

end

/-- Erasing in an empty line, over and over. -/
theorem foldl_edit_dels {p : List Byte} (h : ∀ c ∈ p, c = 0x7f) : p.foldl edit [] = [] := by
  induction p with
  | nil => rfl
  | cons c p ih =>
    rw [foldl_cons, h c mem_cons_self]
    exact ih fun c hc => h c (mem_cons_of_mem _ hc)

/-- What is typed behind 1023 times DEL in one poll never reaches the line. -/
theorem conPoll_dels {dels rest : List Byte} (hlength : dels.length = 1023)
    (h : ∀ c ∈ dels, c = 0x7f) : (Chr.conPoll (dels ++ rest) console).secondary.toList = [] := by
  obtain ⟨-, hcook⟩ := sound_console.conPoll (dels ++ rest)
  have hread : console.readQ.toList = [] := rfl
  have hline : console.secondary.toList = [] := rfl
  rw [hread, hline, nil_append, length_nil, Nat.sub_zero, ← hlength, take_left,
    cook_of_fits fun p hp => by rw [foldl_edit_dels fun c hc => h c (hp.subset hc)]; decide,
    foldl_edit_dels h] at hcook
  exact congrArg Prod.fst hcook

/-- A poll with more than `read_q` can hold: 1023 times DEL, then a line. The editor
has the line, the console has nothing. `secondary` is never full meanwhile. -/
theorem long_poll_loses_line :
    let bytes : List Byte := replicate 1023 0x7f ++ [0x61, 10]
    (∀ p, p <+: bytes → (p.foldl edit []).length < 1023) ∧ bytes.foldl edit [] = [0x61, 10] ∧
      (console.run [.poll bytes]).2.secondary.toList = [] := by
  intro bytes
  have hdels (c : Byte) (hc : c ∈ replicate 1023 (0x7f : Byte)) : c = 0x7f :=
    eq_of_mem_replicate hc
  have hlost : (Chr.conPoll bytes console).secondary.toList = [] :=
    conPoll_dels length_replicate hdels
  refine ⟨fun p hp => ?_, ?_, hlost⟩
  · rcases prefix_or_prefix_of_prefix hp (prefix_append _ _) with hp | ⟨q, rfl⟩
    · rw [foldl_edit_dels fun c hc => hdels c (hp.subset hc)]
      decide
    · have hlength := length_foldl_edit_le [] q
      have hle := ((prefix_append_right_inj _).mp hp).length_le
      rw [foldl_append, foldl_edit_dels hdels]
      simp only [length_cons, length_nil] at hlength hle
      omega
  · rw [foldl_append, foldl_edit_dels hdels]
    decide

end LinuxRv.Chr
