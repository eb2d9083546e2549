import LinuxRv.Chr.LineEditing

/-!
What a canonical read takes. `tty_read` waits until a line is complete, but then its
loop goes on across the end of the line, and into a line that is still being
typed.
-/

namespace LinuxRv.Chr

open ByteMemory List

def Termios.ends (t : Termios) (c : Byte) : Bool := c = 10 || c = t.eofChar

/-- The lines that are complete. -/
def Termios.finished (t : Termios) (l : List Byte) : List Byte := l.rdropWhile fun c => !t.ends c

/-- The line that is being typed. -/
def Termios.unfinished (t : Termios) (l : List Byte) : List Byte := l.rtakeWhile fun c => !t.ends c

/-- The loop of `tty_read` on what is in the queue, in canonical mode. -/
def takeTo (eof : Byte) : ℕ → List Byte → List Byte × List Byte
  | 0, l => ([], l)
  | _ + 1, [] => ([], [])
  | nr + 1, c :: l => if c = eof then ([], l) else (c :: (takeTo eof nr l).1, (takeTo eof nr l).2)

section

variable {eof : Byte} {nr : ℕ} {l l' : List Byte}

/-- Without an end of file only the two lengths count. -/
theorem takeTo_of_notMem (h : eof ∉ l) : takeTo eof nr l = (l.take nr, l.drop nr) := by
  induction l generalizing nr with
  | nil => cases nr <;> rfl
  | cons c l ih =>
    obtain ⟨hc, hl⟩ := not_or.mp (mt mem_cons.mpr h)
    cases nr with
    | zero => rfl
    | succ nr => rw [takeTo, if_neg (Ne.symm hc), ih hl, take_succ_cons, drop_succ_cons]

/-- Nothing behind an end of file is looked at. -/
theorem takeTo_append (h : eof ∈ l) :
    takeTo eof nr (l ++ l') = ((takeTo eof nr l).1, (takeTo eof nr l).2 ++ l') := by
  induction l generalizing nr with
  | nil => cases h
  | cons c l ih =>
    cases nr with
    | zero => rfl
    | succ nr =>
      rw [cons_append, takeTo, takeTo]
      by_cases hc : c = eof
      · rw [if_pos hc, if_pos hc]
      · rw [if_neg hc, if_neg hc, ih ((mem_cons.mp h).resolve_left (Ne.symm hc))]

theorem takeTo_isPrefix : (takeTo eof nr l).1 <+: l := by
  induction l generalizing nr with
  | nil => cases nr <;> exact nil_prefix
  | cons c l ih =>
    cases nr with
    | zero => exact nil_prefix
    | succ nr =>
      rw [takeTo]
      split
      · exact nil_prefix
      · exact prefix_cons_inj c |>.mpr ih

end

section

variable {tty : Tty} {nr : ℕ}

theorem takeLoop_canonical (hcanon : tty.termios.icanon = true)
    (h : nr ≠ 0 → tty.secondary.toList ≠ []) :
    ((takeLoop nr tty).1, (takeLoop nr tty).2.secondary.toList) =
      takeTo tty.termios.eofChar nr tty.secondary.toList := by
  induction nr generalizing tty with
  | zero => rfl
  | succ nr ih =>
    rw [Queue.toList_getch (h (Nat.succ_ne_zero nr)), takeLoop, takeTo]
    generalize hget : tty.secondary.getch = got
    obtain ⟨c, q⟩ := got
    have hlist : (if c = tty.termios.eofChar ∨ c = 10 then { q with data := q.data - 1 } else q).toList =
        q.toList := by
      split <;> rfl
    simp only [hcanon, and_true]
    generalize (if c = tty.termios.eofChar ∨ c = 10 then { q with data := q.data - 1 } else q) = q'
      at hlist
    by_cases hc : c = tty.termios.eofChar
    · rw [if_pos hc, if_pos hc, hlist]
    rw [if_neg hc, if_neg hc]
    by_cases hempty : q'.empty = true
    · have hnil : q.toList = [] := hlist.symm.trans (Queue.empty_iff.mp hempty)
      rw [if_pos hempty, hlist, hnil]
      cases nr <;> rfl
    · rw [if_neg hempty]
      have hrest := @ih { tty with secondary := q' } hcanon fun _ hnil =>
        hempty (Queue.empty_iff.mpr hnil)
      rw [← hlist, ← show _ = takeTo tty.termios.eofChar nr q'.toList from hrest]

/-- A read takes whole lines: what it delivers are characters of complete lines, and
the line that is being typed stays. It does so if it meets an end of file, if no
line is being typed, or if the buffer is too small for more. -/
theorem read_whole_lines_iff (hcanon : tty.termios.icanon = true)
    (hline : ∃ c ∈ tty.secondary.toList, tty.termios.ends c = true)
    (hdata : tty.secondary.data ≠ 0) :
    ((tty.step (.read nr)).1 <+: tty.termios.finished tty.secondary.toList ∧
      tty.termios.unfinished tty.secondary.toList <:+ (tty.step (.read nr)).2.secondary.toList) ↔
    tty.termios.eofChar ∈ tty.secondary.toList ∨ tty.termios.unfinished tty.secondary.toList = [] ∨
      nr ≤ (tty.termios.finished tty.secondary.toList).length := by
  have hnil : tty.secondary.toList ≠ [] := by
    obtain ⟨c, hc, -⟩ := hline
    exact ne_nil_of_mem hc
  have hready : mustWait tty = false := by
    have hempty : tty.secondary.empty = false := Bool.eq_false_iff.mpr (mt Queue.empty_iff.mp hnil)
    rw [mustWait, hempty, decide_eq_false hdata, Bool.and_false, Bool.false_and, Bool.false_or]
  have htake := takeLoop_canonical hcanon fun _ : nr ≠ 0 => hnil
  have hsplit : tty.secondary.toList = tty.termios.finished tty.secondary.toList ++
    tty.termios.unfinished tty.secondary.toList := (rdropWhile_append_rtakeWhile ..).symm
  have hopen : ∀ c ∈ tty.termios.unfinished tty.secondary.toList, tty.termios.ends c = false :=
    fun c hc => by simpa using mem_rtakeWhile_imp hc
  rw [Tty.step, hready, if_neg Bool.false_ne_true]
  generalize (takeLoop nr tty).2.secondary.toList = rest at htake
  generalize (takeLoop nr tty).1 = got at htake
  generalize tty.termios.finished tty.secondary.toList = done at *
  generalize tty.termios.unfinished tty.secondary.toList = line at *
  rw [hsplit] at htake ⊢
  by_cases heof : tty.termios.eofChar ∈ done ++ line
  · -- the first end of file ends a complete line
    have hdone : tty.termios.eofChar ∈ done := by
      refine (mem_append.mp heof).resolve_right fun hmem => ?_
      simpa [Termios.ends] using hopen _ hmem
    rw [takeTo_append hdone] at htake
    obtain ⟨rfl, rfl⟩ := Prod.mk.inj htake
    exact iff_of_true ⟨takeTo_isPrefix, suffix_append ..⟩ (.inl heof)
  · rw [takeTo_of_notMem heof] at htake
    obtain ⟨rfl, rfl⟩ := Prod.mk.inj htake
    constructor
    · rintro ⟨hstart, -⟩
      have hlength := hstart.length_le
      rw [length_take, length_append] at hlength
      by_cases hnone : line = []
      · exact .inr (.inl hnone)
      · have hpos := length_pos_iff.mpr hnone
        exact .inr (.inr (by omega))
    · rintro (hmem | rfl | hle)
      · exact absurd hmem heof
      · rw [append_nil]
        exact ⟨ take_prefix .., nil_suffix⟩
      · rw [take_append_of_le_length hle, drop_append_of_le_length hle]
        exact ⟨ take_prefix .., suffix_append ..⟩

end

/-- `a`, newline and `b` are typed. -/
def typedAhead : Tty := conPoll [0x61, 10, 0x62] console

theorem typedAhead_toList : typedAhead.secondary.toList = [0x61, 10, 0x62] := by decide

/-- A buffer of two characters gets the line. -/
theorem read_whole_lines_short :
    (typedAhead.step (.read 2)).1 <+: typedAhead.termios.finished typedAhead.secondary.toList ∧
    typedAhead.termios.unfinished typedAhead.secondary.toList <:+
      (typedAhead.step (.read 2)).2.secondary.toList :=
  (read_whole_lines_iff rfl ⟨10, by rw [typedAhead_toList]; decide, rfl⟩ (by decide)).mpr
    (.inr (.inr (by rw [typedAhead_toList]; decide)))

/-- A larger one gets the beginning of the next line too. -/
theorem read_takes_unfinished : (typedAhead.step (.read 512)).1 = [0x61, 10, 0x62] ∧
    typedAhead.termios.unfinished typedAhead.secondary.toList = [0x62] ∧
    (typedAhead.step (.read 512)).2.secondary.toList = [] := by
  decide

end LinuxRv.Chr
