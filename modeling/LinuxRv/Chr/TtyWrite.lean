import LinuxRv.Chr.Tty
import Mathlib.Algebra.Order.BigOperators.Group.List

/-!
Output of the console: `tty_write` (`kernel/chr_drv/tty_io.c`) and `con_write`
(`kernel/chr_drv/console.c`).

A newline takes two rounds of the inner loop, which `cr_flag` links, and the queue
may become full between them. `Writer.pending` is what is still to be put in the
queue: each round puts its first character there, so that what was printed, what is
in the queue and what is pending make up the output at any time.
-/

namespace LinuxRv.Chr

open ByteMemory List Queue Nat

/-! ### The source -/

/-- The bits of `c_oflag` that output depends on. -/
structure OutFlags where
  opost : Bool
  ocrnl : Bool
  onlret : Bool
  onlcr : Bool
  olcuc : Bool

/-- `OPOST|ONLCR` -/
def consoleOut : OutFlags := ⟨true, false, false, true, false⟩

def toupper (c : Byte) : Byte := if 0x61 ≤ c ∧ c ≤ 0x7a then c - 0x20 else c

/-- The call in progress: the queue, the static `cr_flag`, what the UART has sent,
the bytes done (`b - buf`) and those left. -/
structure Writer where
  writeQ : Queue
  crFlag : Bool
  printed : List Byte
  done : ℕ
  nr : ℕ

/-- `con_write` -/
def conWrite : ℕ → Writer → Writer
  | 0, w => w
  | fuel + 1, w =>
    if w.writeQ.empty then w
    else conWrite fuel { w with
      writeQ := w.writeQ.getch.2, printed := w.printed ++ [w.writeQ.getch.1] }

/-- What `OCRNL` and `ONLRET` make of a character. -/
def mapOutput (t : OutFlags) (c : Byte) : Byte :=
  if c = 13 ∧ t.ocrnl then 10 else if c = 10 ∧ t.onlret then 13 else c

/-- One round of the inner loop; `c` is the byte at `b`. -/
def Writer.put (t : OutFlags) (c : Byte) (w : Writer) : Writer :=
  let c := if t.opost then mapOutput t c else c
  if t.opost ∧ c = 10 ∧ !w.crFlag ∧ t.onlcr then
    { w with crFlag := true, writeQ := w.writeQ.putch 13 }
  else
    let c := if t.opost ∧ t.olcuc then toupper c else c
    { w with done := w.done + 1, nr := w.nr - 1, crFlag := false, writeQ := w.writeQ.putch c }

/-- `while (nr>0 && !FULL(tty->write_q))`. `buf` is the memory of the task from the
buffer on. -/
def putLoop (t : OutFlags) (buf : ℕ → Byte) : ℕ → Writer → Writer
  | 0, w => w
  | fuel + 1, w =>
    if w.nr = 0 ∨ w.writeQ.full then w else putLoop t buf fuel (w.put t (buf w.done))

/-- `while (nr>0)`; `none` if the task has to wait for room in the queue, or if the
fuel is spent. `signal` says whether the task has one pending. -/
def writeLoop (t : OutFlags) (signal : Bool) (buf : ℕ → Byte) : ℕ → Writer → Option Writer
  | 0, _ => none
  | fuel + 1, w =>
    if w.nr = 0 then some w
    else if signal then some w
    else if w.writeQ.full then none
    else writeLoop t signal buf fuel (conWrite ttyBufSize (putLoop t buf ttyBufSize w))

def ttyWrite (t : OutFlags) (signal : Bool) (channel : Word) (buf : ℕ → Byte) (nr : Word) (fuel : ℕ)
    (w : Writer) : Option (ℤ × Writer) :=
  if 2 < channel ∨ nr.toInt < 0 then some (-1, w)
  else (writeLoop t signal buf fuel { w with done := 0, nr := nr.toNat }).map fun w => (w.done, w)

/-! ### What is to be printed -/

/-- A newline gets a carriage return, if the flags say so. -/
def OutFlags.expand (t : OutFlags) (c : Byte) : List Byte :=
  let c := if t.opost then mapOutput t c else c
  if t.opost ∧ c = 10 ∧ t.onlcr then [13, 10]
  else [if t.opost ∧ t.olcuc then toupper c else c]

theorem expand_consoleOut (c : Byte) : consoleOut.expand c = if c = 10 then [13, 10] else [c] := by
  simp [OutFlags.expand, consoleOut, mapOutput]

section

variable {t : OutFlags} {buf : ℕ → Byte} {w : Writer} {fuel : ℕ}

/-- The bytes left, without the carriage return that has been put already. -/
def Writer.pending (t : OutFlags) (buf : ℕ → Byte) (w : Writer) : List Byte :=
  ((range' w.done w.nr).flatMap fun i => t.expand (buf i)).drop w.crFlag.toNat

/-- A carriage return has only been put for a newline. -/
def Writer.Ok (t : OutFlags) (buf : ℕ → Byte) (w : Writer) : Prop :=
  w.crFlag = true → w.nr ≠ 0 ∧ t.expand (buf w.done) = [13, 10]

/-- What is printed in the end. -/
def Writer.output (t : OutFlags) (buf : ℕ → Byte) (w : Writer) : List Byte :=
  w.printed ++ w.writeQ.toList ++ w.pending t buf

theorem Writer.pending_of_nr (hnr : w.nr = 0) : w.pending t buf = [] := by
  rw [pending, hnr]
  exact drop_nil

theorem length_pending_le : (w.pending t buf).length ≤ 2 * w.nr := by
  have hexpand (c : Byte) : (t.expand c).length ≤ 2 := by
    unfold OutFlags.expand
    generalize (if t.opost = true then mapOutput t c else c) = c
    simp only
    split <;> simp
  rw [Writer.pending, length_drop, length_flatMap]
  refine (sub_le ..).trans ((sum_le_card_nsmul _ 2 fun n hn => ?_).trans ?_)
  · obtain ⟨i, -, rfl⟩ := mem_map.mp hn
    exact hexpand _
  · simp [Nat.mul_comm]

theorem Writer.flatMap_range (hnr : w.nr ≠ 0) :
    ((range' w.done w.nr).flatMap fun i => t.expand (buf i)) = t.expand (buf w.done) ++
      (range' (w.done + 1) (w.nr - 1)).flatMap fun i => t.expand (buf i) := by
  obtain ⟨n, hn⟩ := exists_eq_succ_of_ne_zero hnr
  rw [hn, range'_succ, flatMap_cons, succ_sub_one]

theorem room_of_not_full (h : ¬ w.writeQ.full = true) : w.writeQ.toList.length < 1023 := by
  have hle := w.writeQ.chars_le
  rw [full_iff] at h
  rw [length_toList] at h ⊢
  omega

/-- A round puts the first character that is pending. -/
theorem Writer.Ok.put (h : w.Ok t buf) (hnr : w.nr ≠ 0) (hroom : w.writeQ.toList.length < 1023) :
    let w' := w.put t (buf w.done)
    w'.Ok t buf ∧ w'.done + w'.nr = w.done + w.nr ∧ w'.printed = w.printed ∧
      ∃ c, w.pending t buf = c :: w'.pending t buf ∧ w'.writeQ.toList = w.writeQ.toList ++ [c] := by
  have hcount : w.done + 1 + (w.nr - 1) = w.done + w.nr := by omega
  have hputch (c : Byte) := @toList_putch _ c hroom
  have hrange := @flatMap_range t buf w hnr
  simp only [Writer.put, Writer.Ok, pending] at h ⊢
  generalize hc : (if t.opost = true then mapOutput t (buf w.done) else buf w.done) = c
  have hexpand : t.expand (buf w.done) = if t.opost ∧ c = 10 ∧ t.onlcr then [13, 10]
      else [if t.opost ∧ t.olcuc then toupper c else c] := by
    rw [OutFlags.expand, hc]
  by_cases hnl : t.opost = true ∧ c = 10 ∧ t.onlcr = true
  · rw [if_pos hnl] at hexpand
    rw [hrange, hexpand]
    cases hcr : w.crFlag with
    | false =>
      rw [if_pos ⟨hnl.1, hnl.2.1, rfl, hnl.2.2⟩]
      refine ⟨fun _ => ⟨hnr, hexpand⟩, rfl, rfl, 13, ?_, hputch 13⟩
      rw [hrange, hexpand]
      rfl
    | true =>
      have hlast : (if t.opost = true ∧ t.olcuc = true then toupper c else c) = 10 := by
        rw [hnl.2.1]
        exact ite_self _
      rw [if_neg (by simp), hlast]
      exact ⟨nofun, hcount, rfl, 10, rfl, hputch 10⟩
  · rw [if_neg hnl] at hexpand
    have hcr : w.crFlag = false := by
      refine Bool.eq_false_iff.mpr fun hcr => ?_
      have hlength := congrArg length ((h hcr).2.symm.trans hexpand)
      cases hlength
    rw [if_neg (by tauto), hrange, hexpand, hcr]
    exact ⟨nofun, hcount, rfl, _, rfl, hputch _⟩

/-- The inner loop, over its rounds. -/
theorem Writer.Ok.putLoop (h : w.Ok t buf) : let w' := putLoop t buf fuel w
    w'.Ok t buf ∧ w'.done + w'.nr = w.done + w.nr ∧ w'.output t buf = w.output t buf ∧
      (w'.pending t buf).length ≤ (w.pending t buf).length := by
  induction fuel generalizing w with
  | zero => exact ⟨h, rfl, rfl, le_rfl⟩
  | succ fuel ih =>
    rw [Chr.putLoop]
    split
    · exact ⟨h, rfl, rfl, le_rfl⟩
    · next hgo =>
        obtain ⟨hnr, hfull⟩ := not_or.mp hgo
        obtain ⟨hok, hcount, hprinted, c, hpending, hlist⟩ := h.put hnr (room_of_not_full hfull)
        obtain ⟨hok', hcount', houtput, hle⟩ := ih hok
        refine ⟨hok', hcount'.trans hcount, houtput.trans ?_, hle.trans ?_⟩
        · rw [output, output, hprinted, hlist, hpending]
          simp
        · rw [hpending]
          exact le_succ _

/-- If there is anything to do and any room, then something is done. -/
theorem Writer.Ok.putLoop_lt (h : w.Ok t buf) (hnr : w.nr ≠ 0) (hfull : ¬ w.writeQ.full = true) :
    ((Chr.putLoop t buf (fuel + 1) w).pending t buf).length < (w.pending t buf).length := by
  obtain ⟨hok, -, -, c, hpending, -⟩ := h.put hnr (room_of_not_full hfull)
  rw [Chr.putLoop, if_neg (not_or.mpr ⟨hnr, hfull⟩), hpending]
  exact lt_succ_of_le hok.putLoop.2.2.2

theorem conWrite_eq (hfuel : w.writeQ.toList.length ≤ fuel) : ∃ q : Queue, q.toList = [] ∧
    conWrite fuel w = { w with writeQ := q, printed := w.printed ++ w.writeQ.toList } := by
  induction fuel generalizing w with
  | zero =>
    have hnil := length_eq_zero_iff.mp (le_zero.mp hfuel)
    exact ⟨w.writeQ, hnil, by rw [hnil, append_nil]; rfl⟩
  | succ fuel ih =>
    rw [conWrite]
    split
    · next hempty =>
        have hnil := empty_iff.mp hempty
        exact ⟨w.writeQ, hnil, by rw [hnil, append_nil]⟩
    · next hempty =>
        have hget := toList_getch (mt empty_iff.mpr hempty)
        rw [hget, length_cons] at hfuel
        obtain ⟨q, hq, hrun⟩ := @ih { w with
          writeQ := w.writeQ.getch.2, printed := w.printed ++ [w.writeQ.getch.1] }
          (le_of_succ_le_succ hfuel)
        refine ⟨q, hq, hrun.trans ?_⟩
        rw [hget, append_assoc]
        rfl

/-- The whole call: all that was pending is printed. -/
theorem Writer.Ok.writeLoop (h : w.Ok t buf) (hq : w.writeQ.toList = [])
    (hfuel : (w.pending t buf).length < fuel) :
    ∃ w', writeLoop t false buf fuel w = some w' ∧ w'.done = w.done + w.nr ∧
      w'.printed = w.printed ++ w.pending t buf ∧ w'.writeQ.empty = true ∧ w'.crFlag = false := by
  induction fuel generalizing w with
  | zero => cases hfuel
  | succ fuel ih =>
    by_cases hnr : w.nr = 0
    · refine ⟨w, by rw [Chr.writeLoop, if_pos hnr], by rw [hnr]; rfl, ?_, empty_iff.mpr hq,
        Bool.eq_false_iff.mpr fun hcr => (h hcr).1 hnr⟩
      rw [pending_of_nr hnr, append_nil]
    have hfull : ¬ w.writeQ.full = true := by
      rw [full_iff, hq]
      decide
    obtain ⟨hok, hcount, houtput, -⟩ := @putLoop t buf w ttyBufSize h
    have hless := @putLoop_lt t buf w 1023 h hnr hfull
    obtain ⟨q, hempty, hdrain⟩ := @conWrite_eq (Chr.putLoop t buf ttyBufSize w) ttyBufSize (by
      rw [length_toList]
      exact (chars_le _).trans (by decide))
    rw [Chr.writeLoop, if_neg hnr, if_neg Bool.false_ne_true, if_neg hfull, hdrain]
    obtain ⟨w', hrun, hdone, hprinted, hrest⟩ := @ih { Chr.putLoop t buf ttyBufSize w with
      writeQ := q
      printed := (Chr.putLoop t buf ttyBufSize w).printed ++
        (Chr.putLoop t buf ttyBufSize w).writeQ.toList } hok hempty
      (Nat.lt_of_lt_of_le hless (le_of_lt_succ hfuel))
    refine ⟨w', hrun, hdone.trans hcount, hprinted.trans ?_, hrest⟩
    rw [output, output, hq, append_nil] at houtput
    exact houtput

/-- With `OPOST|ONLCR` every newline is printed as carriage return and newline, and
everything else as it is, however often the queue has become full. -/
theorem tty_write_expands {channel nr : Word} (hchannel : channel ≤ 2) (hnr : 0 ≤ nr.toInt)
    (hq : w.writeQ.empty = true) (hcr : w.crFlag = false) (hfuel : 2 * nr.toNat < fuel) :
    ∃ w', ttyWrite consoleOut false channel buf nr fuel w = some (nr.toInt, w') ∧
      w'.printed = w.printed ++
        ((range nr.toNat).map buf).flatMap (fun c => if c = 10 then [13, 10] else [c]) ∧
      w'.writeQ.empty = true ∧ w'.crFlag = false := by
  set w₀ : Writer := { w with done := 0, nr := nr.toNat } with hw₀
  have hok : w₀.Ok consoleOut buf := fun h => by
    rw [show w₀.crFlag = false from hcr] at h
    cases h
  have hpending : w₀.pending consoleOut buf =
      ((range nr.toNat).map buf).flatMap fun c => if c = 10 then [13, 10] else [c] := by
    rw [Writer.pending, show w₀.crFlag = false from hcr, flatMap_map, range_eq_range']
    simp only [expand_consoleOut]
    rfl
  obtain ⟨w', hrun, hdone, hprinted, hempty, hflag⟩ := hok.writeLoop (empty_iff.mp hq)
    (length_pending_le.trans_lt hfuel)
  refine ⟨w', ?_, hprinted.trans (congrArg _ hpending), hempty, hflag⟩
  rw [ttyWrite, if_neg (not_or.mpr ⟨BitVec.not_lt.mpr hchannel, not_lt.mpr hnr⟩), ← hw₀, hrun,
    Option.map_some, hdone, Nat.zero_add, BitVec.toInt_eq_toNat_of_lt]
  rw [BitVec.toInt_eq_toNat_cond] at hnr
  split at hnr
  · assumption
  · omega

end

/-- The bytes `a`, newline, `b`. -/
theorem tty_write_expands_line : ∃ w', ttyWrite consoleOut false 0 (fun i => [0x61, 10, 0x62].getD i 0)
      3 7 ⟨⟨0, 0, 0, fun _ => 0⟩, false, [], 0, 0⟩ = some (3, w') ∧
    w'.printed = [0x61, 13, 10, 0x62] := by
  obtain ⟨w', hrun, hprinted, -⟩ := @tty_write_expands (fun i => [0x61, 10, 0x62].getD i 0)
    ⟨⟨0, 0, 0, fun _ => 0⟩, false, [], 0, 0⟩ 7 0 3 (by decide) (by decide) (by decide) rfl (by decide)
  exact ⟨w', hrun, hprinted.trans (by decide)⟩

end LinuxRv.Chr
