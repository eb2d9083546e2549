import LinuxRv.Lib.ByteMemory
import LinuxRv.Lib.Ring

/-!
Input of the console: `con_poll` (`kernel/chr_drv/console.c`), `copy_to_cooked` and
the reading part of `tty_read` (`kernel/chr_drv/tty_io.c`).

A character goes from the UART to `read_q`, from there through the line
discipline to `secondary`, and from there to a reader. What is echoed is put in
`write_q` and printed at once, so here it is a list of what was printed. Indices
of a queue are kept below 1024 by the masks of `INC`, `DEC` and `LEFT`.
-/

namespace LinuxRv.Chr

open ByteMemory Function

/-! ### Queues (`include/linux/tty.h`) -/

def ttyBufSize : ℕ := 1024

instance : NeZero ttyBufSize := ⟨by decide⟩

structure Queue where
  data : Word
  head : Fin ttyBufSize
  tail : Fin ttyBufSize
  buf : ℕ → Byte

namespace Queue

def empty (q : Queue) : Bool := q.head = q.tail

def left (q : Queue) : ℕ := (q.tail - q.head - 1).val

def full (q : Queue) : Bool := q.left = 0

def chars (q : Queue) : ℕ := (q.head - q.tail).val

def last (q : Queue) : Byte := q.buf (q.head - 1).val

def getch (q : Queue) : Byte × Queue := (q.buf q.tail.val, { q with tail := q.tail + 1 })

def putch (c : Byte) (q : Queue) : Queue :=
  { q with buf := update q.buf q.head.val c, head := q.head + 1 }

/-- `DEC(queue.head)`. -/
def decHead (q : Queue) : Queue := { q with head := q.head - 1 }

end Queue

/-! ### The source -/

/-- The flags and characters of `struct termios` that input depends on. -/
structure Termios where
  icrnl : Bool
  igncr : Bool
  inlcr : Bool
  iuclc : Bool
  icanon : Bool
  isig : Bool
  echo : Bool
  echoe : Bool
  echoctl : Bool
  intrChar : Byte
  quitChar : Byte
  eraseChar : Byte
  killChar : Byte
  eofChar : Byte
  startChar : Byte
  stopChar : Byte

/-- The entry of the console in `tty_table`, with `INIT_C_CC`. -/
def consoleTermios : Termios where
  icrnl := true
  igncr := false
  inlcr := false
  iuclc := false
  icanon := true
  isig := true
  echo := true
  echoe := true
  echoctl := true
  intrChar := 0o003
  quitChar := 0o034
  eraseChar := 0o177
  killChar := 0o025
  eofChar := 0o004
  startChar := 0o021
  stopChar := 0o023

structure Tty where
  termios : Termios
  pgrp : Word
  stopped : Bool
  readQ : Queue
  secondary : Queue
  /-- What has been printed. -/
  printed : List Byte
  /-- The signals that `tty_intr` has sent to the tasks of the group `pgrp`. -/
  sent : Word

def intMask : Word := 1 <<< 1
def quitMask : Word := 1 <<< 2

def ttyIntr (mask : Word) (tty : Tty) : Tty :=
  if tty.pgrp.toInt ≤ 0 then tty else { tty with sent := tty.sent ||| mask }

/-- A `signed char` compared with an `unsigned char`. -/
def isCc (c cc : Byte) : Bool := c.toInt = cc.toNat

def tolower (c : Byte) : Byte := if 0x41 ≤ c ∧ c ≤ 0x5a then c + 0x20 else c

/-- Carriage returns and case; `none` for a character that is ignored. -/
def mapInput (t : Termios) (c : Byte) : Option Byte :=
  let c' : Option Byte :=
    if c = 13 then (if t.icrnl then some 10 else if t.igncr then none else some c)
    else if c = 10 ∧ t.inlcr then some 13 else some c
  c'.map fun c => if t.iuclc then tolower c else c

/-- `(c=LAST(tty->secondary))==10 || c==EOF_CHAR(tty)`. -/
def atLineStart (t : Termios) (q : Queue) : Bool :=
  q.empty || q.last = 10 || isCc q.last t.eofChar

/-- What erasing `c` prints. -/
def echoErase (t : Termios) (c : Byte) : List Byte :=
  if t.echoe then [8, 32, 8] ++ if c.toInt < 32 then [8, 32, 8] else []
  else (if c.toInt < 32 then [127] else []) ++ [127]

/-- The loop that kills the line. -/
def killLine : ℕ → Tty → Tty
  | 0, tty => tty
  | fuel + 1, tty =>
    if atLineStart tty.termios tty.secondary then tty
    else
      let c := tty.secondary.last
      killLine fuel { tty with
        printed := tty.printed ++
          if tty.termios.echo then (if c.toInt < 32 then [127] else []) ++ [127] else []
        secondary := tty.secondary.decHead }

def eraseLast (tty : Tty) : Tty :=
  if atLineStart tty.termios tty.secondary then tty
  else
    { tty with
      printed := tty.printed ++
        if tty.termios.echo then echoErase tty.termios tty.secondary.last else []
      secondary := tty.secondary.decHead }

/-- What a character that is taken in prints. -/
def echoChar (t : Termios) (c : Byte) : List Byte :=
  if c = 10 then [10, 13]
  else if c.toInt < 32 then (if t.echoctl then [0x5e, c + 64] else [])
  else [c]

/-- The end of the loop of `copy_to_cooked`. -/
def takeIn (c : Byte) (tty : Tty) : Tty :=
  let q := tty.secondary
  let q := if c = 10 ∨ isCc c tty.termios.eofChar then { q with data := q.data + 1 } else q
  { tty with
    printed := tty.printed ++ if tty.termios.echo then echoChar tty.termios c else []
    secondary := q.putch c }

/-- What `copy_to_cooked` does with one character. -/
def cookChar (c : Byte) (tty : Tty) : Tty :=
  let t := tty.termios
  match mapInput t c with
  | none => tty
  | some c =>
    if t.icanon ∧ isCc c t.killChar then killLine ttyBufSize tty
    else if t.icanon ∧ (isCc c t.eraseChar ∨ c = 8) then eraseLast tty
    else if t.icanon ∧ isCc c t.stopChar then { tty with stopped := true }
    else if t.icanon ∧ isCc c t.startChar then { tty with stopped := false }
    else if t.isig ∧ isCc c t.intrChar then ttyIntr intMask tty
    else if t.isig ∧ isCc c t.quitChar then ttyIntr quitMask tty
    else takeIn c tty

/-- `while (!EMPTY(tty->read_q) && !FULL(tty->secondary))`. -/
def cookLoop : ℕ → Tty → Tty
  | 0, tty => tty
  | fuel + 1, tty =>
    if tty.readQ.empty ∨ tty.secondary.full then tty
    else cookLoop fuel (cookChar tty.readQ.getch.1 { tty with readQ := tty.readQ.getch.2 })

def copyToCooked (tty : Tty) : Tty := cookLoop ttyBufSize tty

/-- `if (!FULL(tty->read_q)) PUTCH(c, tty->read_q)`. -/
def receive (tty : Tty) (c : Byte) : Tty :=
  if tty.readQ.full then tty else { tty with readQ := tty.readQ.putch c }

/-- `con_poll`, when the UART has the characters `bytes`. -/
def conPoll (bytes : List Byte) (tty : Tty) : Tty :=
  let tty := bytes.foldl receive tty
  if tty.readQ.empty then tty else copyToCooked tty

/-- Whether `tty_read` has to wait. -/
def mustWait (tty : Tty) : Bool :=
  tty.secondary.empty ||
    (tty.termios.icanon && tty.secondary.data = 0 && decide (20 < tty.secondary.left))

/-- The test of its polling loop. -/
def hasInput (tty : Tty) : Bool :=
  !tty.secondary.empty && (!tty.termios.icanon || tty.secondary.data ≠ 0)

/-- The loop of `tty_read` that takes characters for the reader. -/
def takeLoop : ℕ → Tty → List Byte × Tty
  | 0, tty => ([], tty)
  | nr + 1, tty =>
    let t := tty.termios
    let (c, q) := tty.secondary.getch
    let q := if c = t.eofChar ∨ c = 10 then { q with data := q.data - 1 } else q
    let tty := { tty with secondary := q }
    if c = t.eofChar ∧ t.icanon then ([], tty)
    else if q.empty then ([c], tty)
    else
      let (rest, tty) := takeLoop nr tty
      (c :: rest, tty)

/-! ### Queues as lists -/

namespace Queue

/-- What is in the queue, oldest first. -/
def toList (q : Queue) : List Byte := Ring.contents ttyBufSize q.buf q.tail.val q.chars

variable {q : Queue} {c : Byte}

@[simp] theorem length_toList (q : Queue) : q.toList.length = q.chars := Ring.length_contents

theorem chars_eq (q : Queue) : q.chars = (1024 - q.tail.val + q.head.val) % 1024 := by
  rw [chars, Fin.val_sub]
  rfl

theorem left_eq (q : Queue) : q.left = 1023 - q.chars := by
  have hh := q.head.isLt
  have ht := q.tail.isLt
  rw [chars_eq, left, Fin.val_sub, Fin.val_sub]
  simp only [ttyBufSize] at *
  change (1024 - 1 % 1024 + (1024 - q.head.val + q.tail.val) % 1024) % 1024 = _
  omega

theorem chars_le (q : Queue) : q.chars ≤ 1023 := by
  rw [chars_eq]
  omega

theorem toList_eq_nil : q.toList = [] ↔ q.head = q.tail := by
  have hh := q.head.isLt
  have ht := q.tail.isLt
  rw [← List.length_eq_zero_iff, length_toList, chars_eq, Fin.ext_iff]
  simp only [ttyBufSize] at *
  omega

theorem empty_iff : q.empty = true ↔ q.toList = [] := by
  rw [toList_eq_nil, empty, decide_eq_true_eq]

theorem full_iff : q.full = true ↔ q.toList.length = 1023 := by
  have hle := q.chars_le
  rw [full, left_eq, length_toList, decide_eq_true_eq]
  omega

/-- The place behind the last character. -/
theorem tail_add_chars (q : Queue) : (q.tail.val + q.chars) % ttyBufSize = q.head.val := by
  have hh := q.head.isLt
  have ht := q.tail.isLt
  rw [chars_eq]
  simp only [ttyBufSize] at *
  omega

theorem toList_putch (h : q.toList.length < 1023) : (q.putch c).toList = q.toList ++ [c] := by
  have hh := q.head.isLt
  have ht := q.tail.isLt
  rw [length_toList] at h
  have hchars : (q.putch c).chars = q.chars + 1 := by
    have hval : (q.head + 1).val = (q.head.val + 1) % 1024 := by
      rw [Fin.val_add]
      rfl
    rw [chars_eq] at h ⊢
    change (1024 - q.tail.val + (q.head + 1).val) % 1024 = _
    rw [hval, chars_eq]
    simp only [ttyBufSize] at *
    omega
  have hstore : (q.putch c).buf = Ring.store q.buf q.head.val [c] := by
    funext i
    change update q.buf q.head.val c i = _
    rcases lt_trichotomy i q.head.val with hlt | rfl | hgt
    · rw [update_of_ne hlt.ne, Ring.store_of_outside (.inl hlt)]
    · rw [update_self]
      exact (Ring.store_of_lt (l := [c]) (i := 0) Nat.one_pos).symm
    · rw [update_of_ne hgt.ne', Ring.store_of_outside (.inr hgt)]
  rw [toList, hchars, hstore]
  refine Ring.contents_store (l := [c]) q.tail_add_chars ?_ ?_
  · exact hh
  · simp only [ttyBufSize, List.length_singleton]
    omega

/-- A queue that is not empty: its first character is the one `GETCH` takes. -/
theorem toList_getch (h : q.toList ≠ []) : q.toList = q.getch.1 :: q.getch.2.toList := by
  have hh := q.head.isLt
  have ht := q.tail.isLt
  have hpos : q.chars ≠ 0 := by
    rwa [← length_toList, ne_eq, List.length_eq_zero_iff]
  have hchars : q.getch.2.chars + 1 = q.chars := by
    have hval : (q.tail + 1).val = (q.tail.val + 1) % 1024 := by
      rw [Fin.val_add]
      rfl
    rw [chars_eq] at hpos ⊢
    change (1024 - (q.tail + 1).val + q.head.val) % 1024 + 1 = _
    rw [hval, chars_eq]
    simp only [ttyBufSize] at *
    omega
  have hval : q.getch.2.tail.val = (q.tail.val + 1) % ttyBufSize := by
    change (q.tail + 1).val = _
    rw [Fin.val_add]
    rfl
  rw [toList, ← hchars, Ring.contents_succ', Nat.mod_eq_of_lt ht, toList, hval, Ring.contents_mod]
  rfl

/-- Its last character is `LAST`, and `DEC(head)` takes it away. -/
theorem toList_decHead (h : q.toList ≠ []) : q.toList = q.decHead.toList ++ [q.last] := by
  have hh := q.head.isLt
  have ht := q.tail.isLt
  have hpos : q.chars ≠ 0 := by
    rwa [← length_toList, ne_eq, List.length_eq_zero_iff]
  have hval : (q.head - 1).val = (1023 + q.head.val) % 1024 := by
    rw [Fin.val_sub]
    rfl
  have hchars : q.decHead.chars + 1 = q.chars := by
    rw [chars_eq] at hpos ⊢
    change (1024 - q.tail.val + (q.head - 1).val) % 1024 + 1 = _
    rw [hval, chars_eq]
    simp only [ttyBufSize] at *
    omega
  have hplace : (q.tail.val + q.decHead.chars) % ttyBufSize = (q.head - 1).val :=
    q.decHead.tail_add_chars
  rw [toList, ← hchars, Ring.contents_succ, hplace]
  rfl

end Queue

end LinuxRv.Chr
