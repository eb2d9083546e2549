import LinuxRv.Lib.ByteMemory
import Mathlib.Data.Nat.Digits.Lemmas

/-!
`vsprintf` (`kernel/vsprintf.c`).

The format is the list of its characters in front of the NUL. The arguments are
machine words, taken from a list by `va_arg`; a call that takes more than there
are has no result. What the call writes is the text in the buffer, and the
numbers that `%n` stores. An `int` is an integer between -2³¹ and 2³¹, and
arithmetic on it wraps around.
-/

namespace LinuxRv.Kernel.Vsprintf

open ByteMemory List

def chr (c : Char) : Byte := .ofNat 8 c.toNat

/-- An `int`. -/
def int (n : ℤ) : ℤ := n.bmod (2 ^ 32)

theorem int_of_small {n : ℤ} (hlo : -2 ^ 31 ≤ n) (hhi : n < 2 ^ 31) : int n = n :=
  Int.bmod_eq_of_le (by omega) (by omega)

/-- The strings in memory. None is as long as a quarter of the address space. -/
structure Strings where
  at_ : Word → List Byte
  nonzero : ∀ p, ∀ c ∈ at_ p, c ≠ 0
  length_lt : ∀ p, (at_ p).length < 2 ^ 30

/-! ### Numbers -/

structure Flags where
  zeropad : Bool
  sign : Bool
  plus : Bool
  space : Bool
  left : Bool
  special : Bool
  small : Bool

def noFlags : Flags := ⟨false, false, false, false, false, false, false⟩

/-- `digits[d]`. -/
def digit (small : Bool) (d : ℕ) : Byte :=
  if d < 10 then chr '0' + .ofNat 8 d
  else (if small then chr 'a' else chr 'A') + .ofNat 8 (d - 10)

/-- `while (num!=0) tmp[i++]=digits[do_div(num,base)]`; a word has at most 32 digits. -/
def divLoop (small : Bool) (base : ℕ) : ℕ → Word → List Byte
  | 0, _ => []
  | fuel + 1, num =>
    if num = 0 then []
    else digit small (num.toNat % base) :: divLoop small base fuel (.ofNat 32 (num.toNat / base))

/-- `while (size-->0) *str++ = c`: what is written, and `size` after the loop. -/
def padLoop (c : Byte) (size : ℤ) : List Byte × ℤ :=
  (replicate size.toNat c, int (min size 0 - 1))

/-- The sign, if there is one. -/
def signChar (type : Flags) (num : Word) : List Byte :=
  if type.sign ∧ num.toInt < 0 then [chr '-']
  else if type.plus then [chr '+'] else if type.space then [chr ' '] else []

/-- What is left of `size` beside the prefix. -/
def specialSize (type : Flags) (base : ℕ) (size : ℤ) : ℤ :=
  if type.special then
    (if base = 16 then int (size - 2) else if base = 8 then int (size - 1) else size)
  else size

def specialChars (type : Flags) (base : ℕ) : List Byte :=
  if type.special then
    (if base = 8 then [chr '0']
    else if base = 16 then [chr '0', digit type.small 33] else [])
  else []

/-- The loops at the end of `number`; `size` is what is left beside the digits, and
`tmp` has the digits from the last to the first. -/
def writeNumber (type : Flags) (size precision : ℤ) (sign special tmp : List Byte) : List Byte :=
  let c := if type.zeropad then chr '0' else chr ' '
  let blanks := if !type.zeropad && !type.left then padLoop (chr ' ') size else ([], size)
  let fill := if !type.left then padLoop c blanks.2 else ([], blanks.2)
  let zeros := replicate (precision - tmp.length).toNat (chr '0')
  blanks.1 ++ sign ++ special ++ fill.1 ++ zeros ++ tmp.reverse ++ (padLoop (chr ' ') fill.2).1

/-- What `number` writes. Its callers use the bases 8, 10 and 16. -/
def number (num : Word) (base : ℕ) (size precision : ℤ) (type : Flags) : List Byte :=
  let type := if type.left then { type with zeropad := false } else type
  let sign := signChar type num
  let num := if type.sign ∧ num.toInt < 0 then -num else num
  let size := if sign ≠ [] then int (size - 1) else size
  let size := specialSize type base size
  let tmp := if num = 0 then [chr '0'] else divLoop type.small base 32 num
  let precision := if tmp.length > precision then (tmp.length : ℤ) else precision
  writeNumber type (int (size - precision)) precision sign (specialChars type base) tmp

/-! ### The scanner -/

def isDigit (c : Byte) : Bool := chr '0' ≤ c ∧ c ≤ chr '9'

/-- The switch at `repeat:`, after the `%`. -/
def scanFlags : Flags → List Byte → Flags × List Byte
  | flags, [] => (flags, [])
  | flags, c :: fmt =>
    if c = chr '-' then scanFlags { flags with left := true } fmt
    else if c = chr '+' then scanFlags { flags with plus := true } fmt
    else if c = chr ' ' then scanFlags { flags with space := true } fmt
    else if c = chr '#' then scanFlags { flags with special := true } fmt
    else if c = chr '0' then scanFlags { flags with zeropad := true } fmt
    else (flags, c :: fmt)

/-- `skip_atoi`, with `i` so far. -/
def skipAtoi : ℤ → List Byte → ℤ × List Byte
  | i, [] => (i, [])
  | i, c :: fmt =>
    if isDigit c then skipAtoi (int (i * 10 + c.toNat - (chr '0').toNat)) fmt else (i, c :: fmt)

def vaArg : List Word → Option (Word × List Word)
  | [] => none
  | a :: args => some (a, args)

/-- The field width. `fmt` is not moved past a `*`. -/
def scanWidth (flags : Flags) (fmt : List Byte) (args : List Word) :
    Option (Flags × ℤ × List Byte × List Word) :=
  if fmt.head?.any isDigit then
    let (width, fmt) := skipAtoi 0 fmt
    some (flags, width, fmt, args)
  else if fmt.head? = some (chr '*') then
    (vaArg args).map fun (a, args) =>
      if a.toInt < 0 then ({ flags with left := true }, int (-a.toInt), fmt, args)
      else (flags, a.toInt, fmt, args)
  else some (flags, -1, fmt, args)

/-- What follows the dot. Here, too, a `*` stays in front of `fmt`. -/
def scanDot (fmt : List Byte) (args : List Word) : Option (ℤ × List Byte × List Word) :=
  if fmt.head?.any isDigit then
    let (precision, fmt) := skipAtoi 0 fmt
    some (precision, fmt, args)
  else if fmt.head? = some (chr '*') then
    (vaArg args).map fun (a, args) => (a.toInt, fmt, args)
  else some (-1, fmt, args)

/-- The precision. -/
def scanPrecision (fmt : List Byte) (args : List Word) : Option (ℤ × List Byte × List Word) :=
  if fmt.head? = some (chr '.') then
    (scanDot fmt.tail args).map fun (precision, fmt, args) =>
      (if precision < 0 then 0 else precision, fmt, args)
  else some (-1, fmt, args)

def scanQualifier (fmt : List Byte) : List Byte :=
  if fmt.head?.any fun c => c = chr 'h' || c = chr 'l' || c = chr 'L' then fmt.tail else fmt

/-! ### Conversions -/

/-- What has been written, the arguments that are left, and the stores of `%n`. -/
structure Output where
  str : List Byte
  args : List Word
  stores : List (Word × Word)

def Output.put (out : Output) (s : List Byte) : Output := { out with str := out.str ++ s }

/-- `va_arg`, and what is written for the argument. -/
def Output.putArg (out : Output) (body : Word → List Byte) : Option Output := do
  let (a, args) ← vaArg out.args
  some ({ out with args := args }.put (body a))

/-- `case 'c'`: both loops count the width down before they test it. -/
def putChar (flags : Flags) (width : ℤ) (c : Byte) : List Byte :=
  let (before, width) :=
    if !flags.left then
      (replicate (int (width - 1)).toNat (chr ' '), min (int (width - 1)) 0)
    else ([], width)
  before ++ [c] ++ replicate (int (width - 1)).toNat (chr ' ')

/-- `case 's'`: both loops count the width down after they test it. -/
def putString (flags : Flags) (width precision : ℤ) (s : List Byte) : List Byte :=
  let len : ℤ := if precision < 0 then s.length else min s.length precision
  let (before, width) :=
    if !flags.left then
      (replicate (width - len).toNat (chr ' '), int (min width len - 1))
    else ([], width)
  before ++ s.take len.toNat ++ replicate (width - len).toNat (chr ' ')

/-- `switch (*fmt)` for a character. -/
def convertChar (mem : Strings) (flags : Flags) (width precision : ℤ) (out : Output) (c : Byte) :
    Option Output :=
  if c = chr 'c' then out.putArg fun a => putChar flags width (a.setWidth 8)
  else if c = chr 's' then out.putArg fun a => putString flags width precision (mem.at_ a)
  else if c = chr 'o' then out.putArg fun a => number a 8 width precision flags
  else if c = chr 'p' then
    if width = -1 then
      out.putArg fun a => number a 16 8 precision { flags with zeropad := true }
    else out.putArg fun a => number a 16 width precision flags
  else if c = chr 'x' then
    out.putArg fun a => number a 16 width precision { flags with small := true }
  else if c = chr 'X' then out.putArg fun a => number a 16 width precision flags
  else if c = chr 'd' ∨ c = chr 'i' then
    out.putArg fun a => number a 10 width precision { flags with sign := true }
  else if c = chr 'u' then out.putArg fun a => number a 10 width precision flags
  else if c = chr 'n' then do
    let (a, args) ← vaArg out.args
    some { out with
      args := args, stores := out.stores ++ [(a, .ofNat 32 out.str.length)] }
  else some (out.put (if c ≠ chr '%' then [chr '%', c] else [c]))

/-- `switch (*fmt)` and `++fmt`: what is written, and what is left of the format. -/
def convert (mem : Strings) (flags : Flags) (width precision : ℤ) (out : Output) :
    List Byte → Option (Output × List Byte)
  -- the NUL: `--fmt` lets the loop see it again
  | [] => some (out.put [chr '%'], [])
  | c :: fmt => (convertChar mem flags width precision out c).map fun out => (out, fmt)

/-- A directive, after its `%`. -/
def directive (mem : Strings) (fmt : List Byte) (out : Output) : Option (Output × List Byte) := do
  let (flags, fmt) := scanFlags noFlags fmt
  let (flags, width, fmt, args) ← scanWidth flags fmt out.args
  let (precision, fmt, args) ← scanPrecision fmt args
  convert mem flags width precision { out with args := args } (scanQualifier fmt)

/-- `for (str=buf ; *fmt ; ++fmt)`. -/
def loop (mem : Strings) : ℕ → List Byte → Output → Option Output
  | 0, _, _ => none
  | _ + 1, [], out => some out
  | fuel + 1, c :: fmt, out =>
    if c ≠ chr '%' then loop mem fuel fmt (out.put [c])
    else do
      let (out, fmt) ← directive mem fmt out
      loop mem fuel fmt out

/-- The call: what it writes, and its result. -/
def vsprintf (mem : Strings) (fmt : List Byte) (args : List Word) : Option (Output × Word) := do
  let out ← loop mem (fmt.length + 1) fmt ⟨[], args, []⟩
  some (out, .ofNat 32 out.str.length)

end LinuxRv.Kernel.Vsprintf
