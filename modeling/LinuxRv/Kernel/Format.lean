import LinuxRv.Kernel.Vsprintf

/-!
The format language of `vsprintf`.

A format is a list of literal characters and directives. The reference formatter
takes one directive after the other: every `*` and every conversion takes one
argument (`%%` none), and a directive writes what its flags, width and precision
say. `vsprintf` agrees with it on every format without `*`.
-/

namespace LinuxRv.Kernel.Vsprintf

open ByteMemory List Option Nat

/-! ### Formats -/

inductive Flag
  | minus | plus | space | hash | zero
  deriving DecidableEq

def Flag.char : Flag → Byte
  | minus => chr '-'
  | plus => chr '+'
  | space => chr ' '
  | hash => chr '#'
  | zero => chr '0'

/-- A width or a precision. -/
inductive Amount
  | absent
  | number (d : Fin 10) (ds : List (Fin 10))
  | star

inductive Qualifier
  | h | l | L

inductive Conv
  | c | s | o | p | x | X | d | i | u | n | percent

/-- A directive. A width does not start with a zero, which would be a flag. -/
structure Directive where
  flags : List Flag
  width : Amount
  width_ne_zero : ∀ ds, width ≠ .number 0 ds
  precision : Option Amount
  qualifier : Option Qualifier
  conv : Conv

inductive Piece
  | literal (c : Byte) (hc : c ≠ 0 ∧ c ≠ chr '%')
  | directive (d : Directive)

def digitChar (d : Fin 10) : Byte := chr '0' + .ofNat 8 d

def Amount.text : Amount → List Byte
  | absent => []
  | number d ds => digitChar d :: ds.map digitChar
  | star => [chr '*']

def Qualifier.char : Qualifier → Byte
  | h => chr 'h'
  | l => chr 'l'
  | L => chr 'L'

def Conv.char : Conv → Byte
  | c => chr 'c'
  | s => chr 's'
  | o => chr 'o'
  | p => chr 'p'
  | x => chr 'x'
  | X => chr 'X'
  | d => chr 'd'
  | i => chr 'i'
  | u => chr 'u'
  | n => chr 'n'
  | percent => chr '%'

namespace Directive

def precisionText (d : Directive) : List Byte :=
  match d.precision with
  | none => []
  | some p => chr '.' :: p.text

def convText (d : Directive) : List Byte := (d.qualifier.map Qualifier.char).toList ++ [d.conv.char]

def text (d : Directive) : List Byte :=
  chr '%' :: (d.flags.map Flag.char ++ d.width.text ++ d.precisionText ++ d.convText)

end Directive

def Piece.text : Piece → List Byte
  | .literal c _ => [c]
  | .directive d => d.text

def text (fmt : List Piece) : List Byte := fmt.flatMap Piece.text

/-! ### The reference formatter -/

def appendDigit (n : ℕ) (d : Fin 10) : ℕ := n * 10 + d.val

/-- A number in decimal. -/
def value (ds : List (Fin 10)) : ℕ := ds.foldl appendDigit 0

/-- `body` in a field of at least `width` characters. -/
def field (left : Bool) (width : ℕ) (body : List Byte) : List Byte :=
  let blanks := replicate (width - body.length) (chr ' ')
  if left then body ++ blanks else blanks ++ body

/-- At least `n` digits. -/
def zeroFill (n : ℕ) (digits : List Byte) : List Byte :=
  replicate (n - digits.length) (chr '0') ++ digits

def numeral (small : Bool) (base n : ℕ) : List Byte :=
  if n = 0 then [chr '0'] else ((digits base n).map (digit small)).reverse

/-- A number: sign, prefix, digits. -/
def formatNumber (flags : Flags) (base width precision : ℕ) (a : Word) : List Byte :=
  let sign :=
    if flags.sign ∧ a.toInt < 0 then [chr '-']
    else if flags.plus then [chr '+'] else if flags.space then [chr ' '] else []
  let magnitude := if flags.sign then a.toInt.natAbs else a.toNat
  let special :=
    if flags.special then
      (if base = 8 then [chr '0']
      else if base = 16 then [chr '0', if flags.small then chr 'x' else chr 'X'] else [])
    else []
  let digits := zeroFill precision (numeral flags.small base magnitude)
  if flags.left then field true width (sign ++ special ++ digits)
  else if flags.zeropad then
    sign ++ special ++ zeroFill (width - (sign ++ special).length) digits
  else field false width (sign ++ special ++ digits)

/-- What a width or a precision says; a `*` takes an argument. -/
def Amount.get : Amount → List Word → Option (Option ℤ × List Word)
  | absent, args => some (none, args)
  | number d ds, args => some (some (value (d :: ds)), args)
  | star, args => do
      let (a, args) ← vaArg args
      some (some a.toInt, args)

namespace Directive

def flagSet (d : Directive) : Flags where
  zeropad := .zero ∈ d.flags
  sign := false
  plus := .plus ∈ d.flags
  space := .space ∈ d.flags
  left := .minus ∈ d.flags
  special := .hash ∈ d.flags
  small := false

/-- The precision, if there is a dot: 0 if nothing follows it, or a negative number. -/
def getPrecision (d : Directive) (args : List Word) : Option (Option ℕ × List Word) :=
  match d.precision with
  | none => some (none, args)
  | some p => do
      let (p, args) ← p.get args
      some (some (p.getD 0).toNat, args)

end Directive

/-- The conversion, which takes one argument. -/
def Conv.apply (mem : Strings) (flags : Flags) (width precision : Option ℕ) (out : Output)
    (conv : Conv) : Option Output :=
  let width' := width.getD 0
  match conv with
  | .c => out.putArg fun a => field flags.left width' [a.setWidth 8]
  | .s => out.putArg fun a =>
    field flags.left width' ((mem.at_ a).take (precision.getD (mem.at_ a).length))
  | .o => out.putArg (formatNumber flags 8 width' (precision.getD 0))
  | .p =>
    match width with
    | none => out.putArg (formatNumber { flags with zeropad := true } 16 8 (precision.getD 0))
    | some width => out.putArg (formatNumber flags 16 width (precision.getD 0))
  | .x => out.putArg (formatNumber { flags with small := true } 16 width' (precision.getD 0))
  | .X => out.putArg (formatNumber flags 16 width' (precision.getD 0))
  | .d => out.putArg (formatNumber { flags with sign := true } 10 width' (precision.getD 0))
  | .i => out.putArg (formatNumber { flags with sign := true } 10 width' (precision.getD 0))
  | .u => out.putArg (formatNumber flags 10 width' (precision.getD 0))
  | .n => do
      let (a, args) ← vaArg out.args
      some { out with
        args := args, stores := out.stores ++ [(a, .ofNat 32 out.str.length)] }
  | .percent => some (out.put [chr '%'])

/-- A directive: a negative width justifies to the left. -/
def Directive.format (mem : Strings) (d : Directive) (out : Output) : Option Output := do
  let (width, args) ← d.width.get out.args
  let (precision, args) ← d.getPrecision args
  let flags := { d.flagSet with left := d.flagSet.left || width.any (· < 0) }
  d.conv.apply mem flags (width.map Int.natAbs) precision { out with args := args }

def Piece.format (mem : Strings) (out : Output) : Piece → Option Output
  | .literal c _ => some (out.put [c])
  | .directive d => d.format mem out

/-- The reference: piece by piece. -/
def format (mem : Strings) (fmt : List Piece) (args : List Word) : Option (Output × Word) := do
  let out ← fmt.foldlM (Piece.format mem) ⟨[], args, []⟩
  some (out, .ofNat 32 out.str.length)

/-! ### Numbers -/

section

variable {base fuel : ℕ} {num : Word}

theorem divLoop_eq (small : Bool) (hbase : 2 ≤ base) (hfuel : num.toNat < 2 ^ fuel) :
    divLoop small base fuel num = (digits base num.toNat).map (digit small) := by
  induction fuel generalizing num with
  | zero =>
    have hzero : num.toNat = 0 := by omega
    rw [divLoop, hzero, digits_zero, map_nil]
  | succ fuel ih =>
    rw [divLoop]
    by_cases hnum : num = 0
    · rw [if_pos hnum, hnum]
      simp
    · have hpos : 0 < num.toNat := by
        rw [Nat.pos_iff_ne_zero]
        exact fun h => hnum (BitVec.eq_of_toNat_eq h)
      have hdiv : num.toNat / base ≤ num.toNat / 2 := div_le_div_left hbase (by decide)
      have hlt : num.toNat / base < 2 ^ 32 := by
        have hnum := num.isLt
        omega
      have hquot : (BitVec.ofNat 32 (num.toNat / base)).toNat = num.toNat / base := by
        rw [BitVec.toNat_ofNat, mod_eq_of_lt hlt]
      rw [if_neg hnum, ih (by rw [hquot]; omega), hquot, digits_def' hbase hpos, map_cons]

/-- The digits that `number` collects. -/
theorem reverse_tmp (small : Bool) (hbase : 2 ≤ base) (num : Word) :
    (if num = 0 then [chr '0'] else divLoop small base 32 num).reverse =
      numeral small base num.toNat := by
  rw [numeral, divLoop_eq small hbase num.isLt]
  by_cases hnum : num = 0
  · rw [if_pos hnum, if_pos (by rw [hnum]; rfl)]
    rfl
  · have hne : num.toNat ≠ 0 := fun h => hnum (BitVec.eq_of_toNat_eq h)
    rw [if_neg hnum, if_neg hne]

/-- The number that is printed behind the sign. -/
theorem toNat_magnitude (signed : Bool) (a : Word) :
    (if signed = true ∧ a.toInt < 0 then -a else a).toNat =
      if signed then a.toInt.natAbs else a.toNat := by
  have hlt := a.isLt
  have hint := a.toInt_eq_toNat_cond
  cases signed with
  | false => simp
  | true =>
    simp only [true_and, if_true]
    by_cases hneg : a.toInt < 0
    · rw [if_pos hneg, BitVec.toNat_neg]
      split at hint <;> omega
    · rw [if_neg hneg]
      split at hint <;> omega

/-- The loops of `number` write one of three layouts. -/
theorem writeNumber_eq (flags : Flags) {size precision : ℤ} (sign special tmp : List Byte)
    (hlo : -2 ^ 31 + 3 ≤ size) (hhi : size < 2 ^ 31) :
    writeNumber flags size precision sign special tmp =
      let digits := replicate (precision - tmp.length).toNat (chr '0') ++ tmp.reverse
      if flags.left then sign ++ special ++ digits ++ replicate size.toNat (chr ' ')
      else if flags.zeropad then
        sign ++ special ++ replicate size.toNat (chr '0') ++ digits
      else replicate size.toNat (chr ' ') ++ sign ++ special ++ digits := by
  have hneg : (int (min size 0 - 1)).toNat = 0 := by
    rw [int_of_small (by omega) (by omega)]
    omega
  have hneg' : (int (min (int (min size 0 - 1)) 0 - 1)).toNat = 0 := by
    rw [int_of_small (n := min size 0 - 1) (by omega) (by omega),
      int_of_small (by omega) (by omega)]
    omega
  cases hleft : flags.left <;> cases hzero : flags.zeropad <;>
    simp [writeNumber, padLoop, hleft, hzero, hneg, hneg', -replicate_append_replicate]

theorem length_divLoop_le (small : Bool) (base fuel : ℕ) (num : Word) :
    (divLoop small base fuel num).length ≤ fuel := by
  induction fuel generalizing num with
  | zero => exact le_rfl
  | succ fuel ih =>
    rw [divLoop]
    split
    · exact zero_le _
    · exact succ_le_succ (ih _)

theorem length_signChar_le (flags : Flags) (a : Word) : (signChar flags a).length ≤ 1 := by
  rw [signChar]
  split_ifs <;> simp

/-- The prefix takes its own length from the size. -/
theorem specialSize_eq (flags : Flags) (base : ℕ) {size : ℤ} (hlo : -2 ^ 31 + 2 ≤ size)
    (hhi : size < 2 ^ 31) : specialSize flags base size = size - (specialChars flags base).length ∧
      (specialChars flags base).length ≤ 2 := by
  rw [specialSize, specialChars]
  by_cases hspecial : flags.special = true
  · simp only [if_pos hspecial]
    by_cases hhex : base = 16
    · subst hhex
      simp [int_of_small (n := size - 2) (by omega) (by omega)]
    · by_cases hoct : base = 8
      · subst hoct
        simp [int_of_small (n := size - 1) (by omega) (by omega)]
      · simp [hhex, hoct]
  · simp [hspecial]

/-- The three layouts, with what is left of the width. -/
theorem formatNumber_eq (flags : Flags) (base width precision : ℕ) (a : Word) :
    let sign := signChar flags a
    let special := specialChars flags base
    let digits := zeroFill precision
      (numeral flags.small base (if flags.sign then a.toInt.natAbs else a.toNat))
    let rest := width - sign.length - special.length - digits.length
    formatNumber flags base width precision a =
      if flags.left then sign ++ special ++ digits ++ replicate rest (chr ' ')
      else if flags.zeropad then sign ++ special ++ replicate rest (chr '0') ++ digits
      else replicate rest (chr ' ') ++ sign ++ special ++ digits := by
  intro sign special digits rest
  have hx : (if flags.small then chr 'x' else chr 'X') = digit flags.small 33 := by
    cases flags.small <;> rfl
  have hrest : width - (sign ++ special).length - digits.length = rest := by
    rw [length_append, sub_add_eq]
  have hrest' : width - (sign ++ special ++ digits).length = rest := by
    rw [length_append, sub_add_eq, hrest]
  rw [formatNumber, hx]
  change (if flags.left then field true width (sign ++ special ++ digits)
    else if flags.zeropad then sign ++ special ++ zeroFill (width - (sign ++ special).length) digits
    else field false width (sign ++ special ++ digits)) = _
  rw [field, field, zeroFill, hrest, hrest']
  simp

/-- `type &= ~ZEROPAD` changes nothing: with `LEFT` the flag is not looked at. -/
theorem number_eq_writeNumber (flags : Flags) (base : ℕ) (width precision : ℤ) (a : Word) :
    let num := if flags.sign = true ∧ a.toInt < 0 then -a else a
    let tmp := if num = 0 then [chr '0'] else divLoop flags.small base 32 num
    let size := if signChar flags a ≠ [] then int (width - 1) else width
    let digits := if tmp.length > precision then (tmp.length : ℤ) else precision
    number a base width precision flags =
      writeNumber flags (int (specialSize flags base size - digits)) digits (signChar flags a)
        (specialChars flags base) tmp := by
  cases hleft : flags.left with
  | false =>
    simp only [number, hleft]
    rfl
  | true =>
    simp only [number, hleft, if_true]
    simp only [writeNumber, hleft, signChar, specialSize, specialChars, Bool.not_true,
      Bool.and_false]
    rfl

theorem number_eq {flags : Flags} {width precision : ℤ} (hbase : 2 ≤ base) (a : Word)
    (hwidth : -1 ≤ width ∧ width < 2 ^ 31) (hprecision : -1 ≤ precision ∧ precision ≤ 2 ^ 30) :
    number a base width precision flags =
      formatNumber flags base width.toNat precision.toNat a := by
  rw [formatNumber_eq, number_eq_writeNumber, ← toNat_magnitude]
  set num := if flags.sign = true ∧ a.toInt < 0 then -a else a
  have htmp := reverse_tmp flags.small hbase num
  have hlength : (if num = 0 then [chr '0'] else divLoop flags.small base 32 num).length ≤ 32 := by
    split
    · simp
    · exact length_divLoop_le _ _ _ _
  set tmp := if num = 0 then [chr '0'] else divLoop flags.small base 32 num
  set sign := signChar flags a with hsign
  have hsign_le : sign.length ≤ 1 := length_signChar_le flags a
  have hsize : (if sign ≠ [] then int (width - 1) else width) = width - sign.length := by
    rw [int_of_small (by omega) (by omega)]
    split
    · rename_i hne
      have hpos := length_pos_iff.mpr hne
      omega
    · rename_i heq
      rw [not_not.mp heq]
      simp
  have hspecial : specialSize flags base (width - sign.length) =
      width - sign.length - (specialChars flags base).length ∧ (specialChars flags base).length ≤ 2 :=
    specialSize_eq flags base (by omega) (by omega)
  simp only [hsize, hspecial.1]
  set special := specialChars flags base
  set digits := if tmp.length > precision then (tmp.length : ℤ) else precision with hdigits
  have hmax : digits = max (tmp.length : ℤ) precision := by
    rw [hdigits]
    split <;> omega
  have hzeros : replicate (digits - tmp.length).toNat (chr '0') ++ tmp.reverse =
      zeroFill precision.toNat (numeral flags.small base num.toNat) := by
    rw [zeroFill, ← htmp, length_reverse]
    congr 2
    omega
  have hlen : (zeroFill precision.toNat (numeral flags.small base num.toNat)).length =
      digits.toNat := by
    rw [← hzeros, length_append, length_replicate, length_reverse]
    omega
  have hrest : (width - sign.length - special.length - digits).toNat =
      width.toNat - sign.length - special.length - digits.toNat := by
    omega
  rw [int_of_small (by omega) (by omega), writeNumber_eq flags sign special tmp (by omega) (by omega),
    hlen, hrest, hzeros]

/-! ### Fields -/

variable {flags : Flags} {width precision : ℤ}

theorem putChar_eq (c : Byte) (hwidth : -1 ≤ width ∧ width < 2 ^ 30) :
    putChar flags width c = field flags.left width.toNat [c] := by
  have hfirst : int (width - 1) = width - 1 := int_of_small (by omega) (by omega)
  have hblanks : (width - 1).toNat = width.toNat - 1 := by omega
  cases hleft : flags.left with
  | true => simp [putChar, field, hleft, hfirst]
  | false =>
    have hsecond : (int (min (width - 1) 0 - 1)).toNat = 0 := by
      rw [int_of_small (by omega) (by omega)]
      omega
    simp [putChar, field, hleft, hfirst, hsecond]

theorem putString_eq (s : List Byte) (hs : s.length < 2 ^ 30)
    (hwidth : -1 ≤ width ∧ width < 2 ^ 30) :
    putString flags width precision s = field flags.left width.toNat
        (s.take (if precision < 0 then s.length else precision.toNat)) := by
  set n : ℕ := if precision < 0 then s.length else precision.toNat with hn
  have hlen : (if precision < 0 then (s.length : ℤ) else min s.length precision) =
      ((s.take n).length : ℤ) := by
    rw [length_take, hn]
    split <;> omega
  have htake : s.take (s.take n).length = s.take n := by
    rw [length_take, ← take_eq_take_min]
  have hle : (s.take n).length < 2 ^ 30 := by
    rw [length_take]
    omega
  set body := s.take n
  have hblanks : (width - body.length).toNat = width.toNat - body.length := by omega
  cases hleft : flags.left with
  | true => simp [putString, field, hleft, hlen, htake, hblanks]
  | false =>
    have hsecond : (int (min width body.length - 1) - body.length).toNat = 0 := by
      rw [int_of_small (by omega) (by omega)]
      omega
    simp [putString, field, hleft, hlen, htake, hblanks, hsecond]

end

/-! ### Scanning -/

section

variable {rest : List Byte} {args : List Word}

def Flag.set (flags : Flags) : Flag → Flags
  | minus => { flags with left := true }
  | plus => { flags with plus := true }
  | space => { flags with space := true }
  | hash => { flags with special := true }
  | zero => { flags with zeropad := true }

/-- A character in front of which a part of a directive ends. -/
structure Stops (c : Byte) : Prop where
  digit : isDigit c = false
  star : c ≠ chr '*'
  flag : ∀ f : Flag, c ≠ f.char

theorem scanFlags_text (fl : List Flag) (flags : Flags)
    (hrest : ∀ c ∈ rest.head?, ∀ f : Flag, c ≠ f.char) :
    scanFlags flags (fl.map Flag.char ++ rest) = (fl.foldl Flag.set flags, rest) := by
  induction fl generalizing flags with
  | nil =>
    cases rest with
    | nil => rfl
    | cons c rest =>
      have hminus : c ≠ chr '-' := hrest c rfl .minus
      have hplus : c ≠ chr '+' := hrest c rfl .plus
      have hspace : c ≠ chr ' ' := hrest c rfl .space
      have hhash : c ≠ chr '#' := hrest c rfl .hash
      have hzero : c ≠ chr '0' := hrest c rfl .zero
      change scanFlags flags (c :: rest) = (flags, c :: rest)
      rw [scanFlags, if_neg hminus, if_neg hplus, if_neg hspace, if_neg hhash, if_neg hzero]
  | cons f fl ih =>
    rw [map_cons, cons_append, foldl_cons, ← ih]
    cases f <;> rfl

theorem foldl_set (fl : List Flag) (flags : Flags) : fl.foldl Flag.set flags = { flags with
        zeropad := flags.zeropad || .zero ∈ fl
        plus := flags.plus || .plus ∈ fl
        space := flags.space || .space ∈ fl
        left := flags.left || .minus ∈ fl
        special := flags.special || .hash ∈ fl } := by
  induction fl generalizing flags with
  | nil => simp
  | cons f fl ih =>
    rw [foldl_cons, ih]
    cases f <;> simp [Flag.set]

theorem foldl_flags (d : Directive) : d.flags.foldl Flag.set noFlags = d.flagSet := by
  rw [foldl_set]
  simp [noFlags, Directive.flagSet]

theorem isDigit_digitChar (d : Fin 10) : isDigit (digitChar d) = true := by
  revert d
  decide

theorem digitChar_toNat (d : Fin 10) : (digitChar d).toNat = (chr '0').toNat + d := by
  revert d
  decide

theorem le_foldl_value (ds : List (Fin 10)) (n : ℕ) : n ≤ ds.foldl appendDigit n := by
  induction ds generalizing n with
  | nil => exact le_rfl
  | cons d ds ih =>
    have hle := ih (appendDigit n d)
    rw [appendDigit] at hle
    rw [foldl_cons, appendDigit]
    omega

/-- A number that fits is read as it is written. -/
theorem skipAtoi_text (ds : List (Fin 10)) (n : ℕ) (hsmall : ds.foldl appendDigit n < 2 ^ 30)
    (hrest : rest.head?.any isDigit = false) :
    skipAtoi n (ds.map digitChar ++ rest) = (((ds.foldl appendDigit n : ℕ) : ℤ), rest) := by
  induction ds generalizing n with
  | nil =>
    cases rest with
    | nil => rfl
    | cons c rest =>
      change skipAtoi n (c :: rest) = ((n : ℤ), c :: rest)
      rw [skipAtoi, if_neg (by simpa using hrest)]
  | cons d ds ih =>
    have hle := le_foldl_value ds (appendDigit n d)
    have hstep : int ((n : ℤ) * 10 + (digitChar d).toNat - (chr '0').toNat) =
        (appendDigit n d : ℕ) := by
      rw [foldl_cons] at hsmall
      rw [appendDigit] at hle hsmall ⊢
      rw [digitChar_toNat, int_of_small (by omega) (by omega)]
      omega
    rw [map_cons, cons_append, skipAtoi, if_pos (isDigit_digitChar d), hstep]
    exact ih _ hsmall

theorem Conv.stops (k : Conv) : Stops k.char ∧ k.char ≠ chr '.' := by
  cases k <;> exact ⟨⟨by decide, by decide, fun f => by cases f <;> decide⟩, by decide⟩

theorem Qualifier.stops (q : Qualifier) : Stops q.char ∧ q.char ≠ chr '.' := by
  cases q <;> exact ⟨⟨by decide, by decide, fun f => by cases f <;> decide⟩, by decide⟩

namespace Directive

variable (d : Directive)

theorem exists_convText (rest : List Byte) :
    ∃ c s, d.convText ++ rest = c :: s ∧ Stops c ∧ c ≠ chr '.' := by
  cases hq : d.qualifier with
  | none => exact ⟨_, _, by rw [convText, hq]; rfl, d.conv.stops⟩
  | some q => exact ⟨_, _, by rw [convText, hq]; rfl, q.stops⟩

theorem exists_precisionText (rest : List Byte) :
    ∃ c s, d.precisionText ++ (d.convText ++ rest) = c :: s ∧ Stops c := by
  cases hp : d.precision with
  | none =>
    obtain ⟨c, s, heq, hstops, -⟩ := d.exists_convText rest
    exact ⟨c, s, by rw [precisionText, hp, ← heq]; rfl, hstops⟩
  | some p =>
    exact ⟨chr '.', _, by rw [precisionText, hp]; rfl, ⟨by decide, by decide, fun f => by cases f <;> decide⟩⟩

theorem scanQualifier_text (rest : List Byte) :
    scanQualifier (d.convText ++ rest) = d.conv.char :: rest := by
  rw [convText]
  cases d.qualifier with
  | some q => cases q <;> rfl
  | none => cases d.conv <;> rfl

end Directive

/-- The number, if there is one. -/
def Amount.plain : Amount → Option ℕ
  | absent => none
  | number d ds => some (value (d :: ds))
  | star => none

/-- How the source writes that nothing was given. -/
def orNone (n : Option ℕ) : ℤ := n.elim (-1) fun n => n

/-- Numbers far below 2³¹. -/
def Amount.Small (a : Amount) : Prop := ∀ n ∈ a.plain, n < 2 ^ 30

theorem scanWidth_text {a : Amount} {c : Byte} (flags : Flags) (hstar : a ≠ .star) (hsmall : a.Small)
    (hc : Stops c) (s : List Byte) (args : List Word) :
    scanWidth flags (a.text ++ c :: s) args = some (flags, orNone a.plain, c :: s, args) := by
  cases a with
  | star => exact absurd rfl hstar
  | absent => simp [Amount.text, scanWidth, hc.digit, hc.star, Amount.plain, orNone]
  | number d ds =>
    have hread : skipAtoi 0 (digitChar d :: (ds.map digitChar ++ c :: s)) =
        ((value (d :: ds) : ℤ), c :: s) :=
      skipAtoi_text (d :: ds) 0 (hsmall _ rfl) (by simp [hc.digit])
    simp [Amount.text, scanWidth, isDigit_digitChar, hread, Amount.plain, orNone, value]

theorem Directive.scanPrecision_text (d : Directive) (rest : List Byte) (args : List Word)
    (hstar : d.precision ≠ some .star) (hsmall : ∀ a ∈ d.precision, a.Small) :
    scanPrecision (d.precisionText ++ (d.convText ++ rest)) args =
      some (orNone (d.precision.map fun a => a.plain.getD 0), d.convText ++ rest, args) := by
  obtain ⟨c, s, heq, hstops, hdot⟩ := d.exists_convText rest
  rw [heq, precisionText]
  cases hp : d.precision with
  | none => simp [scanPrecision, hdot, orNone]
  | some a =>
    cases a with
    | star => exact absurd hp hstar
    | absent =>
      simp [scanPrecision, scanDot, Amount.text, hstops.digit, hstops.star, Amount.plain, orNone]
    | number k ks =>
      have hread : skipAtoi 0 (digitChar k :: (ks.map digitChar ++ c :: s)) =
          ((value (k :: ks) : ℤ), c :: s) :=
        skipAtoi_text (k :: ks) 0 (hsmall _ hp _ rfl) (by simp [hstops.digit])
      simp [scanPrecision, scanDot, Amount.text, isDigit_digitChar, hread, Amount.plain, orNone, value]

end

/-! ### Directives -/

section

variable {mem : Strings} {flags : Flags} {width precision : Option ℕ} {out : Output}

theorem orNone_bounds {n : Option ℕ} (h : ∀ k ∈ n, k < 2 ^ 30) :
    (-1 ≤ orNone n ∧ orNone n < 2 ^ 30) ∧ (orNone n).toNat = n.getD 0 := by
  cases n with
  | none => exact ⟨by decide, rfl⟩
  | some k =>
    have hk := h k rfl
    refine ⟨⟨?_, ?_⟩, rfl⟩ <;> simp only [orNone, elim_some] <;> omega

theorem number_orNone {base : ℕ} (hbase : 2 ≤ base) (hwidth : ∀ n ∈ width, n < 2 ^ 30)
    (hprecision : ∀ n ∈ precision, n < 2 ^ 30) (a : Word) :
    number a base (orNone width) (orNone precision) flags =
      formatNumber flags base (width.getD 0) (precision.getD 0) a := by
  obtain ⟨hw, hw'⟩ := orNone_bounds hwidth
  obtain ⟨hp, hp'⟩ := orNone_bounds hprecision
  rw [number_eq hbase a ⟨hw.1, hw.2.trans (by decide)⟩ ⟨hp.1, hp.2.le⟩, hw', hp']

/-- Every conversion writes what the reference says. -/
theorem convertChar_eq (conv : Conv) (hwidth : ∀ n ∈ width, n < 2 ^ 30)
    (hprecision : ∀ n ∈ precision, n < 2 ^ 30) :
    convertChar mem flags (orNone width) (orNone precision) out conv.char =
      conv.apply mem flags width precision out := by
  obtain ⟨hw, hw'⟩ := orNone_bounds hwidth
  have hnumber {base : ℕ} (hbase : 2 ≤ base) (flags : Flags) :
      (out.putArg fun a => number a base (orNone width) (orNone precision) flags) =
        out.putArg (formatNumber flags base (width.getD 0) (precision.getD 0)) :=
    congrArg out.putArg (funext (number_orNone hbase hwidth hprecision))
  cases conv with
  | c =>
    have hbody (a : Word) : putChar flags (orNone width) (a.setWidth 8) =
        field flags.left (width.getD 0) [a.setWidth 8] := by
      rw [putChar_eq _ hw, hw']
    exact congrArg out.putArg (funext hbody)
  | s =>
    have hbody (a : Word) : putString flags (orNone width) (orNone precision) (mem.at_ a) =
        field flags.left (width.getD 0) ((mem.at_ a).take (precision.getD (mem.at_ a).length)) := by
      rw [putString_eq _ (mem.length_lt a) hw, hw']
      cases precision <;> rfl
    exact congrArg out.putArg (funext hbody)
  | p =>
    cases width with
    | none =>
      have hbody (a : Word) : number a 16 8 (orNone precision) { flags with zeropad := true } =
          formatNumber { flags with zeropad := true } 16 8 (precision.getD 0) a := by
        obtain ⟨hp, hp'⟩ := orNone_bounds hprecision
        rw [number_eq (by decide) a (by decide) ⟨hp.1, hp.2.le⟩, hp']
        rfl
      exact congrArg out.putArg (funext hbody)
    | some k => exact hnumber (by decide) flags
  | o => exact hnumber (by decide) flags
  | x => exact hnumber (by decide) { flags with small := true }
  | X => exact hnumber (by decide) flags
  | d => exact hnumber (by decide) { flags with sign := true }
  | i => exact hnumber (by decide) { flags with sign := true }
  | u => exact hnumber (by decide) flags
  | n => rfl
  | percent => rfl

end

/-- No part of the directive is a `*`. -/
def Directive.NoStar (d : Directive) : Prop := d.width ≠ .star ∧ d.precision ≠ some .star

def Directive.Small (d : Directive) : Prop := d.width.Small ∧ ∀ a ∈ d.precision, a.Small

theorem Amount.get_plain {a : Amount} (h : a ≠ .star) (args : List Word) :
    a.get args = some (a.plain.map Int.ofNat, args) := by
  cases a with
  | star => exact absurd rfl h
  | absent => rfl
  | number d ds => rfl

theorem digitChar_ne_flag (k : Fin 10) (hk : k ≠ 0) (f : Flag) : digitChar k ≠ f.char := by
  cases f <;> revert k <;> decide

/-- The flags end where the width starts, or what comes after it. -/
theorem Directive.head_width_ne_flag (d : Directive) (hstar : d.width ≠ .star) {c : Byte}
    (hc : Stops c) (s : List Byte) :
    ∀ c' ∈ (d.width.text ++ c :: s).head?, ∀ f : Flag, c' ≠ f.char := by
  intro c' hc'
  cases hw : d.width with
  | star => exact absurd hw hstar
  | absent =>
    rw [hw] at hc'
    cases hc'
    exact hc.flag
  | number k ks =>
    rw [hw] at hc'
    cases hc'
    exact digitChar_ne_flag k fun hk => d.width_ne_zero ks (hk ▸ hw)

theorem Directive.format_of_noStar (mem : Strings) {d : Directive} (hstar : d.NoStar)
    (out : Output) : d.format mem out =
      d.conv.apply mem d.flagSet d.width.plain (d.precision.map fun a => a.plain.getD 0) out := by
  have hprecision (args : List Word) :
      d.getPrecision args = some (d.precision.map fun a => a.plain.getD 0, args) := by
    rw [getPrecision]
    cases hp : d.precision with
    | none => rfl
    | some a =>
      simp only [Amount.get_plain fun ha => hstar.2 (hp.trans (congrArg some ha)), map_some]
      cases a.plain <;> rfl
  have hneg : (d.width.plain.map Int.ofNat).any (· < 0) = false := by
    cases d.width.plain <;> simp
  have habs : (d.width.plain.map Int.ofNat).map Int.natAbs = d.width.plain := by
    cases d.width.plain <;> rfl
  simp [format, Amount.get_plain hstar.1, hprecision, hneg, habs]

/-- A directive without `*` is scanned as it is written. -/
theorem directive_text (mem : Strings) {d : Directive} (hstar : d.NoStar) (hsmall : d.Small)
    (rest : List Byte) (out : Output) :
    directive mem (d.flags.map Flag.char ++ d.width.text ++ d.precisionText ++ d.convText ++ rest)
        out = (d.format mem out).map fun out => (out, rest) := by
  obtain ⟨c, s, hhead, hstops⟩ := d.exists_precisionText rest
  have hflags : scanFlags noFlags (d.flags.map Flag.char ++ (d.width.text ++ c :: s)) =
      (d.flagSet, d.width.text ++ c :: s) := by
    rw [scanFlags_text _ _ (d.head_width_ne_flag hstar.1 hstops s), foldl_flags]
  have hscan := scanWidth_text d.flagSet hstar.1 hsmall.1 hstops s out.args
  have hprec := d.scanPrecision_text rest out.args hstar.2 hsmall.2
  have hsmallp : ∀ n ∈ d.precision.map fun a => a.plain.getD 0, n < 2 ^ 30 := by
    intro n hn
    obtain ⟨a, ha, rfl⟩ := mem_map.mp hn
    cases hplain : a.plain with
    | none => decide
    | some k => exact hsmall.2 a ha k hplain
  rw [hhead] at hprec
  simp only [append_assoc, hhead, directive, hflags, hscan, bind_eq_bind,
    bind_some, hprec, d.scanQualifier_text, convert, convertChar_eq d.conv hsmall.1 hsmallp,
    Directive.format_of_noStar mem hstar]

/-! ### Formats without `*` -/

/-- A format without `*`. -/
def NoStar (fmt : List Piece) : Prop := ∀ d, .directive d ∈ fmt → d.NoStar

/-- A format with no number of 2³⁰ or more in it. -/
def Small (fmt : List Piece) : Prop := ∀ d, .directive d ∈ fmt → d.Small

theorem loop_text (mem : Strings) {fmt : List Piece} (hstar : NoStar fmt) (hsmall : Small fmt)
    {fuel : ℕ} (hfuel : (text fmt).length < fuel) (out : Output) :
    loop mem fuel (text fmt) out = fmt.foldlM (Piece.format mem) out := by
  induction fmt generalizing fuel out with
  | nil =>
    obtain ⟨fuel, rfl⟩ := Nat.exists_eq_add_of_lt hfuel
    rfl
  | cons p fmt ih =>
    have hrest (fuel : ℕ) (hfuel : (text fmt).length < fuel) (out : Output) :
        loop mem fuel (text fmt) out = fmt.foldlM (Piece.format mem) out :=
      ih (fun d hd => hstar d (mem_cons_of_mem _ hd))
        (fun d hd => hsmall d (mem_cons_of_mem _ hd)) hfuel out
    have htext : text (p :: fmt) = p.text ++ text fmt := rfl
    rw [htext, length_append] at hfuel
    rw [htext, foldlM_cons]
    obtain ⟨fuel, rfl⟩ : ∃ k, fuel = k + 1 := ⟨fuel - 1, by omega⟩
    cases p with
    | literal c hc =>
      change loop mem (fuel + 1) (c :: text fmt) out = _
      rw [loop, if_pos hc.2, hrest fuel (by rw [Piece.text, length_singleton] at hfuel; omega)]
      rfl
    | directive d =>
      have hd : .directive d ∈ .directive d :: fmt := mem_cons_self
      rw [Piece.text, Directive.text, cons_append, loop, if_neg (not_not.mpr rfl),
        directive_text mem (hstar d hd) (hsmall d hd), Piece.format]
      cases hformat : d.format mem out with
      | none => rfl
      | some out' =>
        rw [Piece.text, Directive.text, length_cons] at hfuel
        exact hrest fuel (by omega) out'

end LinuxRv.Kernel.Vsprintf
