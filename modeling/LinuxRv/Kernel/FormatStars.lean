import LinuxRv.Kernel.Format
import Mathlib.Algebra.Order.BigOperators.Group.List

/-!
Formats with `*`.

`vsprintf` takes an argument for a `*` but never moves past it, so the rest of the
directive is printed as text and the conversion takes no argument. With arguments
that are all 0 this shows in the number of stars that are printed: the code prints
every star of the format, the reference only those between the directives.
-/

namespace LinuxRv.Kernel.Vsprintf

open ByteMemory List Option

/-! ### Stars that are printed -/

section

variable {args args' : List Word} {c : Byte} {d : Directive} {fmt fmt' : List Byte}
  {out out' : Output}

/-- Every string is empty. -/
def emptyStrings : Strings where
  at_ _ := []
  nonzero _ c hc := nomatch hc
  length_lt _ := by decide

def stars (l : List Byte) : ℕ := l.count (chr '*')

@[simp] theorem stars_append (l l' : List Byte) : stars (l ++ l') = stars l + stars l' :=
  count_append

@[simp] theorem stars_nil : stars [] = 0 := rfl

theorem stars_cons_of_ne (hc : c ≠ chr '*') (l : List Byte) : stars (c :: l) = stars l :=
  count_cons_of_ne hc

theorem stars_replicate (hc : c ≠ chr '*') (n : ℕ) : stars (replicate n c) = 0 := by
  rw [stars, count_replicate, if_neg (by simpa using hc)]

theorem stars_signChar (flags : Flags) (a : Word) : stars (signChar flags a) = 0 := by
  rw [signChar]
  split_ifs <;> rfl

theorem stars_specialChars (flags : Flags) (base : ℕ) : stars (specialChars flags base) = 0 := by
  rw [specialChars]
  cases flags.small <;> split_ifs <;> rfl

/-- The text of a number that is 0 has no star, whatever the layout is. -/
theorem stars_number_zero (base : ℕ) (width precision : ℤ) (flags : Flags) :
    stars (number 0 base width precision flags) = 0 := by
  have hpad (c : Byte) (hc : c ≠ chr '*') (size : ℤ) : stars (padLoop c size).1 = 0 :=
    stars_replicate hc _
  have hwrite (flags : Flags) (size digits : ℤ) :
      stars (writeNumber flags size digits (signChar flags 0) (specialChars flags base) [chr '0']) =
        0 := by
    have hblank := hpad (chr ' ') (by decide)
    have hzero := hpad (chr '0') (by decide)
    have hdigit : stars [chr '0'] = 0 := rfl
    simp only [writeNumber, stars_append, stars_signChar, stars_specialChars, hblank,
      stars_replicate (show chr '0' ≠ chr '*' by decide)]
    cases flags.left <;> cases flags.zeropad <;> simp [hblank, hzero, hdigit]
  rw [number_eq_writeNumber]
  have hzero : (if flags.sign = true ∧ (0 : Word).toInt < 0 then -0 else (0 : Word)) = 0 := by
    split <;> rfl
  simp only [hzero, if_true]
  exact hwrite flags _ _

theorem stars_putChar_zero (flags : Flags) (width : ℤ) :
    stars (putChar flags width (BitVec.setWidth 8 (0 : Word))) = 0 := by
  have hblank := stars_replicate (show chr ' ' ≠ chr '*' by decide)
  have hzero := stars_cons_of_ne (show (0#8 : Byte) ≠ chr '*' by decide)
  cases hleft : flags.left <;> simp [putChar, hleft, hzero, hblank]

theorem stars_putString_nil (flags : Flags) (width precision : ℤ) :
    stars (putString flags width precision []) = 0 := by
  have hblank := stars_replicate (show chr ' ' ≠ chr '*' by decide)
  cases hleft : flags.left <;> simp [putString, hleft, hblank]

theorem stars_scanFlags (flags : Flags) (fmt : List Byte) :
    stars (scanFlags flags fmt).2 = stars fmt := by
  induction fmt generalizing flags with
  | nil => rfl
  | cons c fmt ih =>
    have hskip (flags : Flags) {f : Flag} (hc : c = f.char) :
        stars (scanFlags flags fmt).2 = stars (c :: fmt) := by
      rw [ih, stars_cons_of_ne]
      rw [hc]
      cases f <;> decide
    rw [scanFlags]
    split_ifs with hminus hplus hspace hhash hzero
    · exact hskip _ (show c = Flag.minus.char from hminus)
    · exact hskip _ (show c = Flag.plus.char from hplus)
    · exact hskip _ (show c = Flag.space.char from hspace)
    · exact hskip _ (show c = Flag.hash.char from hhash)
    · exact hskip _ (show c = Flag.zero.char from hzero)
    · rfl

theorem stars_skipAtoi (i : ℤ) (fmt : List Byte) : stars (skipAtoi i fmt).2 = stars fmt := by
  induction fmt generalizing i with
  | nil => rfl
  | cons c fmt ih =>
    rw [skipAtoi]
    split
    · rename_i hc
      rw [ih, stars_cons_of_ne]
      rintro rfl
      exact absurd hc (by decide)
    · rfl

theorem stars_scanQualifier (fmt : List Byte) : stars (scanQualifier fmt) = stars fmt := by
  cases fmt with
  | nil => rfl
  | cons c fmt =>
    rw [scanQualifier]
    split
    · rename_i hc
      rw [tail_cons, stars_cons_of_ne]
      rintro rfl
      cases hc
    · rfl

/-- Arguments that are all 0. -/
def Zeros (args : List Word) : Prop := ∀ a ∈ args, a = 0

theorem Zeros.vaArg (h : Zeros args) {a : Word}
    (harg : vaArg args = some (a, args')) : a = 0 ∧ Zeros args' := by
  cases args with
  | nil => cases harg
  | cons b args =>
    cases harg
    exact ⟨h _ mem_cons_self, fun b hb => h b (mem_cons_of_mem _ hb)⟩

theorem Zeros.scanWidth {flags flags' : Flags} {width : ℤ} (h : Zeros args)
    (hscan : scanWidth flags fmt args = some (flags', width, fmt', args')) :
    stars fmt' = stars fmt ∧ Zeros args' := by
  rw [Vsprintf.scanWidth] at hscan
  split at hscan
  · cases hscan
    exact ⟨stars_skipAtoi _ _, h⟩
  · split at hscan
    · obtain ⟨⟨a, rest⟩, harg, hscan⟩ := map_eq_some_iff.mp hscan
      have hrest := (h.vaArg harg).2
      dsimp only at hscan
      split at hscan <;> cases hscan <;> exact ⟨rfl, hrest⟩
    · cases hscan
      exact ⟨rfl, h⟩

theorem Zeros.scanPrecision {precision : ℤ}
    (h : Zeros args) (hscan : scanPrecision fmt args = some (precision, fmt', args')) :
    stars fmt' = stars fmt ∧ Zeros args' := by
  rw [Vsprintf.scanPrecision] at hscan
  split at hscan
  · rename_i hdot
    have htail : stars fmt.tail = stars fmt := by
      obtain ⟨s, rfl⟩ := head?_eq_some_iff.mp hdot
      exact (stars_cons_of_ne (by decide) s).symm
    obtain ⟨⟨p, s, rest⟩, hscan, hsome⟩ := map_eq_some_iff.mp hscan
    cases hsome
    rw [← htail]
    rw [scanDot] at hscan
    split at hscan
    · cases hscan
      exact ⟨stars_skipAtoi _ _, h⟩
    · split at hscan
      · obtain ⟨⟨a, rest⟩, harg, hscan⟩ := map_eq_some_iff.mp hscan
        cases hscan
        exact ⟨rfl, (h.vaArg harg).2⟩
      · cases hscan
        exact ⟨rfl, h⟩
  · cases hscan
    exact ⟨rfl, h⟩

theorem Zeros.putArg {body : Word → List Byte} (h : Zeros out.args) (hbody : stars (body 0) = 0)
    (hput : out.putArg body = some out') : stars out'.str = stars out.str ∧ Zeros out'.args := by
  obtain ⟨⟨a, args⟩, harg, hput⟩ := bind_eq_some_iff.mp hput
  obtain ⟨rfl, hzeros⟩ := h.vaArg harg
  cases hput
  exact ⟨by rw [Output.put, stars_append, hbody]; rfl, hzeros⟩

/-- A conversion prints a star only for a character that it does not know. -/
theorem Zeros.convertChar {flags : Flags} {width precision : ℤ} (h : Zeros out.args)
    (hconv : convertChar emptyStrings flags width precision out c = some out') :
    stars out'.str = stars out.str + stars [c] ∧ Zeros out'.args := by
  have hput {body : Word → List Byte} (heq : out.putArg body = some out') {k : Byte} (hc : c = k)
      (hk : stars [k] = 0) (hbody : stars (body 0) = 0) :
      stars out'.str = stars out.str + stars [c] ∧ Zeros out'.args := by
    rw [hc, hk]
    exact h.putArg hbody heq
  rw [Vsprintf.convertChar] at hconv
  by_cases hc : c = chr 'c'
  · rw [if_pos hc] at hconv
    exact hput hconv hc rfl (stars_putChar_zero _ _)
  rw [if_neg hc] at hconv
  by_cases hs : c = chr 's'
  · rw [if_pos hs] at hconv
    exact hput hconv hs rfl (stars_putString_nil _ _ _)
  rw [if_neg hs] at hconv
  by_cases ho : c = chr 'o'
  · rw [if_pos ho] at hconv
    exact hput hconv ho rfl (stars_number_zero _ _ _ _)
  rw [if_neg ho] at hconv
  by_cases hp : c = chr 'p'
  · rw [if_pos hp] at hconv
    split at hconv <;> exact hput hconv hp rfl (stars_number_zero _ _ _ _)
  rw [if_neg hp] at hconv
  by_cases hx : c = chr 'x'
  · rw [if_pos hx] at hconv
    exact hput hconv hx rfl (stars_number_zero _ _ _ _)
  rw [if_neg hx] at hconv
  by_cases hX : c = chr 'X'
  · rw [if_pos hX] at hconv
    exact hput hconv hX rfl (stars_number_zero _ _ _ _)
  rw [if_neg hX] at hconv
  by_cases hd : c = chr 'd' ∨ c = chr 'i'
  · rw [if_pos hd] at hconv
    rcases hd with hd | hi
    · exact hput hconv hd rfl (stars_number_zero _ _ _ _)
    · exact hput hconv hi rfl (stars_number_zero _ _ _ _)
  rw [if_neg hd] at hconv
  by_cases hu : c = chr 'u'
  · rw [if_pos hu] at hconv
    exact hput hconv hu rfl (stars_number_zero _ _ _ _)
  rw [if_neg hu] at hconv
  by_cases hn : c = chr 'n'
  · rw [if_pos hn] at hconv
    obtain ⟨⟨a, args⟩, harg, hconv⟩ := bind_eq_some_iff.mp hconv
    cases hconv
    exact ⟨by rw [hn]; rfl, (h.vaArg harg).2⟩
  rw [if_neg hn] at hconv
  cases hconv
  refine ⟨?_, h⟩
  rw [Output.put, stars_append]
  split
  · rw [stars_cons_of_ne (show chr '%' ≠ chr '*' by decide)]
  · rfl

theorem Zeros.directive (h : Zeros out.args)
    (hdir : directive emptyStrings fmt out = some (out', fmt')) :
    stars out'.str + stars fmt' = stars out.str + stars fmt ∧ Zeros out'.args := by
  obtain ⟨⟨flags, width, s, args⟩, hwidth, hdir⟩ := bind_eq_some_iff.mp hdir
  obtain ⟨⟨precision, s', args'⟩, hprecision, hdir⟩ := bind_eq_some_iff.mp hdir
  obtain ⟨hs, hargs⟩ := h.scanWidth hwidth
  obtain ⟨hs', hargs'⟩ := hargs.scanPrecision hprecision
  have hrest : stars (scanQualifier s') = stars fmt := by
    rw [stars_scanQualifier, hs', hs, stars_scanFlags]
  dsimp only at hdir
  cases hq : scanQualifier s' with
  | nil =>
    rw [hq] at hdir hrest
    cases hdir
    refine ⟨?_, hargs'⟩
    rw [← hrest, Output.put, stars_append]
    rfl
  | cons c s'' =>
    rw [hq] at hdir hrest
    obtain ⟨out'', hconv, hsome⟩ := map_eq_some_iff.mp hdir
    cases hsome
    have hargs'' : Zeros ({ out with args := args' } : Output).args := hargs'
    obtain ⟨hstr, hzeros⟩ := hargs''.convertChar hconv
    refine ⟨?_, hzeros⟩
    have hcons : stars (c :: fmt') = stars [c] + stars fmt' := stars_append [c] fmt'
    rw [hstr, ← hrest, hcons, Nat.add_assoc]

/-- The code prints every star of its format. -/
theorem Zeros.loop {fuel : ℕ} (h : Zeros out.args)
    (hloop : loop emptyStrings fuel fmt out = some out') :
    stars out'.str = stars out.str + stars fmt := by
  induction fuel generalizing fmt out with
  | zero => cases hloop
  | succ fuel ih =>
    cases fmt with
    | nil =>
      cases hloop
      rfl
    | cons c fmt =>
      rw [Vsprintf.loop] at hloop
      split at hloop
      · rw [ih (by exact h) hloop, Output.put, stars_append, Nat.add_assoc, ← stars_append]
        rfl
      · rename_i hc
        rw [not_not.mp hc, stars_cons_of_ne (show chr '%' ≠ chr '*' by decide)]
        obtain ⟨⟨out'', fmt'⟩, hdir, hloop⟩ := bind_eq_some_iff.mp hloop
        obtain ⟨hstr, hzeros⟩ := h.directive hdir
        rw [ih hzeros hloop, hstr]

theorem stars_field {body : List Byte} (hbody : stars body = 0) (left : Bool) (width : ℕ) :
    stars (field left width body) = 0 := by
  have hblank := stars_replicate (show chr ' ' ≠ chr '*' by decide)
  cases left <;> simp [field, hblank, hbody]

theorem stars_formatNumber_zero (flags : Flags) (base width precision : ℕ) :
    stars (formatNumber flags base width precision 0) = 0 := by
  have hblank := stars_replicate (show chr ' ' ≠ chr '*' by decide)
  have hzero := stars_replicate (show chr '0' ≠ chr '*' by decide)
  have hmagnitude : (if flags.sign then (0 : Word).toInt.natAbs else (0 : Word).toNat) = 0 := by
    split <;> rfl
  have hdigits : stars (zeroFill precision (numeral flags.small base 0)) = 0 := by
    rw [zeroFill, stars_append, hzero]
    rfl
  rw [formatNumber_eq, hmagnitude]
  cases flags.left <;> cases flags.zeropad <;>
    simp [stars_signChar, stars_specialChars, hblank, hzero, hdigits]

theorem Zeros.get {a : Amount} {n : Option ℤ} (h : Zeros args)
    (hget : a.get args = some (n, args')) : Zeros args' := by
  cases a with
  | star =>
    obtain ⟨⟨b, rest⟩, harg, hget⟩ := bind_eq_some_iff.mp hget
    cases hget
    exact (h.vaArg harg).2
  | absent =>
    cases hget
    exact h
  | number d ds =>
    cases hget
    exact h

theorem Zeros.getPrecision {n : Option ℕ} (h : Zeros args)
    (hget : d.getPrecision args = some (n, args')) : Zeros args' := by
  rw [Directive.getPrecision] at hget
  split at hget
  · cases hget
    exact h
  · obtain ⟨⟨m, rest⟩, harg, hget⟩ := bind_eq_some_iff.mp hget
    cases hget
    exact h.get harg

/-- The reference prints no star for a directive. -/
theorem Zeros.format (h : Zeros out.args) (hformat : d.format emptyStrings out = some out') :
    stars out'.str = stars out.str ∧ Zeros out'.args := by
  obtain ⟨⟨width, args⟩, hwidth, hformat⟩ := bind_eq_some_iff.mp hformat
  obtain ⟨⟨precision, args'⟩, hprecision, hformat⟩ := bind_eq_some_iff.mp hformat
  have hargs : Zeros ({ out with args := args' } : Output).args := (h.get hwidth).getPrecision hprecision
  dsimp only at hformat
  rw [Conv.apply.eq_def] at hformat
  have hnumber := stars_formatNumber_zero
  cases hconv : d.conv <;> rw [hconv] at hformat <;> dsimp only at hformat
  case c => exact hargs.putArg (stars_field rfl _ _) hformat
  case s => exact hargs.putArg (stars_field (by simp [emptyStrings]) _ _) hformat
  case p =>
    split at hformat
    · exact hargs.putArg (hnumber _ _ _ _) hformat
    · exact hargs.putArg (hnumber _ _ _ _) hformat
  case n =>
    obtain ⟨⟨a, rest⟩, harg, hformat⟩ := bind_eq_some_iff.mp hformat
    cases hformat
    exact ⟨rfl, (hargs.vaArg harg).2⟩
  case percent =>
    cases hformat
    exact ⟨stars_append _ _, hargs⟩
  all_goals exact hargs.putArg (hnumber _ _ _ _) hformat

theorem exists_vaArg (h : 1 ≤ args.length) :
    ∃ a args', vaArg args = some (a, args') ∧ args.length = args'.length + 1 := by
  cases args with
  | nil => cases h
  | cons a args => exact ⟨a, args, rfl, rfl⟩

theorem Amount.exists_get (a : Amount) (h : 1 ≤ args.length) :
    ∃ n args', a.get args = some (n, args') ∧ args.length ≤ args'.length + 1 := by
  cases a with
  | star =>
    obtain ⟨b, args', harg, hlength⟩ := exists_vaArg h
    exact ⟨some b.toInt, args', by rw [get, harg]; rfl, hlength.le⟩
  | absent => exact ⟨_, _, rfl, Nat.le_succ _⟩
  | number d ds => exact ⟨_, _, rfl, Nat.le_succ _⟩

theorem Conv.exists_apply (mem : Strings) (flags : Flags) (width precision : Option ℕ) (conv : Conv)
    (h : 1 ≤ out.args.length) : ∃ out', conv.apply mem flags width precision out = some out' ∧
      out.args.length ≤ out'.args.length + 1 := by
  obtain ⟨a, args, harg, hlength⟩ := exists_vaArg h
  have hput (body : Word → List Byte) :
      ∃ out', out.putArg body = some out' ∧ out.args.length ≤ out'.args.length + 1 :=
    ⟨_, by rw [Output.putArg, harg]; rfl, hlength.le⟩
  cases conv with
  | p => cases width <;> exact hput _
  | n => exact ⟨_, by rw [apply, harg]; rfl, hlength.le⟩
  | percent => exact ⟨_, rfl, Nat.le_succ _⟩
  | _ =>
    rw [apply]
    exact hput _

/-- Three arguments are enough for a directive. -/
theorem Directive.exists_format (mem : Strings) (d : Directive) (hargs : 3 ≤ out.args.length) :
    ∃ out', d.format mem out = some out' ∧ out.args.length ≤ out'.args.length + 3 := by
  obtain ⟨width, args, hwidth, hlength⟩ := d.width.exists_get (show 1 ≤ out.args.length by omega)
  obtain ⟨precision, args', hprecision, hlength'⟩ :
      ∃ n args', d.getPrecision args = some (n, args') ∧ args.length ≤ args'.length + 1 := by
    rw [getPrecision]
    cases d.precision with
    | none => exact ⟨_, _, rfl, Nat.le_succ _⟩
    | some a =>
      obtain ⟨n, args', hget, hle⟩ := a.exists_get (show 1 ≤ args.length by omega)
      exact ⟨some (n.getD 0).toNat, args', by simp [hget], hle⟩
  have hleft : 1 ≤ ({ out with args := args' } : Output).args.length := by
    dsimp only
    omega
  obtain ⟨out', happly, hlength''⟩ := d.conv.exists_apply mem
    { d.flagSet with left := d.flagSet.left || width.any (· < 0) } (width.map Int.natAbs) precision
    hleft
  refine ⟨out', ?_, ?_⟩
  · simp [format, hwidth, hprecision, happly]
  · dsimp only at hlength''
    omega

/-- The stars between the directives. -/
def Piece.literalStars : Piece → ℕ
  | .literal c _ => stars [c]
  | .directive _ => 0

theorem Zeros.exists_format {fmt : List Piece} (h : Zeros out.args)
    (hargs : 3 * fmt.length ≤ out.args.length) :
    ∃ out', fmt.foldlM (Piece.format emptyStrings) out = some out' ∧
      stars out'.str = stars out.str + (fmt.map Piece.literalStars).sum := by
  induction fmt generalizing out with
  | nil => exact ⟨out, rfl, rfl⟩
  | cons p fmt ih =>
    rw [length_cons] at hargs
    obtain ⟨out₁, hp, hzeros, hstars, hlength⟩ : ∃ out₁, p.format emptyStrings out = some out₁ ∧
        Zeros out₁.args ∧ stars out₁.str = stars out.str + p.literalStars ∧
        out.args.length ≤ out₁.args.length + 3 := by
      cases p with
      | literal c hc => exact ⟨_, rfl, h, stars_append _ _, Nat.le_add_right _ _⟩
      | directive d =>
        obtain ⟨out₁, hd, hlength⟩ := d.exists_format emptyStrings (show 3 ≤ out.args.length by omega)
        obtain ⟨hstars, hzeros⟩ := h.format hd
        exact ⟨out₁, hd, hzeros, hstars, hlength⟩
    obtain ⟨out₂, hfold, hsum⟩ := ih hzeros (by omega)
    refine ⟨out₂, ?_, ?_⟩
    · rw [foldlM_cons, hp]
      exact hfold
    · rw [hsum, hstars, map_cons, sum_cons, Nat.add_assoc]

theorem Piece.literalStars_le (p : Piece) : p.literalStars ≤ stars p.text := by
  cases p with
  | literal c hc => exact le_rfl
  | directive d => exact Nat.zero_le _

theorem Directive.stars_text_pos (h : ¬ d.NoStar) : 0 < stars d.text := by
  rw [NoStar, not_and_or, not_not, not_not] at h
  rcases h with h | h
  · simp only [text, h, Amount.text, stars, count_pos_iff]
    simp
  · simp only [text, precisionText, h, Amount.text, stars, count_pos_iff]
    simp

/-- A `*` in a directive is a star that the reference does not print. -/
theorem sum_literalStars_lt {fmt : List Piece} (h : ¬ NoStar fmt) :
    (fmt.map Piece.literalStars).sum < stars (text fmt) := by
  simp only [NoStar, not_forall] at h
  obtain ⟨d, hd, hstar⟩ := h
  have htext : stars (text fmt) = (fmt.map fun p => stars p.text).sum := by
    rw [stars, text, count_flatMap]
    rfl
  rw [htext]
  refine sum_lt_sum _ _ (fun p _ => p.literalStars_le) ⟨.directive d, hd, ?_⟩
  exact Directive.stars_text_pos hstar

end

/-! ### The code and the reference -/

/-- With every list of arguments that is long enough, the call writes, stores, takes
and returns what the reference does. -/
def Implements (fmt : List Piece) : Prop :=
  ∀ mem args result, format mem fmt args = some result → vsprintf mem (text fmt) args = some result

theorem implements_of_noStar {fmt : List Piece} (hstar : NoStar fmt) (hsmall : Small fmt) :
    Implements fmt := by
  intro mem args result hformat
  rw [vsprintf, loop_text mem hstar hsmall (Nat.lt_succ_self _)]
  exact hformat

theorem noStar_of_implements {fmt : List Piece} (h : Implements fmt) : NoStar fmt := by
  by_contra hstar
  -- run both on arguments that are all 0
  let start : Output := ⟨[], replicate (3 * fmt.length) 0, []⟩
  have hzeros : Zeros start.args := fun a ha => eq_of_mem_replicate ha
  have hargs : 3 * fmt.length ≤ start.args.length := length_replicate.ge
  obtain ⟨out, hout, hstars⟩ := hzeros.exists_format hargs
  have hcode := h emptyStrings start.args (out, .ofNat 32 out.str.length)
    (by rw [format, hout]; rfl)
  obtain ⟨out', hloop, hsome⟩ := bind_eq_some_iff.mp hcode
  cases hsome
  have hall := hzeros.loop hloop
  have hlt := sum_literalStars_lt hstar
  omega

/-- `%*d`. -/
def starDirective : Directive := ⟨[], .star, by rintro _ ⟨⟩, none, none, .d⟩

end LinuxRv.Kernel.Vsprintf
