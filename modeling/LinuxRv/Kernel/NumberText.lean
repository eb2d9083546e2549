import LinuxRv.Kernel.Format

/-!
What `number` writes (`kernel/vsprintf.c`), for every width, precision and base:
how long it is, and which number its digits denote.
-/

namespace LinuxRv.Kernel.Vsprintf

open ByteMemory List Nat

def digitValue (c : Byte) : ℕ :=
  if c ≤ chr '9' then c.toNat - (chr '0').toNat
  else if c ≤ chr 'Z' then c.toNat - (chr 'A').toNat + 10
  else c.toNat - (chr 'a').toNat + 10

/-- The number that digits denote, the first digit being the leading one. -/
def denoted (base : ℕ) (digits : List Byte) : ℕ :=
  ofDigits base (digits.reverse.map digitValue)

/-- The number whose digits are written. -/
def magnitude (type : Flags) (num : Word) : ℕ :=
  if type.sign then num.toInt.natAbs else num.toNat

/-- How many digits it takes. -/
def digitCount (base n : ℕ) : ℕ := max 1 (digits base n).length

section

variable {base : ℕ}

theorem digitValue_digit (small : Bool) {d : ℕ} (hd : d < 36) : digitValue (digit small d) = d := by
  cases small <;> interval_cases d <;> rfl

theorem length_numeral (small : Bool) (base n : ℕ) :
    (numeral small base n).length = digitCount base n := by
  rw [numeral, digitCount]
  split
  · next h => rw [h, digits_zero]; rfl
  · next h =>
      have hpos : 0 < (digits base n).length :=
        length_pos_iff.mpr (digits_ne_nil_iff_ne_zero.mpr h)
      rw [length_reverse, length_map, max_eq_right hpos]

theorem denoted_zeroFill (base k : ℕ) (digits : List Byte) :
    denoted base (zeroFill k digits) = denoted base digits := by
  rw [denoted, zeroFill, reverse_append, map_append, reverse_replicate, map_replicate]
  exact ofDigits_append_replicate_zero _

theorem denoted_numeral (small : Bool) (hbase : 2 ≤ base ∧ base ≤ 36) (n : ℕ) :
    denoted base (numeral small base n) = n := by
  rw [numeral]
  split
  · next h => rw [h]; rfl
  · have hvalues : (digits base n).map (digitValue ∘ digit small) = digits base n := by
      refine (map_congr_left fun d hd => ?_).trans (map_id _)
      exact digitValue_digit small ((digits_lt_base hbase.1 hd).trans_le hbase.2)
    rw [denoted, reverse_reverse, map_map, hvalues, ofDigits_digits]

/-- The loop ends by itself: no more than 32 places of `tmp` are used. -/
theorem length_divLoop_le_width (small : Bool) (hbase : 2 ≤ base) (fuel : ℕ) (num : Word) :
    (divLoop small base fuel num).length ≤ 32 := by
  rcases Nat.le_total fuel 32 with hle | hle
  · exact (length_divLoop_le ..).trans hle
  · have hlt : num.toNat < 2 ^ fuel := num.isLt.trans_le (Nat.pow_le_pow_right (by decide) hle)
    have hsame : divLoop small base fuel num = divLoop small base 32 num := by
      rw [divLoop_eq small hbase hlt, divLoop_eq small hbase num.isLt]
    rw [hsame]
    exact length_divLoop_le ..

end

end LinuxRv.Kernel.Vsprintf
