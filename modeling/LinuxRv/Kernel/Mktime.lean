import Mathlib.Algebra.BigOperators.Intervals
import Mathlib.Algebra.Order.BigOperators.Group.Finset
import Mathlib.Data.Prod.Lex
import Mathlib.Tactic.IntervalCases

/-!
The time of a date (`kernel_mktime` of `kernel/mktime.c`).

Leap days are counted by `(y+1)/4` and by a table of months that takes every
year for a leap year; the date itself counts its days year by year and month by
month, by the Gregorian rule.
-/

namespace LinuxRv.Kernel

open Finset

/-! ### The kernel's count -/

/-- The result of an operation on `int` and `long`, unless it overflows. -/
def checked (z : ℤ) : Option ℤ := if -2 ^ 31 ≤ z ∧ z < 2 ^ 31 then some z else none

def minute : ℤ := 60
def hour : ℤ := 60 * minute
def day : ℤ := 24 * hour
def year : ℤ := 365 * day

/-- Interestingly, we assume leap-years. -/
def month : List ℤ :=
  [0, day * 31, day * (31 + 29), day * (31 + 29 + 31), day * (31 + 29 + 31 + 30),
    day * (31 + 29 + 31 + 30 + 31), day * (31 + 29 + 31 + 30 + 31 + 30),
    day * (31 + 29 + 31 + 30 + 31 + 30 + 31), day * (31 + 29 + 31 + 30 + 31 + 30 + 31 + 31),
    day * (31 + 29 + 31 + 30 + 31 + 30 + 31 + 31 + 30),
    day * (31 + 29 + 31 + 30 + 31 + 30 + 31 + 31 + 30 + 31),
    day * (31 + 29 + 31 + 30 + 31 + 30 + 31 + 31 + 30 + 31 + 30)]

/-- `struct tm`, the fields that are read. -/
structure Tm where
  sec : ℤ
  min : ℤ
  hour : ℤ
  mday : ℤ
  mon : ℤ
  year : ℤ

/-- `none` is an overflow, or an access outside of the table. -/
def kernelMktime (tm : Tm) : Option ℤ := do
  let y ← checked (tm.year - 70)
  -- magic offsets (y+1) needed to get leapyears right
  let years ← checked (year * y)
  let next ← checked (y + 1)
  let leapDays ← checked (day * next.tdiv 4)
  let res ← checked (years + leapDays)
  let months ← (if 0 ≤ tm.mon then month[tm.mon.toNat]? else none)
  let res ← checked (res + months)
  -- and (y+2) here; if it wasn't a leap-year, we have to adjust
  let after ← checked (y + 2)
  let res ← (if 1 < tm.mon ∧ after.tmod 4 ≠ 0 then checked (res - day) else some res)
  let days ← checked (tm.mday - 1)
  let days ← checked (day * days)
  let res ← checked (res + days)
  let hours ← checked (hour * tm.hour)
  let res ← checked (res + hours)
  let minutes ← checked (minute * tm.min)
  let res ← checked (res + minutes)
  checked (res + tm.sec)

/-! ### The calendar -/

/-- The Gregorian rule. -/
def isLeap (y : ℕ) : Bool := y % 4 = 0 ∧ (y % 100 ≠ 0 ∨ y % 400 = 0)

/-- Days of a month; January is 0. -/
def monthLength (y m : ℕ) : ℕ :=
  if m = 1 then if isLeap y then 29 else 28
  else if m = 3 ∨ m = 5 ∨ m = 8 ∨ m = 10 then 30 else 31

def yearLength (y : ℕ) : ℕ := ∑ m ∈ range 12, monthLength y m

/-- A date and a time of day; January is 0 and the first day of a month is 1. -/
structure Date where
  year : ℕ
  month : ℕ
  day : ℕ
  hour : ℕ
  minute : ℕ
  second : ℕ

namespace Date

/-- A date of the calendar, from 1970 on. -/
structure Valid (d : Date) : Prop where
  year : 1970 ≤ d.year
  month : d.month < 12
  day : 1 ≤ d.day ∧ d.day ≤ monthLength d.year d.month
  hour : d.hour < 24
  minute : d.minute < 60
  second : d.second < 60

/-- Days since the first of January, and days since 1970. -/
def dayOfYear (d : Date) : ℕ := ∑ m ∈ range d.month, monthLength d.year m + (d.day - 1)

def days (d : Date) : ℕ := ∑ i ∈ range (d.year - 1970), yearLength (1970 + i) + d.dayOfYear

def secondOfDay (d : Date) : ℕ := 3600 * d.hour + 60 * d.minute + d.second

/-- Seconds since 1970-01-01 00:00:00. -/
def epoch (d : Date) : ℕ := 86400 * d.days + d.secondOfDay

/-- The order of the calendar. -/
def Before (d e : Date) : Prop :=
  toLex (d.year, toLex (d.month, toLex (d.day, toLex (d.hour, toLex (d.minute, d.second))))) <
    toLex (e.year, toLex (e.month, toLex (e.day, toLex (e.hour, toLex (e.minute, e.second)))))

/-- The `struct tm` of a date: years count from 1900. -/
def tm (d : Date) : Tm := ⟨d.second, d.minute, d.hour, d.day, d.month, d.year - 1900⟩

variable {d e : Date}

theorem Valid.secondOfDay_lt (hd : d.Valid) : d.secondOfDay < 86400 := by
  have hhour := hd.hour
  have hminute := hd.minute
  have hsecond := hd.second
  rw [secondOfDay]
  omega

/-- The day is before the next month. -/
theorem Valid.dayOfYear_lt_next (hd : d.Valid) :
    d.dayOfYear < ∑ m ∈ range (d.month + 1), monthLength d.year m := by
  have hday := hd.day
  rw [dayOfYear, sum_range_succ]
  omega

/-- The day is before the next year. -/
theorem Valid.days_lt_next (hd : d.Valid) :
    d.days < ∑ i ∈ range (d.year - 1970 + 1), yearLength (1970 + i) := by
  have hyear : 1970 + (d.year - 1970) = d.year := Nat.add_sub_cancel' hd.year
  have hlt : d.dayOfYear < yearLength d.year := hd.dayOfYear_lt_next.trans_le
    (sum_le_sum_of_subset (range_subset_range.mpr hd.month))
  rw [days, sum_range_succ, hyear]
  omega

theorem Valid.days_lt (hd : d.Valid)
    (h : toLex (d.year, toLex (d.month, d.day)) < toLex (e.year, toLex (e.month, e.day))) :
    d.days < e.days := by
  rcases Prod.Lex.toLex_lt_toLex.mp h with h | ⟨hyear, h⟩
  · have hyears : d.year - 1970 + 1 ≤ e.year - 1970 := by
      have := hd.year
      dsimp only at h
      omega
    exact hd.days_lt_next.trans_le ((sum_le_sum_of_subset
      (range_subset_range.mpr hyears)).trans (Nat.le_add_right ..))
  · dsimp only at hyear
    have hday : d.dayOfYear < e.dayOfYear := by
      rcases Prod.Lex.toLex_lt_toLex.mp h with h | ⟨hmonth, h⟩
      · refine hd.dayOfYear_lt_next.trans_le ?_
        rw [dayOfYear, hyear]
        exact (sum_le_sum_of_subset (range_subset_range.mpr h)).trans (Nat.le_add_right ..)
      · dsimp only at hmonth h
        have := hd.day
        rw [dayOfYear, dayOfYear, hyear, hmonth]
        omega
    rw [days, days, hyear]
    omega

/-- A later date is a greater number of seconds. -/
theorem Valid.epoch_lt (hd : d.Valid) (h : d.Before e) : d.epoch < e.epoch := by
  have hlt := hd.secondOfDay_lt
  simp only [Before, Prod.Lex.toLex_lt_toLex] at h
  by_cases hdays : toLex (d.year, toLex (d.month, d.day)) < toLex (e.year, toLex (e.month, e.day))
  · have := hd.days_lt hdays
    rw [epoch, epoch]
    omega
  · simp only [Prod.Lex.toLex_lt_toLex] at hdays
    have hyear : d.year = e.year := by omega
    have hmonth : d.month = e.month := by omega
    have hday : d.day = e.day := by omega
    have hsame : d.days = e.days := by simp only [days, dayOfYear, hyear, hmonth, hday]
    have := hd.minute
    have := hd.second
    rw [epoch, epoch, hsame, secondOfDay, secondOfDay]
    omega

end Date

/-! ### They agree -/

theorem yearLength_eq (y : ℕ) : yearLength y = if isLeap y then 366 else 365 := by
  simp only [yearLength, sum_range_succ, monthLength]
  split <;> rfl

/-- Up to 2100 every fourth year is a leap year. -/
theorem isLeap_eq : ∀ n < 130, isLeap (1970 + n) = decide ((n + 2) % 4 = 0) := by decide

theorem sum_yearLength {n : ℕ} (hn : n ≤ 130) :
    ∑ i ∈ range n, yearLength (1970 + i) = 365 * n + (n + 1) / 4 := by
  induction n with
  | zero => rfl
  | succ n ih =>
    rw [sum_range_succ, ih (by omega), yearLength_eq, isLeap_eq n (by omega)]
    split <;> simp_all <;> omega

/-- The table of the months, and the day it has too many. -/
theorem month_get (y : ℕ) {m : ℕ} (hm : m < 12) : month[m]? = some (day *
    (∑ k ∈ range m, monthLength y k + if 1 < m ∧ isLeap y = false then 1 else 0 : ℕ)) := by
  cases hleap : isLeap y <;> interval_cases m <;>
    simp [sum_range_succ, monthLength, hleap, month]

/-- The time does not go beyond 2038. -/
theorem Date.year_le {d : Date} (hlt : d.epoch < 2 ^ 31) : d.year - 1970 ≤ 68 := by
  by_contra hgt
  have hle : ∑ i ∈ range 69, yearLength (1970 + i) ≤
      ∑ i ∈ range (d.year - 1970), yearLength (1970 + i) :=
    sum_le_sum_of_subset (range_subset_range.mpr (by omega))
  rw [sum_yearLength (by decide)] at hle
  rw [epoch, days] at hlt
  omega

theorem checked_eq {z w : ℤ} (hz : z = w) (hw : 0 ≤ w ∧ w < 2 ^ 31) : checked z = some w := by
  subst hz
  exact if_pos ⟨by omega, hw.2⟩

theorem checked_bind {z w : ℤ} {f : ℤ → Option ℤ} (hz : z = w) (hw : 0 ≤ w ∧ w < 2 ^ 31) :
    (checked z).bind f = f w := by
  rw [checked_eq hz hw, Option.bind_some]

theorem sum_monthLength (y : ℕ) {m : ℕ} (hm : m < 12) : ∑ k ∈ range m, monthLength y k ≤ 335 ∧
      (1 < m → 59 ≤ ∑ k ∈ range m, monthLength y k) := by
  cases hleap : isLeap y <;> interval_cases m <;>
    simp [sum_range_succ, monthLength, hleap]

theorem kernelMktime_eq {d : Date} (hd : d.Valid) (hlt : d.epoch < 2 ^ 31) :
    kernelMktime d.tm = some (d.epoch : ℤ) := by
  obtain ⟨n, hn⟩ : ∃ n, d.year - 1970 = n := ⟨_, rfl⟩
  have hle : n ≤ 68 := hn ▸ Date.year_le hlt
  have hyear : d.year = 1970 + n := by
    have := hd.year
    omega
  have hleap : isLeap d.year = decide ((n + 2) % 4 = 0) := hyear ▸ isLeap_eq n (by omega)
  have htable := month_get d.year hd.month
  obtain ⟨hmonths, hspring⟩ := sum_monthLength d.year hd.month
  have hday := hd.day
  rw [Date.epoch, Date.days, hn, sum_yearLength (by omega), Date.dayOfYear,
    Date.secondOfDay] at hlt ⊢
  generalize ∑ k ∈ range d.month, monthLength d.year k = M at *
  rw [hleap] at htable
  obtain ⟨x, hx⟩ : ∃ x, x = if 1 < d.month ∧ decide ((n + 2) % 4 = 0) = false then 1 else 0 :=
    ⟨_, rfl⟩
  rw [← hx] at htable
  -- in 2038 there are no months before the date, so the day too many does not overflow
  have hsum : 365 * n + (n + 1) / 4 + M + x ≤ 24855 := by
    split at hx <;> omega
  obtain ⟨Y, hY⟩ : ∃ Y : ℤ, Y = 31536000 * n + 86400 * ((n + 1) / 4) := ⟨_, rfl⟩
  have hadjust : (if 1 < d.tm.mon ∧ ((n : ℤ) + 2) % 4 ≠ 0 then
      checked (Y + 86400 * (M + x) - day) else some (Y + 86400 * (M + x))) =
      some (Y + 86400 * M) := by
    have hmon : 1 < d.tm.mon ↔ 1 < d.month := Nat.one_lt_cast
    split at hx
    · next hbig =>
      rw [if_pos ⟨hmon.mpr hbig.1, by have := of_decide_eq_false hbig.2; omega⟩, hx]
      exact checked_eq (by simp [day, hour, minute]; omega) (by omega)
    · next hsmall =>
      rw [if_neg (by rw [hmon]; simp at hsmall; omega), hx, Nat.cast_zero, Int.add_zero]
  simp only [kernelMktime, Option.bind_eq_bind]
  rw [checked_bind (w := n) (by simp [Date.tm]; omega) (by omega)]
  rw [checked_bind (w := 31536000 * n) (by simp [year, day, hour, minute]) (by omega)]
  rw [checked_bind (w := n + 1) rfl (by omega), Int.tdiv_eq_ediv_of_nonneg (by omega)]
  rw [checked_bind (w := 86400 * ((n + 1) / 4)) (by simp [day, hour, minute]) (by omega)]
  rw [checked_bind (w := Y) hY.symm (by omega)]
  rw [if_pos (show 0 ≤ d.tm.mon from Int.natCast_nonneg _),
    show d.tm.mon.toNat = d.month from Int.toNat_natCast _, htable, Option.bind_some]
  rw [checked_bind (w := Y + 86400 * (M + x)) (by simp [day, hour, minute]) (by omega)]
  rw [checked_bind (w := n + 2) rfl (by omega), Int.tmod_eq_emod_of_nonneg (by omega), hadjust,
    Option.bind_some]
  dsimp only [Date.tm]
  rw [checked_bind (w := d.day - 1) rfl (by omega)]
  rw [checked_bind (w := 86400 * (d.day - 1)) (by simp [day, hour, minute]) (by omega)]
  rw [checked_bind (w := Y + 86400 * M + 86400 * (d.day - 1)) rfl (by omega)]
  rw [checked_bind (w := 3600 * d.hour) (by simp [hour, minute]) (by omega)]
  rw [checked_bind (w := Y + 86400 * M + 86400 * (d.day - 1) + 3600 * d.hour) rfl (by omega)]
  rw [checked_bind (w := 60 * d.minute) (by simp [minute]) (by omega)]
  rw [checked_bind rfl (by omega)]
  exact checked_eq (by simp; omega) (by omega)

/-- Every date of the calendar from 1970 whose time is below 2³¹ is converted
without an overflow to the seconds since 1970, and a later one to a greater
number. -/
theorem mktime_exact {d : Date} (hd : d.Valid) (hlt : d.epoch < 2 ^ 31) :
    kernelMktime d.tm = some (d.epoch : ℤ) ∧
    ∀ e : Date, e.Valid → e.epoch < 2 ^ 31 → d.Before e →
      ∃ r s, kernelMktime d.tm = some r ∧ kernelMktime e.tm = some s ∧ r < s := by
  refine ⟨kernelMktime_eq hd hlt, fun e he hlt' hbefore => ?_⟩
  exact ⟨_, _, kernelMktime_eq hd hlt, kernelMktime_eq he hlt',
    Nat.cast_lt.mpr (hd.epoch_lt hbefore)⟩

/-- The 29th of February 2000, at noon. -/
theorem mktime_exact_leap_day : kernelMktime (Date.tm ⟨2000, 1, 29, 12, 0, 0⟩) = some 951825600 :=
  (mktime_exact ⟨by decide, by decide, by decide, by decide, by decide, by decide⟩
    (by decide +kernel)).1.trans (by decide +kernel)

end LinuxRv.Kernel
