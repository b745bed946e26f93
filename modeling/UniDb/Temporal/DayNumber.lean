import Mathlib.Algebra.Order.Ring.Int
import Mathlib.Data.Int.SuccPred
import Mathlib.Data.Int.ConditionallyCompleteOrder

/-!
# Day Numbers

Dates whose years do not fit chrono's range are numbered by a formula: eras of
400 years, years that start in March, and truncating divisions.

`dayNumber` is the formula over the integers. Months are counted through from
year 0, and `monthStart_succ` is the only place where their lengths and the
leap years are looked at.

## Theorems

* `daysFromCivil_eq`: The words do not overflow.
* `monthStart_succ`: A month starts after the days of the one before.
* `daysFromCivil_exact`: Dates are numbered one by one, without gaps.
-/

namespace UniDb.Temporal

/-- A word of 64 bits; `none` is an overflow. -/
def i64 (x : Int) : Option Int :=
  if -9223372036854775808 ≤ x ∧ x ≤ 9223372036854775807 then some x else none

structure ExtendedDate where
  year : Int
  month : Nat
  day : Nat
  deriving DecidableEq

def isLeapYearI64 (year : Int) : Bool :=
  year % 4 = 0 ∧ (year % 100 ≠ 0 ∨ year % 400 = 0)

def daysInMonthI64 (year : Int) (month : Nat) : Option Nat :=
  match month with
  | 1 | 3 | 5 | 7 | 8 | 10 | 12 => some 31
  | 4 | 6 | 9 | 11 => some 30
  | 2 => some (if isLeapYearI64 year then 29 else 28)
  | _ => none

def daysFromCivil (date : ExtendedDate) : Option Int := do
  let m : Int := date.month
  let y ← i64 (date.year - if m ≤ 2 then 1 else 0)
  let era := y / 400
  let yoe ← i64 (y - (← i64 (era * 400)))
  let mp ← i64 (m + if m > 2 then -3 else 9)
  let doy ← i64 ((← i64 ((← i64 ((← i64 (153 * mp)) + 2)).tdiv 5 + date.day)) - 1)
  let doe ← i64 ((← i64 ((← i64 ((← i64 (yoe * 365)) + yoe.tdiv 4)) - yoe.tdiv 100)) + doy)
  -- the rest is done in 128 bits
  return era * 146097 + doe - 719468

/-- The year that starts in March. -/
def marchYear (year month : Int) : Int := if month ≤ 2 then year - 1 else year

/-- The months since March. -/
def marchMonth (month : Int) : Int := if month ≤ 2 then month + 9 else month - 3

/-- The day number without the bounds of the words. -/
def dayNumber (year month day : Int) : Int :=
  let y := marchYear year month
  let yoe := y % 400
  y / 400 * 146097 +
    (yoe * 365 + yoe / 4 - yoe / 100 + ((153 * marchMonth month + 2) / 5 + day - 1)) - 719468

theorem i64_bind {α : Type} {x : Int} (h : -2 ^ 62 ≤ x ∧ x ≤ 2 ^ 62) (f : Int → Option α) :
    (i64 x >>= f) = f x := by
  rw [i64, if_pos (by omega)]
  rfl

theorem daysFromCivil_eq {date : ExtendedDate} (hmonth : 1 ≤ date.month ∧ date.month ≤ 12)
    (hday : date.day ≤ 31) (hyear : -2 ^ 60 < date.year ∧ date.year ≤ 2 ^ 60) :
    daysFromCivil date = some (dayNumber date.year date.month date.day) := by
  rcases date with ⟨year, month, day⟩
  simp only at hmonth hday hyear
  have hy : (year - if (month : Int) ≤ 2 then 1 else 0) = marchYear year month := by
    unfold marchYear
    split <;> omega
  have hm : ((month : Int) + if (month : Int) > 2 then -3 else 9) = marchMonth month := by
    unfold marchMonth
    split <;> split <;> omega
  unfold daysFromCivil dayNumber
  simp only [hy, hm]
  generalize marchMonth month = mp at *
  generalize marchYear year month = y at *
  have hyoe : y - y / 400 * 400 = y % 400 := by omega
  rw [i64_bind (by omega), i64_bind (by omega), hyoe, i64_bind (by omega)]
  generalize y % 400 = yoe at *
  -- from here on all terms are small and not negative
  rw [i64_bind (by omega), i64_bind (by omega), i64_bind (by omega),
    Int.tdiv_eq_ediv_of_nonneg (by omega), i64_bind (by omega), i64_bind (by omega),
    i64_bind (by omega), Int.tdiv_eq_ediv_of_nonneg (by omega),
    Int.tdiv_eq_ediv_of_nonneg (by omega), i64_bind (by omega), i64_bind (by omega),
    i64_bind (by omega)]
  rfl

/-- The days of the month that is `k` months after the first one of year 0. -/
def monthLength (k : Int) : Nat := (daysInMonthI64 (k / 12) (k % 12 + 1).toNat).getD 0

/-- The number of its first day. -/
def monthStart (k : Int) : Int := dayNumber (k / 12) (k % 12 + 1) 1

theorem monthStart_succ (k : Int) : monthStart (k + 1) = monthStart k + monthLength k := by
  have hk := Int.emod_nonneg k (show (12 : Int) ≠ 0 by decide)
  have hlt := Int.emod_lt_of_pos k (show (0 : Int) < 12 by decide)
  obtain ⟨q, r, hr0, hr12, rfl⟩ : ∃ q r : Int, 0 ≤ r ∧ r < 12 ∧ k = 12 * q + r :=
    ⟨k / 12, k % 12, hk, hlt, (Int.mul_ediv_add_emod k 12).symm⟩
  have hq : (12 * q + r) / 12 = q := by omega
  have hr : (12 * q + r) % 12 = r := by omega
  rw [monthStart, monthStart, monthLength, hq, hr]
  -- the years of the formula start with `r = 2`, behind the leap day
  have hcases : r = 0 ∨ r = 1 ∨ r = 2 ∨ r = 3 ∨ r = 4 ∨ r = 5 ∨ r = 6 ∨ r = 7 ∨ r = 8 ∨ r = 9 ∨
      r = 10 ∨ r = 11 := by omega
  have hnext : (12 * q + r + 1) / 12 = if r = 11 then q + 1 else q := by split <;> omega
  have hmonth : (12 * q + r + 1) % 12 = if r = 11 then 0 else r + 1 := by split <;> omega
  rw [hnext, hmonth]
  clear hnext hmonth hk hlt hq hr
  rcases hcases with rfl | rfl | rfl | rfl | rfl | rfl | rfl | rfl | rfl | rfl | rfl | rfl <;>
    simp [dayNumber, marchYear, marchMonth, daysInMonthI64, isLeapYearI64] <;> (try split) <;> omega

/-- A day that its month has. -/
structure ExtendedDate.Valid (date : ExtendedDate) : Prop where
  month : 1 ≤ date.month ∧ date.month ≤ 12
  day : 1 ≤ date.day ∧ date.day ≤ (daysInMonthI64 date.year date.month).getD 0

namespace ExtendedDate

/-- The months from the first one of year 0 on. -/
def index (date : ExtendedDate) : Int := 12 * date.year + (date.month - 1)

def number (date : ExtendedDate) : Int := dayNumber date.year date.month date.day

/-- The next calendar day. -/
def next (date : ExtendedDate) : ExtendedDate :=
  if date.day < (daysInMonthI64 date.year date.month).getD 0 then { date with day := date.day + 1 }
  else if date.month = 12 then ⟨date.year + 1, 1, 1⟩
  else ⟨date.year, date.month + 1, 1⟩

def Before (a b : ExtendedDate) : Prop :=
  a.year < b.year ∨ a.year = b.year ∧
    (a.month < b.month ∨ a.month = b.month ∧ a.day < b.day)

variable {a b date : ExtendedDate}

theorem Valid.length (h : date.Valid) :
    monthLength date.index = (daysInMonthI64 date.year date.month).getD 0 := by
  have hmonth := h.month
  rw [monthLength, show date.index / 12 = date.year by unfold index; omega,
    show (date.index % 12 + 1).toNat = date.month by unfold index; omega]

theorem Valid.number_eq (h : date.Valid) :
    date.number = monthStart date.index + date.day - 1 := by
  have hmonth := h.month
  rw [number, monthStart, show date.index / 12 = date.year by unfold index; omega,
    show date.index % 12 + 1 = date.month by unfold index; omega]
  simp only [dayNumber]
  omega

theorem monthLength_le (k : Int) : monthLength k ≤ 31 := by
  unfold monthLength daysInMonthI64
  split <;> (try split) <;> simp

theorem one_le_length {month : Nat} (h : 1 ≤ month ∧ month ≤ 12) (year : Int) :
    1 ≤ (daysInMonthI64 year month).getD 0 := by
  fun_cases daysInMonthI64 year month <;> grind

theorem monthStart_mono : Monotone monthStart :=
  monotone_int_of_le_succ fun k => by
    rw [monthStart_succ]
    omega

/-- The days of a month come before those of a later one. -/
theorem number_lt_of_index_lt (ha : a.Valid) (hb : b.Valid) (h : a.index < b.index) :
    a.number < b.number := by
  have hday := ha.day
  have hday' := hb.day
  rw [← ha.length] at hday
  have hmono := monthStart_mono (Int.add_one_le_of_lt h)
  rw [monthStart_succ] at hmono
  rw [ha.number_eq, hb.number_eq]
  omega

theorem number_lt_of_before (ha : a.Valid) (hb : b.Valid) (h : a.Before b) :
    a.number < b.number := by
  have hma := ha.month
  have hmb := hb.month
  -- in a later month, or on a later day of the same one
  by_cases hindex : a.index < b.index
  · exact number_lt_of_index_lt ha hb hindex
  · have heq : a.index = b.index ∧ a.day < b.day := by
      unfold index at hindex ⊢
      unfold Before at h
      omega
    rw [ha.number_eq, hb.number_eq, heq.1]
    omega

theorem Valid.next (h : date.Valid) : date.next.Valid := by
  have hmonth := h.month
  unfold ExtendedDate.next
  split_ifs with hday hlast
  · exact ⟨hmonth, Nat.succ_pos _, hday⟩
  · have hm : 1 ≤ 1 ∧ 1 ≤ 12 := by decide
    exact ⟨hm, le_rfl, one_le_length hm _⟩
  · have hm : 1 ≤ date.month + 1 ∧ date.month + 1 ≤ 12 := by omega
    exact ⟨hm, le_rfl, one_le_length hm _⟩

theorem Valid.number_next (h : date.Valid) : date.next.number = date.number + 1 := by
  have hday := h.day
  -- within a month by the day, across its end by the start of the next one
  have hsucc := monthStart_succ date.index
  rw [h.next.number_eq, h.number_eq]
  rw [h.length] at hsucc
  unfold ExtendedDate.next
  split_ifs with hlt hlast
  · show monthStart date.index + ((date.day + 1 : Nat) : Int) - 1 = _
    omega
  · rw [show index ⟨date.year + 1, 1, 1⟩ = date.index + 1 by simp only [index]; omega, hsucc]
    show _ + ((1 : Nat) : Int) - 1 = _
    omega
  · rw [show index ⟨date.year, date.month + 1, 1⟩ = date.index + 1 by simp only [index]; omega,
      hsucc]
    show _ + ((1 : Nat) : Int) - 1 = _
    omega

theorem eq_or_before (a b : ExtendedDate) : a = b ∨ a.Before b ∨ b.Before a := by
  rcases a with ⟨y, m, d⟩
  rcases b with ⟨y', m', d'⟩
  simp only [Before, ExtendedDate.mk.injEq]
  omega

theorem Valid.number_inj (ha : a.Valid) (hb : b.Valid) : a.number = b.number ↔ a = b := by
  refine ⟨fun heq => ?_, congrArg number⟩
  rcases eq_or_before a b with rfl | hlt | hlt
  · rfl
  · exact absurd heq (number_lt_of_before ha hb hlt).ne
  · exact absurd heq (number_lt_of_before hb ha hlt).ne'

/-- The valid dates whose years have at most 60 bits. -/
def dates : Set ExtendedDate := {date | date.Valid ∧ -2 ^ 60 < date.year ∧ date.year < 2 ^ 60}

def firstDate : ExtendedDate := ⟨-2 ^ 60 + 1, 1, 1⟩

def lastDate : ExtendedDate := ⟨2 ^ 60 - 1, 12, 31⟩

theorem first_mem : firstDate ∈ dates := ⟨⟨by decide, by decide⟩, by decide⟩

theorem last_mem : lastDate ∈ dates := ⟨⟨by decide, by decide⟩, by decide⟩

theorem Valid.daysFromCivil (h : date.Valid) (hyear : -2 ^ 60 < date.year ∧ date.year ≤ 2 ^ 60) :
    daysFromCivil date = some date.number :=
  daysFromCivil_eq h.month (h.day.2.trans (h.length.ge.trans (monthLength_le _))) hyear

theorem daysFromCivil_of_mem (h : date ∈ dates) : daysFromCivil date = some date.number :=
  h.1.daysFromCivil ⟨h.2.1, h.2.2.le⟩

theorem number_mem_Icc (h : date ∈ dates) :
    date.number ∈ Set.Icc firstDate.number lastDate.number := by
  have hmonth := h.1.month
  have hday := h.1.day
  have hle := monthLength_le date.index
  rw [h.1.length] at hle
  have hyear := h.2
  constructor
  · rcases eq_or_before date firstDate with rfl | hb | hb
    · exact le_rfl
    · simp only [Before, firstDate] at hb
      omega
    · exact (number_lt_of_before first_mem.1 h.1 hb).le
  · rcases eq_or_before date lastDate with rfl | hb | hb
    · exact le_rfl
    · exact (number_lt_of_before h.1 last_mem.1 hb).le
    · simp only [Before, lastDate] at hb
      omega

theorem next_year (h : date ∈ dates) : -2 ^ 60 < date.next.year ∧ date.next.year ≤ 2 ^ 60 := by
  have hyear := h.2
  unfold ExtendedDate.next
  split_ifs <;> (simp only; omega)

/-- Only the last date has its next day outside. -/
theorem next_mem (h : date ∈ dates) (hne : date ≠ lastDate) : date.next ∈ dates := by
  have hday := h.1.day
  refine ⟨h.1.next, ?_⟩
  have hyear := h.2
  unfold ExtendedDate.next
  split_ifs with hlt hmonth
  · exact hyear
  · -- the year after is outside only behind the last December
    refine ⟨by simp only; omega, lt_of_le_of_ne (by simp only; omega) fun heq => hne ?_⟩
    rcases date with ⟨y, m, d⟩
    simp only at hmonth heq hlt hday
    subst hmonth
    have hlen : (daysInMonthI64 y 12).getD 0 = 31 := rfl
    rw [hlen] at hlt hday
    rw [lastDate, ExtendedDate.mk.injEq]
    omega
  · exact hyear

theorem exists_number {n : Int} (hfirst : firstDate.number ≤ n) :
    n ≤ lastDate.number → ∃ date ∈ dates, date.number = n := by
  induction n, hfirst using Int.leInduction with
  | base => exact fun _ => ⟨_, first_mem, rfl⟩
  | succ n hn ih =>
    intro hlast
    -- the day after the date with the number before
    rcases ih (by omega) with ⟨date, hdate, rfl⟩
    refine ⟨date.next, next_mem hdate ?_, hdate.1.number_next⟩
    rintro rfl
    omega

/-- Day numbers count the days, from 1970 on, one by one, and every number up to the
    last date's is that of exactly one date. No intermediate result overflows. -/
theorem daysFromCivil_exact :
    daysFromCivil ⟨1970, 1, 1⟩ = some 0 ∧
    (∀ date ∈ dates, daysFromCivil date.next = (daysFromCivil date).map (· + 1)) ∧
    (∀ a ∈ dates, ∀ b ∈ dates, a.Before b →
      ∃ m n, daysFromCivil a = some m ∧ daysFromCivil b = some n ∧ m < n) ∧
    Set.BijOn daysFromCivil dates (some '' Set.Icc firstDate.number lastDate.number) := by
  refine ⟨rfl, fun date h => ?_, fun a ha b hb hlt => ?_, ?_, ?_, ?_⟩
  · rw [daysFromCivil_of_mem h, h.1.next.daysFromCivil (next_year h), h.1.number_next]
    rfl
  · exact ⟨_, _, daysFromCivil_of_mem ha, daysFromCivil_of_mem hb,
      number_lt_of_before ha.1 hb.1 hlt⟩
  · exact fun date h => ⟨_, number_mem_Icc h, (daysFromCivil_of_mem h).symm⟩
  · intro a ha b hb heq
    rw [daysFromCivil_of_mem ha, daysFromCivil_of_mem hb, Option.some_inj] at heq
    exact (ha.1.number_inj hb.1).mp heq
  · rintro _ ⟨n, ⟨hfirst, hlast⟩, rfl⟩
    rcases exists_number hfirst hlast with ⟨date, h, rfl⟩
    exact ⟨date, h, daysFromCivil_of_mem h⟩

end ExtendedDate

end UniDb.Temporal
