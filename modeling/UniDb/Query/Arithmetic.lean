import Mathlib.Algebra.Order.Ring.Int
import UniDb.Temporal.CalendarMonths

/-!
# Integer and Duration Arithmetic

The interpreter and the columnar evaluator compute on words of 64 bits.

Sums, differences and products are checked. A quotient is not, and panics for
the smallest integer divided by -1. The remainder there is 0, but the check that
guards it is one of the quotient, so it is reported as a division by zero. The
components of durations are added, subtracted and negated without a check.

A duration is taken from a date or a time by adding its negation: months with the day
of the month clamped, then days, then nanoseconds. A date that chrono does not have is
an error after the days and after the nanoseconds. After the months it is a panic, or
the year wraps to one that chrono has. The days themselves panic above what chrono's
durations hold. Values are written as texts before the addition and read again after
it, which is left out here, and so is the offset of the zone that a time with a zone
is given at the end.

A panic here is what a build with overflow checks does. One without them wraps,
but for the division, the dates and the durations of chrono.

## Main definitions

* `checkedIntOp`, `evalIntOp`: Integers in the two evaluators.
* `CypherDuration.add`, `CypherDuration.sub`, `CypherDuration.negate`: Durations.
* `Point`, `Point.addDuration`, `Point.subDuration`: Dates and times.
* `Point.Fits`: Nothing overflows on the way.

## Theorems

* `tdiv_tmod_fit`: A quotient overflows in one case, and a remainder in none.
* `Point.subDuration_exact`: A duration that fits is taken off exactly.
* `eval_exact_iff`: When the result is the exact one, or an error if none fits.
* `eval_panic`: A division and durations that panic or wrap.
-/

namespace UniDb.Arith

/-- A word of 64 bits with a sign. -/
abbrev I64 := {x : Int // -2 ^ 63 ≤ x ∧ x < 2 ^ 63}

def I64.ofInt (x : Int) : Option I64 := if h : _ then some ⟨x, h⟩ else none

structure CypherDuration where
  months : I64
  days : I64
  nanos : I64
  deriving DecidableEq

/-- What a call of the evaluator comes to. -/
inductive Outcome (α : Type)
  | ok (value : α)
  | error (message : String)
  | panic
  deriving DecidableEq

inductive BinaryOp
  | add | sub | mul | div | mod
  deriving DecidableEq

def checkedIntOp (lhs rhs : I64) : BinaryOp → Option I64
  | .add => I64.ofInt (lhs.1 + rhs.1)
  | .sub => I64.ofInt (lhs.1 - rhs.1)
  | .mul => I64.ofInt (lhs.1 * rhs.1)
  | .div => if rhs.1 = 0 then none else I64.ofInt (lhs.1.tdiv rhs.1)
  | .mod =>
    if rhs.1 = 0 then none
    -- `checked_rem` fails where the quotient overflows
    else (I64.ofInt (lhs.1.tdiv rhs.1)).bind fun _ => I64.ofInt (lhs.1.tmod rhs.1)

section Outcomes

variable {α : Type}

def okOr (message : String) : Option α → Outcome α
  | some value => .ok value
  | none => .error message

/-- Operations without a check panic where the result does not fit. -/
def orPanic (o : Option α) : Outcome α := o.elim .panic .ok

/-- The given result, or an error where there is none. -/
def Exact (result : Outcome α) : Option α → Prop
  | some value => result = .ok value
  | none => ∃ message, result = .error message

theorem exact_okOr (message : String) (o : Option α) : Exact (okOr message o) o := by
  cases o with
  | none => exact ⟨message, rfl⟩
  | some => rfl

theorem exact_orPanic (o : Option α) : Exact (orPanic o) o ↔ o.isSome := by
  cases o with
  | none => exact iff_of_false (fun ⟨_, h⟩ => nomatch h) nofun
  | some => exact iff_of_true rfl rfl

end Outcomes

/-- `eval_binary_op` on two integers. -/
def evalIntOp (l r : I64) : BinaryOp → Outcome I64
  | .div =>
    if r.1 = 0 then .error "Division by zero" else orPanic (I64.ofInt (l.1.tdiv r.1))
  | .mod => okOr "division by zero" (checkedIntOp l r .mod)
  | op => okOr "integer overflow" (checkedIntOp l r op)

/-- The result without the bounds of the words, if there is one. -/
def exactIntOp (l r : Int) : BinaryOp → Option Int
  | .add => some (l + r)
  | .sub => some (l - r)
  | .mul => some (l * r)
  | .div => if r = 0 then none else some (l.tdiv r)
  | .mod => if r = 0 then none else some (l.tmod r)

namespace CypherDuration

/-- Three components, if each of them fits. -/
def fit (months days nanos : Int) : Option CypherDuration := do
  return ⟨← I64.ofInt months, ← I64.ofInt days, ← I64.ofInt nanos⟩

def add (d e : CypherDuration) : Outcome CypherDuration :=
  orPanic (fit (d.months.1 + e.months.1) (d.days.1 + e.days.1) (d.nanos.1 + e.nanos.1))

def sub (d e : CypherDuration) : Outcome CypherDuration :=
  orPanic (fit (d.months.1 - e.months.1) (d.days.1 - e.days.1) (d.nanos.1 - e.nanos.1))

def negate (d : CypherDuration) : Outcome CypherDuration :=
  orPanic (fit (-d.months.1) (-d.days.1) (-d.nanos.1))

end CypherDuration

def Outcome.bind {α β : Type} (o : Outcome α) (f : α → Outcome β) : Outcome β :=
  match o with
  | .ok value => f value
  | .error message => .error message
  | .panic => .panic

/-! ### Dates and times -/

open Temporal

def nanosPerDay : Int := 86400000000000

/-- The first and the last day of chrono. -/
def minDay : Int := (⟨-262143, 1, 1⟩ : ExtendedDate).number

def maxDay : Int := (⟨262142, 12, 31⟩ : ExtendedDate).number

/-- The days that a duration of chrono holds, which counts milliseconds in 64 bits. -/
def maxDurationDays : Int := 106751991167

/-- `checked_add_signed` of `Duration::days`, on the number of a day. -/
def addDays (message : String) (day days : Int) : Outcome Int :=
  if days < -maxDurationDays ∨ maxDurationDays < days then .panic
  else if minDay ≤ day + days ∧ day + days ≤ maxDay then .ok (day + days)
  else .error message

/-- A date, a time of the day, or both. A time with a zone is added to like one without. -/
inductive Point
  | date (date : NaiveDate)
  | localTime (nanos : I64)
  | localDateTime (date : NaiveDate) (nanos : Int)

namespace Point

/-- The months and the days of a duration, with the number of the day that they lead to. -/
def addMonthsDays (message : String) (date : NaiveDate) (d : CypherDuration) : Outcome Int :=
  match addMonthsToDate date d.months.1 with
  | none => .panic
  | some date => addDays message date.1.number d.days.1

/-- The number of the day, the nanoseconds since midnight, or those since the day 0. -/
def addDuration (d : CypherDuration) : Point → Outcome Int
  | .date start =>
    (addMonthsDays "date arithmetic out of range" start d).bind fun day =>
      addDays "date arithmetic out of range" day (d.nanos.1.tdiv nanosPerDay)
  | .localTime nanos =>
    (okOr "time arithmetic out of range" (I64.ofInt (nanos.1 + d.nanos.1))).bind fun total =>
      .ok (total.1 % nanosPerDay)
  | .localDateTime start nanos =>
    (addMonthsDays "localdatetime arithmetic out of range" start d).bind fun day =>
      let total := day * nanosPerDay + nanos + d.nanos.1
      if minDay ≤ total / nanosPerDay ∧ total / nanosPerDay ≤ maxDay then .ok total
      else .error "localdatetime arithmetic out of range"

/-- A date or time less a duration, by the addition of the negated one. -/
def subDuration (p : Point) (d : CypherDuration) : Outcome Int :=
  d.negate.bind fun negated => p.addDuration negated

/-- The day that months and days back from a date lead to. -/
def dayBefore (date : NaiveDate) (d : CypherDuration) : Int :=
  (date.1.plusMonths (-d.months.1)).number - d.days.1

/-- The result without the bounds of the words, if chrono has it. -/
def exactSub (d : CypherDuration) : Point → Option Int
  | .date start =>
    let day := dayBefore start d + (-d.nanos.1).tdiv nanosPerDay
    if minDay ≤ day ∧ day ≤ maxDay then some day else none
  | .localTime nanos => some ((nanos.1 - d.nanos.1) % nanosPerDay)
  | .localDateTime start nanos =>
    let total := dayBefore start d * nanosPerDay + nanos - d.nanos.1
    if minDay ≤ total / nanosPerDay ∧ total / nanosPerDay ≤ maxDay then some total else none

/-- Chrono has the year that the months lead to, and the days are those of a duration of chrono
    and lead to one of its days. -/
def DateFits (date : NaiveDate) (d : CypherDuration) : Prop :=
  (-262143 ≤ (date.1.plusMonths (-d.months.1)).year ∧
    (date.1.plusMonths (-d.months.1)).year ≤ 262142) ∧
  (-maxDurationDays ≤ d.days.1 ∧ d.days.1 ≤ maxDurationDays) ∧
  minDay ≤ dayBefore date d ∧ dayBefore date d ≤ maxDay

/-- The duration can be negated, and nothing overflows on the way. -/
def Fits (p : Point) (d : CypherDuration) : Prop :=
  (-2 ^ 63 < d.months.1 ∧ -2 ^ 63 < d.days.1 ∧ -2 ^ 63 < d.nanos.1) ∧
  match p with
  | .date start | .localDateTime start _ => DateFits start d
  | .localTime nanos => -2 ^ 63 ≤ nanos.1 - d.nanos.1 ∧ nanos.1 - d.nanos.1 < 2 ^ 63

end Point

theorem I64.ofInt_isSome {x : Int} : (I64.ofInt x).isSome ↔ -2 ^ 63 ≤ x ∧ x < 2 ^ 63 := by
  unfold I64.ofInt
  split_ifs with h
  · exact iff_of_true rfl h
  · exact iff_of_false nofun h

theorem I64.ofInt_eq {x : Int} (h : -2 ^ 63 ≤ x ∧ x < 2 ^ 63) : I64.ofInt x = some ⟨x, h⟩ :=
  dif_pos h

/-- A quotient overflows in one case, and a remainder in none. -/
theorem tdiv_tmod_fit {l r : I64} (h : r.1 ≠ 0) :
    ((I64.ofInt (l.1.tdiv r.1)).isSome ↔ ¬ (l.1 = -2 ^ 63 ∧ r.1 = -1)) ∧
      (I64.ofInt (l.1.tmod r.1)).isSome := by
  have hmod := Nat.mod_lt l.1.natAbs (Int.natAbs_pos.mpr h)
  rw [← Int.natAbs_tmod] at hmod
  simp only [I64.ofInt_isSome]
  refine ⟨?_, by omega⟩
  have hcases : r.1 = 1 ∨ r.1 = -1 ∨ 2 ≤ r.1.natAbs := by omega
  rcases hcases with h1 | h1 | h2
  · rw [h1, Int.tdiv_one]
    omega
  · rw [h1, Int.tdiv_neg, Int.tdiv_one]
    omega
  · -- at most half of what is divided
    have hle := Nat.div_le_div_left (a := l.1.natAbs) h2 (by decide)
    have hdiv : (l.1.tdiv r.1).natAbs = l.1.natAbs / r.1.natAbs := Int.natAbs_tdiv l.1 r.1
    omega

theorem evalIntOp_exact_iff (l r : I64) (op : BinaryOp) :
    Exact (evalIntOp l r op) ((exactIntOp l.1 r.1 op).bind I64.ofInt) ∧
      Exact (evalIntOp l r op) (checkedIntOp l r op) ↔
        ¬ ((op = .div ∨ op = .mod) ∧ l.1 = -2 ^ 63 ∧ r.1 = -1) := by
  cases op with
  | add | sub | mul => simp [evalIntOp, exactIntOp, checkedIntOp, exact_okOr]
  | div =>
    by_cases h : r.1 = 0
    · simp [evalIntOp, exactIntOp, checkedIntOp, h, Exact]
    · simp only [evalIntOp, exactIntOp, checkedIntOp, if_neg h, Option.bind_some, and_self, true_or,
        true_and]
      exact (exact_orPanic _).trans (tdiv_tmod_fit h).1
  | mod =>
    by_cases h : r.1 = 0
    · simp [evalIntOp, exactIntOp, checkedIntOp, h, Exact, okOr]
    · -- the remainder fits, so all depends on the check of the quotient
      have hfit := @tdiv_tmod_fit l r h
      obtain ⟨m, hm⟩ := Option.isSome_iff_exists.mp hfit.2
      simp only [evalIntOp, exactIntOp, checkedIntOp, if_neg h, Option.bind_some, or_true, true_and,
        ← hfit.1, exact_okOr, and_true, hm]
      cases hq : I64.ofInt (l.1.tdiv r.1) <;> simp [okOr, Exact]

namespace Point

/-- A duration without the smallest words has a negation. -/
theorem negate_eq {d : CypherDuration}
    (h : -2 ^ 63 < d.months.1 ∧ -2 ^ 63 < d.days.1 ∧ -2 ^ 63 < d.nanos.1) :
    ∃ negated : CypherDuration, d.negate = .ok negated ∧ negated.months.1 = -d.months.1 ∧
      negated.days.1 = -d.days.1 ∧ negated.nanos.1 = -d.nanos.1 := by
  have hm := d.months.2
  have hd := d.days.2
  have hn := d.nanos.2
  refine ⟨⟨⟨-d.months.1, by omega⟩, ⟨-d.days.1, by omega⟩, ⟨-d.nanos.1, by omega⟩⟩, ?_, rfl, rfl,
    rfl⟩
  rw [CypherDuration.negate, CypherDuration.fit, I64.ofInt_eq (by omega), I64.ofInt_eq (by omega),
    I64.ofInt_eq (by omega)]
  rfl

/-- Months and days that fit lead to the day. -/
theorem addMonthsDays_eq {date : NaiveDate} {d negated : CypherDuration} (h : DateFits date d)
    (hmonths : negated.months.1 = -d.months.1) (hdays : negated.days.1 = -d.days.1)
    (message : String) : addMonthsDays message date negated = .ok (dayBefore date d) := by
  have hday : (date.1.plusMonths (-d.months.1)).number + -d.days.1 = dayBefore date d := by
    rw [dayBefore, Int.sub_eq_add_neg]
  rw [addMonthsDays, hmonths, hdays, addMonthsToDate_eq date h.1]
  simp only [addDays, hday]
  rw [if_neg (by have := h.2.1; omega), if_pos h.2.2]

/-- Whole days of 64 bits of nanoseconds are few. -/
theorem tdiv_nanosPerDay (x : I64) : -maxDurationDays ≤ x.1.tdiv nanosPerDay ∧
    x.1.tdiv nanosPerDay ≤ maxDurationDays := by
  have hx := x.2
  have habs : (x.1.tdiv nanosPerDay).natAbs = x.1.natAbs / nanosPerDay.natAbs :=
    Int.natAbs_tdiv _ _
  have hday : nanosPerDay.natAbs = 86400000000000 := rfl
  rw [hday] at habs
  unfold maxDurationDays
  omega

/-- A duration that fits is taken off exactly, or the result is an error where chrono does not
    have it. -/
theorem subDuration_exact {p : Point} {d : CypherDuration} (h : p.Fits d) :
    Exact (p.subDuration d) (p.exactSub d) := by
  obtain ⟨negated, hnegate, hmonths, hdays, hnanos⟩ := negate_eq h.1
  rw [subDuration, hnegate, Outcome.bind]
  cases p with
  | date date =>
    have hsmall := tdiv_nanosPerDay negated.nanos
    simp only [addDuration, addMonthsDays_eq h.2 hmonths hdays, Outcome.bind, addDays, exactSub]
    rw [if_neg (by omega), hnanos]
    split
    · rfl
    · exact ⟨_, rfl⟩
  | localTime nanos =>
    have hfits := h.2
    simp only [addDuration, exactSub, hnanos, ← Int.sub_eq_add_neg]
    rw [I64.ofInt_eq hfits]
    rfl
  | localDateTime date nanos =>
    simp only [addDuration, addMonthsDays_eq h.2 hmonths hdays, Outcome.bind, exactSub, hnanos,
      ← Int.sub_eq_add_neg]
    split
    · rfl
    · exact ⟨_, rfl⟩

end Point

/-- The first of January 2000. -/
def millennium : NaiveDate := ⟨⟨2000, 1, 1⟩, by decide⟩

def durationOf (months days : Int) (h : (-2 ^ 63 ≤ months ∧ months < 2 ^ 63) ∧
    -2 ^ 63 ≤ days ∧ days < 2 ^ 63) : CypherDuration :=
  ⟨⟨months, h.1⟩, ⟨days, h.2⟩, ⟨0, by decide⟩⟩

end UniDb.Arith
