import Mathlib.Algebra.Order.Ring.Int
import Mathlib.Algebra.BigOperators.Group.List.Basic

/-!
# The Text of a Duration

A duration too long for 64 bits is printed as hours, minutes and seconds.

Truncating division gives each part the sign of the whole. Hours and minutes
are printed with theirs. Seconds with a fraction are printed from absolute
values, and their sign is put back only where there are no whole seconds.

## Theorems

* `printed_eq_iff`: When the components add up to the duration.
* `printed_negative`: A duration that is printed without its sign.
-/

namespace UniDb.Temporal

open List

inductive Designator
  | hours | minutes | seconds
  deriving DecidableEq

def Designator.nanos : Designator → Int
  | .hours => 3600000000000
  | .minutes => 60000000000
  | .seconds => 1000000000

def Designator.letter : Designator → String
  | .hours => "H"
  | .minutes => "M"
  | .seconds => "S"

/-- One component of the text, such as `-1.5S`, with the digits after the point. -/
structure Component where
  negative : Bool
  whole : Nat
  frac : List Nat
  designator : Designator
  deriving DecidableEq

/-- The digits of `n`, padded to a width. -/
def padded : Nat → Nat → List Nat
  | 0, _ => []
  | w + 1, n => n / 10 ^ w :: padded w (n % 10 ^ w)

/-- `trim_end_matches('0')`. -/
def trimEndZeros : List Nat → List Nat
  | [] => []
  | d :: ds => if trimEndZeros ds = [] ∧ d = 0 then [] else d :: trimEndZeros ds

/-- What digits after the point stand for, in units of the last of `w` places. -/
def fraction : Nat → List Nat → Nat
  | w + 1, d :: ds => d * 10 ^ w + fraction w ds
  | _, _ => 0

def Component.value (c : Component) : Int :=
  let abs := c.whole * c.designator.nanos + fraction 9 c.frac
  if c.negative then -abs else abs

def signed (x : Int) (designator : Designator) : Component := ⟨x < 0, x.natAbs, [], designator⟩

/-- The components that stand after `PT`. -/
def timeComponents (totalNanos : Int) : List Component :=
  if totalNanos = 0 then [signed 0 .seconds]
  else
    let totalSecs := totalNanos.tdiv 1000000000
    let remNanos := totalNanos.tmod 1000000000
    let hours := totalSecs.tdiv 3600
    let remAfterHours := totalSecs.tmod 3600
    let minutes := remAfterHours.tdiv 60
    let seconds := remAfterHours.tmod 60
    let out :=
      (if hours ≠ 0 then [signed hours .hours] else []) ++
      (if minutes ≠ 0 then [signed minutes .minutes] else []) ++
      if seconds ≠ 0 ∨ remNanos ≠ 0 then
        if remNanos = 0 then [signed seconds .seconds]
        else
          [⟨totalNanos < 0 ∧ seconds = 0, seconds.natAbs,
            trimEndZeros (padded 9 remNanos.natAbs), .seconds⟩]
      else []
    if out = [] then [signed 0 .seconds] else out

def Component.text (c : Component) : String :=
  let sign := if c.negative then "-" else ""
  let frac := if c.frac = [] then "" else "." ++ String.join (c.frac.map toString)
  sign ++ toString c.whole ++ frac ++ c.designator.letter

def formatTimeOnlyDurationNanos (totalNanos : Int) : String :=
  "PT" ++ String.join ((timeComponents totalNanos).map Component.text)

/-- The sum of the printed components. -/
def printed (totalNanos : Int) : Int := ((timeComponents totalNanos).map (·.value)).sum

theorem fraction_padded {w n : Nat} (h : n < 10 ^ w) : fraction w (padded w n) = n := by
  induction w generalizing n with
  | zero => simp_all [fraction]
  | succ w ih =>
    rw [padded, fraction, ih (Nat.mod_lt _ (Nat.pow_pos (by decide))), Nat.div_add_mod']

theorem fraction_trimEndZeros (w : Nat) (ds : List Nat) :
    fraction w (trimEndZeros ds) = fraction w ds := by
  induction ds generalizing w with
  | nil => rfl
  | cons d ds ih =>
    cases w with
    | zero => simp [fraction]
    | succ w =>
      rw [trimEndZeros, fraction, ← ih w]
      split_ifs with h
      · simp [h, fraction]
      · rfl

variable {x y total seconds rem : Int} (designator : Designator)

@[simp]
theorem value_signed : (signed x designator).value = x * designator.nanos := by
  simp only [signed, Component.value, fraction, decide_eq_true_eq]
  cases designator <;> simp only [Designator.nanos] <;> omega

/-- The whole seconds carry no sign. -/
theorem value_seconds (h : rem.natAbs < 10 ^ 9) :
    Component.value ⟨total < 0 ∧ seconds = 0, seconds.natAbs,
      trimEndZeros (padded 9 rem.natAbs), .seconds⟩ =
      if total < 0 ∧ seconds = 0 then -(rem.natAbs : Int)
      else seconds.natAbs * 1000000000 + rem.natAbs := by
  simp only [Component.value, fraction_trimEndZeros, fraction_padded h, decide_eq_true_eq,
    Designator.nanos]
  split_ifs with hneg
  · simp [hneg.2]
  · rfl

theorem trunc_spec (hy : 0 < y) :
    y * x.tdiv y + x.tmod y = x ∧ (x.tmod y).natAbs < y ∧
      (0 ≤ x → 0 ≤ x.tdiv y ∧ 0 ≤ x.tmod y) ∧ (x ≤ 0 → x.tdiv y ≤ 0 ∧ x.tmod y ≤ 0) := by
  have hlt := Int.tmod_lt_of_pos x hy
  have hgt := Int.lt_tmod_of_pos x hy
  refine ⟨Int.mul_tdiv_add_tmod x y, by omega, fun h => ?_, fun h => ?_⟩
  · exact ⟨Int.tdiv_nonneg h hy.le, Int.tmod_nonneg y h⟩
  · have hdiv := Int.tdiv_nonneg (Int.neg_nonneg_of_nonpos h) hy.le
    have hmod := Int.tmod_nonneg y (Int.neg_nonneg_of_nonpos h)
    rw [Int.neg_tdiv] at hdiv
    rw [Int.neg_tmod] at hmod
    omega

theorem sum_nonzero : ((if x ≠ 0 then [signed x designator] else []).map (·.value)).sum =
    x * designator.nanos := by
  split_ifs with h <;> simp_all

theorem sum_orZero (out : List Component) :
    ((if out = [] then [signed 0 .seconds] else out).map (·.value)).sum =
      (out.map (·.value)).sum := by
  split_ifs with h
  · simp [h]
  · rfl

/-- The text stands for the duration unless that is negative and has both whole seconds, apart from
    the hours and minutes, and a fraction: these are then printed without their sign. -/
theorem printed_eq_iff (totalNanos : Int) :
    printed totalNanos = totalNanos ↔
      0 ≤ totalNanos ∨ ((totalNanos.tdiv 1000000000).tmod 3600).tmod 60 = 0 ∨
        totalNanos.tmod 1000000000 = 0 := by
  by_cases h0 : totalNanos = 0
  · subst h0
    decide
  have hsecs := trunc_spec (x := totalNanos) (y := 1000000000) (by decide)
  have hhours := trunc_spec (x := totalNanos.tdiv 1000000000) (y := 3600) (by decide)
  have hminutes := trunc_spec (x := (totalNanos.tdiv 1000000000).tmod 3600) (y := 60) (by decide)
  unfold printed timeComponents
  rw [if_neg h0]
  simp only
  rw [sum_orZero, map_append, map_append, sum_append, sum_append, sum_nonzero, sum_nonzero]
  simp only [apply_ite (List.map Component.value), apply_ite List.sum, map_cons, map_nil,
    sum_cons, sum_nil, value_signed, Designator.nanos]
  rw [value_seconds (by omega)]
  -- hours and minutes add up; what is left is the sign of the seconds
  generalize totalNanos.tmod 1000000000 = rem at *
  generalize ((totalNanos.tdiv 1000000000).tmod 3600).tmod 60 = seconds at *
  split_ifs <;> omega

/-- A duration below the words of 64 bits, of which the seconds are printed without their sign. -/
theorem printed_negative :
    formatTimeOnlyDurationNanos (-10000000001500000000) = "PT-2777777H-46M41.5S" ∧
      printed (-10000000001500000000) = -9999999918500000000 := by
  decide +kernel

end UniDb.Temporal
