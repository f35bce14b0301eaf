import Mathlib.Algebra.BigOperators.Intervals
import Mathlib.Algebra.BigOperators.Group.Finset.Basic
import Mathlib.Algebra.Order.Ring.Int

/-!
# The proleptic Gregorian calendar

Dates by their year, month and day, with the rule of the leap years for all years
before and after, and their number: the days counted from 1970-01-01, year by
year and month by month.
-/

namespace Xeibe.Lib.Calendar

def IsLeap (year : Int) : Prop := (year % 4 = 0 ∧ year % 100 ≠ 0) ∨ year % 400 = 0

instance (year : Int) : Decidable (IsLeap year) := inferInstanceAs (Decidable (_ ∨ _))

def yearLength (year : Int) : Int := if IsLeap year then 366 else 365

def monthLength (year : Int) (month : Nat) : Int :=
  if month = 2 then if IsLeap year then 29 else 28
  else if month = 4 ∨ month = 6 ∨ month = 9 ∨ month = 11 then 30
  else 31

/-- The days of the years from 1970 up to a year; those since it, negated, if it is
before. -/
def daysBefore (year : Int) : Int :=
  match year - 1970 with
  | .ofNat n => ∑ i ∈ Finset.range n, yearLength (1970 + i)
  | .negSucc n => -∑ i ∈ Finset.range (n + 1), yearLength (1969 - i)

/-- A date of the calendar. -/
structure Date where
  year : Int
  month : Nat
  day : Nat
  month_pos : 1 ≤ month
  month_le : month ≤ 12
  day_pos : 1 ≤ day
  day_le : (day : Int) ≤ monthLength year month

/-- The days since 1970-01-01. -/
def Date.number (d : Date) : Int :=
  daysBefore d.year + ∑ m ∈ Finset.Ico 1 d.month, monthLength d.year m + (d.day - 1)

/-- What counts on by the length of each year counts the days of the years. -/
theorem eq_daysBefore {f : Int → Int} (hstep : ∀ year, f (year + 1) = f year + yearLength year)
    (year : Int) : f year = f 1970 + daysBefore year := by
  obtain ⟨k, rfl⟩ : ∃ k, year = 1970 + k := ⟨year - 1970, by omega⟩
  rw [daysBefore, add_sub_cancel_left]
  cases k with
  | ofNat n =>
    show f (1970 + n) = f 1970 + ∑ i ∈ Finset.range n, yearLength (1970 + i)
    induction n with
    | zero => simp
    | succ n ih =>
      have h := hstep (1970 + n)
      rw [Finset.sum_range_succ, ← add_assoc, ← ih, ← h]
      congr 1
  | negSucc n =>
    show f (1970 + Int.negSucc n) = f 1970 + -∑ i ∈ Finset.range (n + 1), yearLength (1969 - i)
    have hback : ∀ n : Nat,
        f (1970 - n) = f 1970 + -∑ i ∈ Finset.range n, yearLength (1969 - i) := by
      intro n
      induction n with
      | zero => simp
      | succ n ih =>
        have h := hstep (1969 - n)
        have heq : (1969 : Int) - n + 1 = 1970 - n := by omega
        rw [heq] at h
        have heq' : (1970 : Int) - (n + 1 : Nat) = 1969 - n := by omega
        rw [Finset.sum_range_succ, heq']
        omega
    have heq : (1970 : Int) + Int.negSucc n = 1970 - (n + 1 : Nat) := by omega
    rw [heq]
    exact hback (n + 1)

end Xeibe.Lib.Calendar
