import Mathlib.Tactic.IntervalCases
import Xeibe.Arrow.Value
import Xeibe.Lib.Calendar

/-!
# The days of a date

`days_from_civil` counts years of 400 that begin in March.  Its count goes up by the
length of each year and of each month, so it is the number of the date.  No word
overflows for years of at most nine digits.
-/

namespace Xeibe.Arrow

open Lib Lib.Calendar

/-- The count of `daysFromCivil`. -/
def civil (year : Int) (month day : Nat) : Int :=
  let year := if month ≤ 2 then year - 1 else year
  let yearOfEra := year - year / 400 * 400
  let month : Int := month
  let fromMarch := if 2 < month then month - 3 else month + 9
  let dayOfYear := (153 * fromMarch + 2) / 5 + day - 1
  year / 400 * 146097 + (yearOfEra * 365 + yearOfEra / 4 - yearOfEra / 100 + dayOfYear) - 719468

theorem civil_succ (year : Int) : civil (year + 1) 1 1 = civil year 1 1 + yearLength year := by
  simp only [civil, yearLength, IsLeap]
  split <;> simp <;> omega

theorem civil_month (year : Int) {month : Nat} (hpos : 1 ≤ month) (hle : month ≤ 12) :
    civil year month 1 = civil year 1 1 + ∑ m ∈ Finset.Ico 1 month, monthLength year m := by
  interval_cases month <;> simp [Finset.sum_Ico_succ_top, monthLength, civil]
  -- The year of the code ends with February, the only month with two lengths.
  all_goals try split
  all_goals try simp only [IsLeap] at *
  all_goals omega

theorem civil_day (year : Int) (month day : Nat) :
    civil year month day = civil year month 1 + (day - 1) := by
  simp only [civil]
  omega

theorem civil_eq_number (d : Date) : civil d.year d.month d.day = d.number := by
  have hyear : civil d.year 1 1 = daysBefore d.year := by
    have h := eq_daysBefore (f := fun year => civil year 1 1) civil_succ d.year
    have hepoch : civil 1970 1 1 = 0 := by decide
    simpa [hepoch] using h
  rw [civil_day, civil_month d.year d.month_pos d.month_le, hyear, Date.number]

theorem Parse.signed_eq {bits : Nat} {x : Int} (hlow : -2 ^ (bits - 1) ≤ x)
    (hhigh : x < 2 ^ (bits - 1)) : Parse.signed bits x = .ok x :=
  if_pos ⟨hlow, hhigh⟩

theorem daysFromCivil_eq {year : Int} {month day : Nat} (hlow : -10 ^ 9 < year)
    (hhigh : year < 10 ^ 9) (hmonth : month ≤ 12) (hday : day ≤ 31) :
    daysFromCivil year month day = .ok (civil year month day) := by
  obtain ⟨fromMarch, hmarch⟩ : ∃ fromMarch : Int,
      fromMarch = if 2 < (month : Int) then (month : Int) - 3 else month + 9 := ⟨_, rfl⟩
  have hrange : 0 ≤ fromMarch ∧ fromMarch ≤ 11 := by
    rw [hmarch]
    split <;> omega
  obtain ⟨shifted, hshifted⟩ : ∃ shifted,
      shifted = if month ≤ 2 then year - 1 else year := ⟨_, rfl⟩
  have hfirst : (if month ≤ 2 then Parse.signed 64 (year - 1) else .ok year) =
      Except.ok shifted := by
    rw [hshifted]
    split
    · exact Parse.signed_eq (by omega) (by omega)
    · rfl
  have hbounds : -10 ^ 9 ≤ shifted ∧ shifted < 10 ^ 9 := by
    rw [hshifted]
    split <;> omega
  rw [daysFromCivil, hfirst, ok_bind]
  simp only [civil, ← hmarch, ← hshifted]
  clear hmarch hshifted hfirst
  repeat rw [Parse.signed_eq (by omega) (by omega), ok_bind]
  rw [Parse.signed_eq (by omega) (by omega)]

theorem day_le (d : Date) : d.day ≤ 31 := by
  have h := d.day_le
  simp only [monthLength] at h
  split at h
  · split at h <;> omega
  · split at h <;> omega

theorem number_bounds {d : Date} (hlow : -10 ^ 9 < d.year) (hhigh : d.year < 10 ^ 9) :
    -10 ^ 12 < d.number ∧ d.number < 10 ^ 12 := by
  have hmonth := d.month_le
  have hday := day_le d
  rw [← civil_eq_number, civil]
  split <;> split <;> omega

end Xeibe.Arrow
