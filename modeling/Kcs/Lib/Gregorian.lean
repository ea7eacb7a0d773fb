import Mathlib

/-!
# The Gregorian calendar

Days are counted from the first day of the year zero, year by year and month by month.

Main results:

- Theorem {lit}`Gregorian.dayNumber_eq_march`: the number of a day by a year that starts in March.
-/

namespace Gregorian

/-- A year with 29 days in February. -/
def IsLeap (y : Nat) : Prop := 4 ∣ y ∧ (100 ∣ y → 400 ∣ y)

instance (y : Nat) : Decidable (IsLeap y) := inferInstanceAs (Decidable (_ ∧ _))

/-- The days of a year. -/
def yearLength (y : Nat) : Nat := if IsLeap y then 366 else 365

/-- The days of a month, which are counted from zero. -/
def monthLength (y : Nat) : Nat → Nat
  | 1 => if IsLeap y then 29 else 28
  | 3 | 5 | 8 | 10 => 30
  | _ => 31

/-- The days in front of a year. -/
def daysBeforeYear : Nat → Nat
  | 0 => 0
  | y + 1 => daysBeforeYear y + yearLength y

/-- The days of a year in front of a month. -/
def daysBeforeMonth (y : Nat) : Nat → Nat
  | 0 => 0
  | m + 1 => daysBeforeMonth y m + monthLength y m

/-- The number of a day; the days of a month are counted from one. -/
def dayNumber (y m d : Nat) : Int := daysBeforeYear y + daysBeforeMonth y m + d - 1

theorem daysBeforeYear_succ (y : Nat) :
    daysBeforeYear (y + 1) + y / 100 = 365 * y + y / 4 + y / 400 + 366 := by
  induction y with
  | zero => rfl
  | succ y ih =>
    rw [daysBeforeYear, yearLength]
    split
    · rename_i h
      unfold IsLeap at h
      omega
    · rename_i h
      unfold IsLeap at h
      omega

/-- The year that starts in March and has a month of a year. -/
def marchYear (y m : Nat) : Nat := if m < 2 then y - 1 else y

/-- The number of a month in the year that starts in March, counted from one. -/
def marchMonth (m : Nat) : Nat := if m < 2 then m + 11 else m - 1

theorem daysBeforeMonth_eq (y : Nat) {m : Nat} (h : m < 12) :
    daysBeforeMonth y m + (if m < 2 then 336 else 0) =
      367 * marchMonth m / 12 + if m < 2 then 0 else 29 + if IsLeap y then 1 else 0 := by
  interval_cases m <;> simp [daysBeforeMonth, monthLength, marchMonth] <;> split <;> rfl

theorem dayNumber_eq_march {y m : Nat} (hy : 0 < y) (hm : m < 12) (d : Nat) :
    dayNumber y m d = 365 * (marchYear y m : Int) + marchYear y m / 4 - marchYear y m / 100 +
      marchYear y m / 400 + 367 * (marchMonth m : Int) / 12 + d + 29 := by
  have hmonth := daysBeforeMonth_eq y hm
  rw [dayNumber, marchYear]
  by_cases hfirst : m < 2
  · rcases Nat.exists_eq_add_of_lt hy with ⟨z, rfl⟩
    have hyear := daysBeforeYear_succ (0 + z)
    rw [if_pos hfirst, if_pos hfirst] at hmonth
    rw [if_pos hfirst, Nat.add_sub_cancel]
    omega
  · have hnext := daysBeforeYear_succ y
    rw [daysBeforeYear, yearLength] at hnext
    rw [if_neg hfirst, if_neg hfirst] at hmonth
    rw [if_neg hfirst]
    -- A leap day moves the months from March on, and the next year.
    by_cases hleap : IsLeap y
    · rw [if_pos hleap] at hmonth hnext
      omega
    · rw [if_neg hleap] at hmonth hnext
      omega

end Gregorian
