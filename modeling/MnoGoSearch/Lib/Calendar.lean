import Mathlib.Algebra.Order.BigOperators.Group.Finset
import Mathlib.Algebra.BigOperators.Intervals
import Mathlib.Data.List.Basic
import Mathlib.Tactic.IntervalCases

/-!
# The calendar

Days and times of the Gregorian calendar, with the year 0 as the first one, and the days in front of a year and of a
month in closed form (`daysBefore_eq`, `daysBeforeMonth_eq`).
-/

namespace MnoGoSearch.Lib.Calendar

open Finset

/-- The years with 29 days in February. -/
def IsLeap (year : ℕ) : Prop := year % 4 = 0 ∧ (year % 100 ≠ 0 ∨ year % 400 = 0)

instance (year : ℕ) : Decidable (IsLeap year) := inferInstanceAs (Decidable (_ ∧ _))

/-- The days of a year. -/
def yearLength (year : ℕ) : ℕ := if IsLeap year then 366 else 365

/-- The days of a month, from 1 to 12. -/
def monthLength (year : ℕ) : ℕ → ℕ
  | 1 | 3 | 5 | 7 | 8 | 10 | 12 => 31
  | 4 | 6 | 9 | 11 => 30
  | 2 => if IsLeap year then 29 else 28
  | _ => 0

/-- The days in front of a year. -/
def daysBefore (year : ℕ) : ℕ := ∑ y ∈ range year, yearLength y

/-- The days in front of a month. -/
def daysBeforeMonth (year month : ℕ) : ℕ := ∑ m ∈ range month, monthLength year m

/-- A date and a time. -/
structure Civil where
  year : ℕ
  month : ℕ
  day : ℕ
  hour : ℕ
  minute : ℕ
  second : ℕ

/-- The day exists. -/
def Civil.DayExists (c : Civil) : Prop := 1 ≤ c.month ∧ c.month ≤ 12 ∧ 1 ≤ c.day ∧ c.day ≤ monthLength c.year c.month

/-- The time exists. -/
def Civil.TimeExists (c : Civil) : Prop := c.hour < 24 ∧ c.minute < 60 ∧ c.second < 60

/-- The date and the time exist. -/
def Civil.Exists (c : Civil) : Prop := c.DayExists ∧ c.TimeExists

instance (c : Civil) : Decidable c.DayExists := inferInstanceAs (Decidable (_ ∧ _))

instance (c : Civil) : Decidable c.TimeExists := inferInstanceAs (Decidable (_ ∧ _))

instance (c : Civil) : Decidable c.Exists := inferInstanceAs (Decidable (_ ∧ _))

/-- The number of a day. -/
def Civil.dayNumber (c : Civil) : ℕ := daysBefore c.year + daysBeforeMonth c.year c.month + (c.day - 1)

/-- The days from the beginning of 1970. -/
def Civil.epochDays (c : Civil) : ℤ := (c.dayNumber : ℤ) - daysBefore 1970

/-- The seconds from the beginning of 1970. -/
def Civil.epochSeconds (c : Civil) : ℤ := ((c.epochDays * 24 + c.hour) * 60 + c.minute) * 60 + c.second

/-! ## Closed forms -/

/-- **The days in front of a year.** -/
theorem daysBefore_eq (year : ℕ) :
    daysBefore year + (year + 99) / 100 = 365 * year + (year + 3) / 4 + (year + 399) / 400 := by
  induction year with
  | zero => rfl
  | succ year ih =>
    have hsucc : daysBefore (year + 1) = daysBefore year + yearLength year := sum_range_succ _ _
    have h₄ : (year + 1 + 3) / 4 = (year + 3) / 4 + if 4 ∣ year then 1 else 0 := by
      rw [show year + 1 + 3 = year + 3 + 1 by omega, Nat.succ_div]
      exact congrArg _ (if_congr (by omega) rfl rfl)
    have h₁₀₀ : (year + 1 + 99) / 100 = (year + 99) / 100 + if 100 ∣ year then 1 else 0 := by
      rw [show year + 1 + 99 = year + 99 + 1 by omega, Nat.succ_div]
      exact congrArg _ (if_congr (by omega) rfl rfl)
    have h₄₀₀ : (year + 1 + 399) / 400 = (year + 399) / 400 + if 400 ∣ year then 1 else 0 := by
      rw [show year + 1 + 399 = year + 399 + 1 by omega, Nat.succ_div]
      exact congrArg _ (if_congr (by omega) rfl rfl)
    have hleap : IsLeap year ↔ 4 ∣ year ∧ (¬100 ∣ year ∨ 400 ∣ year) := by
      rw [IsLeap]
      omega
    rw [hsucc, yearLength, h₄, h₁₀₀, h₄₀₀]
    by_cases hfour : 4 ∣ year
    · by_cases hhundred : 100 ∣ year
      · by_cases hfourhundred : 400 ∣ year
        · rw [if_pos (hleap.mpr ⟨hfour, Or.inr hfourhundred⟩), if_pos hfour, if_pos hhundred, if_pos hfourhundred]
          omega
        · rw [if_neg fun h => (hleap.mp h).2.elim (fun h => h hhundred) hfourhundred, if_pos hfour, if_pos hhundred,
            if_neg hfourhundred]
          omega
      · rw [if_pos (hleap.mpr ⟨hfour, Or.inl hhundred⟩), if_pos hfour, if_neg hhundred, if_neg (by omega)]
        omega
    · rw [if_neg fun h => hfour (hleap.mp h).1, if_neg hfour, if_neg (by omega), if_neg (by omega)]
      omega

theorem daysBefore_mono {y z : ℕ} (h : y ≤ z) : daysBefore y ≤ daysBefore z :=
  sum_le_sum_of_subset (range_subset_range.mpr h)

/-- **The days in front of a month.** -/
theorem daysBeforeMonth_eq (year : ℕ) {month : ℕ} (h₁ : 1 ≤ month) (h₁₂ : month ≤ 12) :
    daysBeforeMonth year month = [0, 31, 59, 90, 120, 151, 181, 212, 243, 273, 304, 334].getD (month - 1) 0 +
      if 2 < month ∧ IsLeap year then 1 else 0 := by
  have hsum : ∀ n, daysBeforeMonth year (n + 1) = daysBeforeMonth year n + monthLength year n := fun n =>
    sum_range_succ _ _
  have hzero : daysBeforeMonth year 0 = 0 := rfl
  by_cases hleap : IsLeap year
  · interval_cases month <;> simp [hsum, hzero, monthLength, hleap]
  · interval_cases month <;> simp [hsum, hzero, monthLength, hleap]

variable {c : Civil}

theorem daysBeforeMonth_add_lt (h : c.DayExists) :
    daysBeforeMonth c.year c.month + (c.day - 1) < yearLength c.year := by
  obtain ⟨h₁, h₁₂, hday, hlast⟩ := h
  rw [daysBeforeMonth_eq c.year h₁ h₁₂, yearLength]
  generalize c.month = month at *
  by_cases hleap : IsLeap c.year
  · rw [if_pos hleap]
    interval_cases month <;> simp [monthLength, hleap] at hlast ⊢ <;> omega
  · rw [if_neg hleap]
    interval_cases month <;> simp [monthLength, hleap] at hlast ⊢ <;> omega

theorem daysBefore_succ (year : ℕ) :
    daysBefore (year + 1) + year / 100 = 365 * (year + 1) + year / 4 + year / 400 + 1 := by
  have h := daysBefore_eq (year + 1)
  rw [show (year + 1 + 99) / 100 = year / 100 + 1 by omega, show (year + 1 + 3) / 4 = year / 4 + 1 by omega,
    show (year + 1 + 399) / 400 = year / 400 + 1 by omega] at h
  omega

theorem daysBefore_succ_eq_add (year : ℕ) : daysBefore (year + 1) = daysBefore year + yearLength year := sum_range_succ _ _

/-- **From 1970 on** the seconds are not negative. -/
theorem second_le_epochSeconds (h : 1970 ≤ c.year) : c.second ≤ c.epochSeconds := by
  have hyear := daysBefore_mono h
  have hdays : 0 ≤ c.epochDays := by
    rw [Civil.epochDays, Civil.dayNumber]
    push_cast
    omega
  rw [Civil.epochSeconds]
  omega

/-- **In front of a year** the seconds are less than at its beginning. -/
theorem epochSeconds_lt (hc : c.Exists) {year : ℕ} (h : c.year < year) :
    c.epochSeconds < ((daysBefore year : ℤ) - daysBefore 1970) * 86400 := by
  obtain ⟨hday, hhour, hminute, hsecond⟩ := hc
  have hnext : daysBefore (c.year + 1) ≤ daysBefore year := daysBefore_mono h
  rw [daysBefore_succ_eq_add] at hnext
  have hin := daysBeforeMonth_add_lt hday
  have hdays : c.epochDays < (daysBefore year : ℤ) - daysBefore 1970 := by
    rw [Civil.epochDays, Civil.dayNumber]
    push_cast
    omega
  rw [Civil.epochSeconds]
  omega

theorem epochSeconds_neg (hc : c.Exists) (h : c.year < 1970) : c.epochSeconds < 0 := by
  have hlt := epochSeconds_lt hc h
  omega

end MnoGoSearch.Lib.Calendar
