import Mathlib.Algebra.Order.Field.Rat
import Mathlib.Algebra.Order.Ring.Pow
import Mathlib.Tactic.Linarith
import Mathlib.Tactic.Positivity
import Mathlib.Tactic.Ring

/-!
# Rounding to a set of values

`RoundsTo S x r` : `r` is a value of `S` with no other value of `S` between it and `x`, as any
rounding to nearest gives. A comparison of `r` with a value of `S` is that of `x`, unless `r` is
that value (`RoundsTo.lt_iff`, `RoundsTo.gt_iff`).

The values here are binary floating-point numbers of `p` digits. Rounding a number to a multiple of
the unit of its last digit is such a rounding (`roundsTo_binaryFloat`).
-/

namespace LocalCache

/-! ## Neighbours in a set -/

section RoundsTo

variable {α : Type*} [LinearOrder α] {S : Set α} {x r t : α}

/-- `r` is in `S`, and nothing of `S` lies strictly between `x` and `r`. -/
structure RoundsTo (S : Set α) (x r : α) : Prop where
  mem : r ∈ S
  le : ∀ t ∈ S, t ≤ x → t ≤ r
  ge : ∀ t ∈ S, x ≤ t → r ≤ t

namespace RoundsTo

theorem refl (hx : x ∈ S) : RoundsTo S x x :=
  ⟨hx, fun _ _ h => h, fun _ _ h => h⟩

/-- A value of `S` is its own rounding. -/
theorem eq_of_mem (h : RoundsTo S x r) (hx : x ∈ S) : r = x :=
  le_antisymm (h.ge x hx le_rfl) (h.le x hx le_rfl)

/-- Above `t` : the rounded number and the number agree, unless the number rounds down to `t`. -/
theorem lt_iff (h : RoundsTo S x r) (ht : t ∈ S) : (t < x ↔ t < r) ↔ ¬(r = t ∧ t < x) := by
  constructor
  · rintro hiff ⟨rfl, hlt⟩
    exact lt_irrefl _ (hiff.mp hlt)
  · intro hno
    constructor
    · intro hlt
      exact lt_of_le_of_ne (h.le t ht hlt.le) fun heq => hno ⟨heq.symm, hlt⟩
    · intro hlt
      by_contra hle
      exact not_lt.mpr (h.ge t ht (not_lt.mp hle)) hlt

/-- Below `t` : they agree, unless the number rounds up to `t`. -/
theorem gt_iff (h : RoundsTo S x r) (ht : t ∈ S) : (x < t ↔ r < t) ↔ ¬(r = t ∧ x < t) := by
  constructor
  · rintro hiff ⟨rfl, hlt⟩
    exact lt_irrefl _ (hiff.mp hlt)
  · intro hno
    constructor
    · intro hlt
      exact lt_of_le_of_ne (h.ge t ht hlt.le) fun heq => hno ⟨heq, hlt⟩
    · intro hlt
      by_contra hle
      exact not_lt.mpr (h.le t ht (not_lt.mp hle)) hlt

end RoundsTo

end RoundsTo

/-! ## Binary floating point -/

/-- The numbers with `p` binary digits and any exponent. -/
def binaryFloat (p : ℕ) : Set ℚ := {x | ∃ m k : ℤ, |m| < 2 ^ p ∧ x = m * 2 ^ k}

section BinaryFloat

variable {p : ℕ} {x r t : ℚ} {q s : ℤ}

theorem neg_mem_binaryFloat (h : x ∈ binaryFloat p) : -x ∈ binaryFloat p := by
  obtain ⟨m, k, hm, rfl⟩ := h
  exact ⟨-m, k, by rwa [abs_neg], by push_cast; ring⟩

theorem RoundsTo.neg (h : RoundsTo (binaryFloat p) x r) : RoundsTo (binaryFloat p) (-x) (-r) where
  mem := neg_mem_binaryFloat h.mem
  le t ht hle := by
    have := h.ge (-t) (neg_mem_binaryFloat ht) (by linarith)
    linarith
  ge t ht hle := by
    have := h.le (-t) (neg_mem_binaryFloat ht) (by linarith)
    linarith

theorem intCast_mem_binaryFloat {m : ℤ} (h : |m| < 2 ^ p) : (m : ℚ) ∈ binaryFloat p :=
  ⟨m, 0, h, by simp⟩

/-- Between two multiples of the unit of the last digit there is none. -/
theorem le_of_mem_binaryFloat (hq : 2 ^ p ≤ 2 * q) (ht : t ∈ binaryFloat p)
    (hlt : (q : ℚ) * 2 ^ s < t) : ((q + 1 : ℤ) : ℚ) * 2 ^ s ≤ t := by
  obtain ⟨m, k, hm, rfl⟩ := ht
  have hs : (0 : ℚ) < 2 ^ s := zpow_pos two_pos s
  rcases le_or_gt s k with hsk | hks
  · -- a multiple of the unit
    obtain ⟨d, rfl⟩ := Int.le.dest hsk
    have hsplit : (m : ℚ) * 2 ^ (s + d) = ((m * 2 ^ d : ℤ) : ℚ) * 2 ^ s := by
      rw [zpow_add₀ two_ne_zero, zpow_natCast]
      push_cast
      ring
    rw [hsplit] at hlt ⊢
    have hint : q < m * 2 ^ d := by exact_mod_cast lt_of_mul_lt_mul_right hlt hs.le
    exact mul_le_mul_of_nonneg_right (by exact_mod_cast hint) hs.le
  · -- too small
    have hk : (0 : ℚ) < 2 ^ k := zpow_pos two_pos k
    have hm' : (m : ℚ) ≤ 2 ^ p := by exact_mod_cast (le_abs_self m).trans hm.le
    have hq' : (2 : ℚ) ^ p ≤ 2 * q := by exact_mod_cast hq
    have hunit : (2 : ℚ) * 2 ^ k ≤ 2 ^ s := by
      rw [← zpow_one_add₀ two_ne_zero]
      exact zpow_le_zpow_right₀ one_le_two (by omega)
    have hqpos : (0 : ℚ) ≤ q := by
      have : (0 : ℚ) < 2 ^ p := by positivity
      linarith
    have hle : (m : ℚ) * 2 ^ k ≤ q * 2 ^ s :=
      calc (m : ℚ) * 2 ^ k ≤ 2 ^ p * 2 ^ k := mul_le_mul_of_nonneg_right hm' hk.le
        _ ≤ 2 * q * 2 ^ k := mul_le_mul_of_nonneg_right hq' hk.le
        _ = q * (2 * 2 ^ k) := by ring
        _ ≤ q * 2 ^ s := mul_le_mul_of_nonneg_left hunit hqpos
    exact absurd hle (not_le.mpr hlt)

theorem mul_mem_binaryFloat (hp : 1 ≤ p) (h0 : 0 ≤ q) (hq : q ≤ 2 ^ p) :
    (q : ℚ) * 2 ^ s ∈ binaryFloat p := by
  rcases lt_or_eq_of_le hq with hlt | rfl
  · exact ⟨q, s, by rwa [abs_of_nonneg h0], rfl⟩
  · refine ⟨1, p + s, ?_, ?_⟩
    · rw [abs_one]
      exact_mod_cast Nat.one_lt_two_pow (by omega)
    · rw [zpow_add₀ two_ne_zero, zpow_natCast]
      push_cast
      ring

/-- Rounding to a multiple of the unit of the last digit, down or up. -/
theorem roundsTo_binaryFloat (hp : 1 ≤ p) (hq : 2 ^ p ≤ 2 * q) (hq' : q < 2 ^ p)
    (hle : (q : ℚ) * 2 ^ s ≤ x) (hlt : x < ((q + 1 : ℤ) : ℚ) * 2 ^ s)
    (hr : r = q * 2 ^ s ∨ r = ((q + 1 : ℤ) : ℚ) * 2 ^ s ∧ (q : ℚ) * 2 ^ s < x) :
    RoundsTo (binaryFloat p) x r := by
  have hpos : (0 : ℤ) < 2 ^ p := by positivity
  rcases hr with rfl | ⟨rfl, hdown⟩
  · refine ⟨mul_mem_binaryFloat hp (by omega) hq'.le, fun t ht htx => ?_, fun t _ hxt => hle.trans hxt⟩
    by_contra hno
    exact absurd (le_of_mem_binaryFloat hq ht (not_le.mp hno)) (not_le.mpr (htx.trans_lt hlt))
  · refine ⟨mul_mem_binaryFloat hp (by omega) hq', fun t _ htx => htx.trans hlt.le, fun t ht hxt => ?_⟩
    exact le_of_mem_binaryFloat hq ht (hdown.trans_le hxt)

end BinaryFloat

end LocalCache
