import LocalCache.Bytes
import Mathlib.Algebra.Order.Field.Basic
import Mathlib.Algebra.Order.Field.Rat
import Mathlib.Tactic.Linarith
import Mathlib.Tactic.NormNum
import Mathlib.Tactic.Positivity

/-!
# SQLite's values

A column holds a `SqlValue` of any storage class, whatever its declared type : a type of a
column is only an affinity. `Sqlite` is what SQLite computes of values : arithmetic, the order
of `ORDER BY` and comparisons, and the INTEGER affinity. Of integers these are fixed; of the
other values nothing here depends on them, so they are parameters.

`Sqlite.exact` is one such SQLite, for examples.
-/

namespace LocalCache

/-- A value of one of SQLite's storage classes. -/
inductive SqlValue
  | null
  | integer (i : ℤ)
  | real (bits : UInt64)
  | text (s : String)
  | blob (bytes : List UInt8)
  deriving DecidableEq, Repr

/-- `typeof(v) = 'integer'`. -/
def SqlValue.isInteger : SqlValue → Bool
  | .integer _ => true
  | _ => false

theorem SqlValue.isInteger_iff {v : SqlValue} : v.isInteger = true ↔ ∃ i, v = .integer i := by
  cases v <;> simp [isInteger]

/-- The range of an `i64`. -/
def InI64 (i : ℤ) : Prop := -2 ^ 63 ≤ i ∧ i < 2 ^ 63

instance (i : ℤ) : Decidable (InI64 i) := inferInstanceAs (Decidable (_ ∧ _))

inductive Op
  | mul
  | sub
  | add

def Op.apply : Op → ℤ → ℤ → ℤ
  | .mul => (· * ·)
  | .sub => (· - ·)
  | .add => (· + ·)

/-- What SQLite computes of values. Integer arithmetic that overflows becomes real. The order
of values is given by an embedding into the rationals. -/
structure Sqlite where
  arith : Op → SqlValue → SqlValue → SqlValue
  arith_integer : ∀ (op : Op) (a b : ℤ), InI64 (op.apply a b) →
    arith op (.integer a) (.integer b) = .integer (op.apply a b)
  rank : SqlValue → ℚ
  rank_integer : ∀ i : ℤ, rank (.integer i) = i
  rank_text : ∀ s t : String, rank (.text s) = rank (.text t) → s = t
  affinity : SqlValue → SqlValue
  affinity_integer : ∀ i : ℤ, affinity (.integer i) = .integer i

namespace Sqlite

variable (S : Sqlite)

/-- `MAX` of two values. -/
def max (a b : SqlValue) : SqlValue := if S.rank a < S.rank b then b else a

theorem max_integer (a b : ℤ) : S.max (.integer a) (.integer b) = .integer (Max.max a b) := by
  unfold max
  rw [S.rank_integer, S.rank_integer]
  by_cases h : a < b
  · rw [if_pos (Int.cast_lt.mpr h), max_eq_right h.le]
  · rw [if_neg (fun h' => h (Int.cast_lt.mp h')), max_eq_left (not_lt.mp h)]

/-! ## An SQLite for examples -/

/-- The text order as a fraction : the bytes are digits to the base 257, none of them 0. -/
def fraction : List UInt8 → ℚ
  | [] => 0
  | b :: bytes => (b.toNat + 1 + fraction bytes) / 257

theorem fraction_range : ∀ bytes : List UInt8, 0 ≤ fraction bytes ∧ fraction bytes < 1
  | [] => by simp [fraction]
  | b :: bytes => by
    obtain ⟨h0, h1⟩ := fraction_range bytes
    have hb : (b.toNat : ℚ) + 1 ≤ 256 := by
      have hlt := b.toNat_lt
      exact_mod_cast hlt
    have hb0 : (0 : ℚ) ≤ b.toNat := Nat.cast_nonneg _
    rw [fraction]
    constructor
    · positivity
    · rw [div_lt_one (by norm_num)]
      linarith

theorem fraction_injective : ∀ {bytes bytes' : List UInt8}, fraction bytes = fraction bytes' →
    bytes = bytes'
  | [], [], _ => rfl
  | [], b :: bytes, h => by
    have h0 := (fraction_range bytes).1
    have hpos : 0 < fraction (b :: bytes) := by
      rw [fraction]
      positivity
    exact absurd (h ▸ hpos) (lt_irrefl _)
  | b :: bytes, [], h => by
    have h0 := (fraction_range bytes).1
    have hpos : 0 < fraction (b :: bytes) := by
      rw [fraction]
      positivity
    exact absurd (h ▸ hpos) (lt_irrefl _)
  | b :: bytes, b' :: bytes', h => by
    obtain ⟨h0, h1⟩ := fraction_range bytes
    obtain ⟨h0', h1'⟩ := fraction_range bytes'
    rw [fraction, fraction, div_left_inj' (by norm_num)] at h
    have hlt : (b.toNat : ℚ) < b'.toNat + 1 := by linarith
    have hlt' : (b'.toNat : ℚ) < b.toNat + 1 := by linarith
    have hb : b.toNat = b'.toNat := by
      have hle : b.toNat < b'.toNat + 1 := by exact_mod_cast hlt
      have hle' : b'.toNat < b.toNat + 1 := by exact_mod_cast hlt'
      omega
    rw [hb] at h
    have htail : bytes = bytes' := fraction_injective (by linarith)
    rw [UInt8.toNat_inj.mp hb, htail]

/-- Integers are exact, and texts are above them in their order. -/
def exact : Sqlite where
  arith op a b := match a, b with
    | .integer a, .integer b => if InI64 (op.apply a b) then .integer (op.apply a b) else .real 0
    | _, _ => .null
  arith_integer _ _ _ h := if_pos h
  rank v := match v with
    | .integer i => i
    | .text s => 2 ^ 64 + fraction (strBytes s)
    | .blob bytes => 2 ^ 65 + fraction bytes
    | .null | .real _ => -2 ^ 64
  rank_integer _ := rfl
  rank_text _ _ h := strBytes_injective (fraction_injective (add_left_cancel h))
  affinity v := v
  affinity_integer _ := rfl

end Sqlite

end LocalCache
