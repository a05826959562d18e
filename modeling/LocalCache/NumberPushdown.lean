import LocalCache.Rounding
import LocalCache.Skips

/-!
# Pushing a numeric condition into SQL

A pushed-down condition compares the number SQLite reads from the stored text with the threshold by
value, and `Predicate.matches` compares the number rounded to an `f64`. `F64.ofInt` is a rounding
to a neighbour (`F64.roundsTo_ofInt`), so on integers the two agree unless one of `i64` on the side
asked for rounds onto the threshold (`selects_iff_matches_iff`), which takes one above `2 ^ 53`
(`RoundsOnto.two_pow_lt`). A number with a fraction is read from its digits twice, by SQLite and by
`serde_json`, and neither is bound to the nearest double : there the two agree unless the threshold
is between what they read.
-/

namespace LocalCache

/-! ## Finite doubles -/

namespace F64

def Finite (x : F64) : Prop := x.exponent ≠ 2 ^ 11 - 1

instance (x : F64) : Decidable x.Finite := inferInstanceAs (Decidable (_ ≠ _))

theorem value_of_finite {x : F64} (h : x.Finite) :
    x.value = some ((x.finiteValue : WithTop ℚ) : WithBot (WithTop ℚ)) :=
  if_neg h

/-- A finite double has 53 binary digits. -/
theorem finiteValue_mem (x : F64) : x.finiteValue ∈ binaryFloat 53 := by
  have hfraction : x.fraction < 2 ^ 52 := Nat.mod_lt _ (by norm_num)
  have hmagnitude : ∀ (m : ℕ) (k : ℤ), m < 2 ^ 53 → (m : ℚ) * 2 ^ k ∈ binaryFloat 53 := by
    intro m k hm
    exact ⟨m, k, by rw [Nat.abs_cast]; exact_mod_cast hm, by push_cast; rfl⟩
  unfold finiteValue
  simp only
  split_ifs
  · exact neg_mem_binaryFloat (hmagnitude x.fraction _ (by omega))
  · exact neg_mem_binaryFloat (hmagnitude (2 ^ 52 + x.fraction) _ (by omega))
  · exact hmagnitude x.fraction _ (by omega)
  · exact hmagnitude (2 ^ 52 + x.fraction) _ (by omega)

/-! ## The double nearest to an integer -/

/-- The double of a sign and the bits below it. -/
def ofBits (c : Bool) (b : ℕ) : F64 := ⟨UInt64.ofNat (if c then 2 ^ 63 + b else b)⟩

/-- The bits of a double, taken apart. -/
theorem fields_ofBits (c : Bool) {b k f : ℕ} (hb : b = k * 2 ^ 52 + f) (hk : k < 2 ^ 11)
    (hf : f < 2 ^ 52) :
    (ofBits c b).exponent = k ∧ (ofBits c b).fraction = f ∧ (ofBits c b).negative = c := by
  have hbits : (ofBits c b).bits.toNat = if c then 2 ^ 63 + b else b := by
    refine (UInt64.toNat_ofNat').trans (Nat.mod_eq_of_lt ?_)
    split <;> omega
  unfold exponent fraction negative
  rw [hbits]
  cases c with
  | true =>
    rw [if_pos rfl]
    exact ⟨by omega, by omega, decide_eq_true (by omega)⟩
  | false =>
    rw [if_neg (by simp)]
    exact ⟨by omega, by omega, decide_eq_false (by omega)⟩

/-- The value of a sign, an exponent and a significand. -/
def signed (c : Bool) (x : ℚ) : ℚ := if c then -x else x

theorem finiteValue_of_fields (c : Bool) {b k m : ℕ} (hb : b + 2 ^ 52 = k * 2 ^ 52 + m)
    (hk0 : k ≠ 0) (hk : k < 2047) (hlo : 2 ^ 52 ≤ m) (hhi : m < 2 ^ 53) :
    (ofBits c b).Finite ∧ (ofBits c b).finiteValue = signed c ((m : ℚ) * 2 ^ ((k : ℤ) - 1075)) := by
  obtain ⟨f, rfl⟩ := Nat.le.dest hlo
  obtain ⟨hexponent, hfraction, hnegative⟩ :=
    fields_ofBits c (b := b) (k := k) (f := f) (by omega) (by omega) (by omega)
  refine ⟨by unfold Finite; omega, ?_⟩
  unfold finiteValue signed
  simp only
  rw [hnegative, hexponent, hfraction, if_neg hk0]

/-- A significand of `2 ^ 53` carries into the exponent. -/
theorem finiteValue_ofBits (c : Bool) {b e m : ℕ} (hb : b = (e + 1022) * 2 ^ 52 + m) (he : e ≤ 1022)
    (hlo : 2 ^ 52 ≤ m) (hhi : m ≤ 2 ^ 53) :
    (ofBits c b).Finite ∧ (ofBits c b).finiteValue = signed c ((m : ℚ) * 2 ^ ((e : ℤ) - 52)) := by
  rcases lt_or_eq_of_le hhi with hlt | heq
  · have hvalue := finiteValue_of_fields c (b := b) (k := e + 1023) (m := m) (by omega) (by omega)
      (by omega) hlo hlt
    have hk : ((e + 1023 : ℕ) : ℤ) - 1075 = (e : ℤ) - 52 := by omega
    rwa [hk] at hvalue
  · obtain ⟨half, hhalf⟩ : ∃ half : ℕ, m = 2 * half := ⟨2 ^ 52, by omega⟩
    have hvalue := finiteValue_of_fields c (b := b) (k := e + 1024) (m := half) (by omega) (by omega)
      (by omega) (by omega) (by omega)
    have hk : ((e + 1024 : ℕ) : ℤ) - 1075 = (e : ℤ) - 52 + 1 := by omega
    have hcarry : (half : ℚ) * 2 ^ ((e : ℤ) - 52 + 1) = (m : ℚ) * 2 ^ ((e : ℤ) - 52) := by
      rw [zpow_add_one₀ two_ne_zero, hhalf]
      push_cast
      ring
    rwa [hk, hcarry] at hvalue

/-- An integer rounded to 53 binary digits. -/
def roundNat (n : ℕ) : ℕ :=
  if Nat.log2 n ≤ 52 then n else roundShift n (Nat.log2 n - 52) * 2 ^ (Nat.log2 n - 52)

/-- Rounding a shift rounds down or up. -/
theorem roundShift_cases (n shift : ℕ) :
    roundShift n shift = n / 2 ^ shift ∨
      roundShift n shift = n / 2 ^ shift + 1 ∧ n % 2 ^ shift ≠ 0 := by
  unfold roundShift
  simp only
  split_ifs with hup
  · have := Nat.two_pow_pos shift
    exact .inr ⟨rfl, by omega⟩
  · exact .inl rfl

/-- The significand of a number of at least 53 digits. -/
theorem div_two_pow_mem {n : ℕ} (h : 52 < Nat.log2 n) :
    2 ^ 52 ≤ n / 2 ^ (Nat.log2 n - 52) ∧ n / 2 ^ (Nat.log2 n - 52) < 2 ^ 53 := by
  have hn : n ≠ 0 := by
    rintro rfl
    exact absurd h (by decide)
  have hlo : 2 ^ Nat.log2 n ≤ n := Nat.log2_self_le hn
  have hhi : n < 2 ^ (Nat.log2 n + 1) := Nat.lt_log2_self
  have hs := Nat.two_pow_pos (Nat.log2 n - 52)
  constructor
  · rw [Nat.le_div_iff_mul_le hs, ← pow_add]
    rwa [Nat.add_sub_cancel' h.le]
  · rw [Nat.div_lt_iff_lt_mul hs, ← pow_add]
    rwa [show 53 + (Nat.log2 n - 52) = Nat.log2 n + 1 by omega]

theorem roundsTo_roundNat (n : ℕ) : RoundsTo (binaryFloat 53) (n : ℚ) (roundNat n) := by
  unfold roundNat
  split_ifs with hsmall
  · refine .refl (intCast_mem_binaryFloat (m := n) ?_)
    have hlt : n < 2 ^ (Nat.log2 n + 1) := Nat.lt_log2_self
    have hle : 2 ^ (Nat.log2 n + 1) ≤ 2 ^ 53 := Nat.pow_le_pow_right two_pos (by omega)
    rw [Nat.abs_cast]
    exact_mod_cast hlt.trans_le hle
  · set shift := Nat.log2 n - 52 with hshift
    obtain ⟨hlo, hhi⟩ := div_two_pow_mem (not_le.mp hsmall)
    have hdiv : n / 2 ^ shift * 2 ^ shift + n % 2 ^ shift = n := by
      rw [mul_comm]
      exact Nat.div_add_mod n (2 ^ shift)
    have hmod : n % 2 ^ shift < 2 ^ shift := Nat.mod_lt _ (Nat.two_pow_pos shift)
    have hround := roundShift_cases n shift
    generalize n / 2 ^ shift = q at *
    have hle : q * 2 ^ shift ≤ n := by omega
    have hlt : n < (q + 1) * 2 ^ shift := by
      rw [Nat.add_mul, Nat.one_mul]
      omega
    refine roundsTo_binaryFloat (q := q) (s := shift) (by norm_num) (by omega) (by omega) ?_ ?_ ?_
    · rw [zpow_natCast]
      exact_mod_cast hle
    · rw [zpow_natCast]
      exact_mod_cast hlt
    · rw [zpow_natCast]
      rcases hround with hdown | ⟨hup, hrest⟩
      · exact .inl (by rw [hdown]; push_cast; rfl)
      · refine .inr ⟨by rw [hup]; push_cast; rfl, ?_⟩
        have hlt' : q * 2 ^ shift < n := by omega
        exact_mod_cast hlt'

/-- The bits of an integer that is not 0 are those of its rounding. -/
theorem finiteValue_magnitudeBits (c : Bool) {n : ℕ} (h0 : n ≠ 0) (h : n < 2 ^ 64) :
    (ofBits c (magnitudeBits n)).Finite ∧
      (ofBits c (magnitudeBits n)).finiteValue = signed c (roundNat n) := by
  have he : Nat.log2 n < 64 := (Nat.log2_lt h0).mpr h
  have hlo : 2 ^ Nat.log2 n ≤ n := Nat.log2_self_le h0
  have hhi : n < 2 ^ (Nat.log2 n + 1) := Nat.lt_log2_self
  unfold magnitudeBits roundNat
  rw [if_neg h0]
  simp only
  by_cases hsmall : Nat.log2 n ≤ 52
  · rw [if_pos hsmall, if_pos hsmall]
    -- the digits fit, and are shifted to the left
    obtain ⟨d, hd⟩ := Nat.le.dest hsmall
    have hd' : 52 - Nat.log2 n = d := by omega
    have hm : 2 ^ 52 ≤ n * 2 ^ d ∧ n * 2 ^ d ≤ 2 ^ 53 := by
      constructor
      · calc 2 ^ 52 = 2 ^ Nat.log2 n * 2 ^ d := by rw [← pow_add, hd]
          _ ≤ n * 2 ^ d := Nat.mul_le_mul_right _ hlo
      · calc n * 2 ^ d ≤ 2 ^ (Nat.log2 n + 1) * 2 ^ d := Nat.mul_le_mul_right _ hhi.le
          _ = 2 ^ 53 := by rw [← pow_add]; congr 1; omega
    rw [hd']
    have hexp : ((Nat.log2 n : ℕ) : ℤ) - 52 = -(d : ℤ) := by omega
    have hshift : ((n * 2 ^ d : ℕ) : ℚ) * 2 ^ ((Nat.log2 n : ℤ) - 52) = n := by
      rw [hexp, zpow_neg, zpow_natCast, Nat.cast_mul, Nat.cast_pow, Nat.cast_ofNat]
      exact mul_inv_cancel_right₀ (pow_ne_zero _ two_ne_zero) _
    generalize n * 2 ^ d = m at hm hshift ⊢
    rw [← hshift]
    exact finiteValue_ofBits c (e := Nat.log2 n) rfl (by omega) hm.1 hm.2
  · rw [if_neg hsmall, if_neg hsmall]
    obtain ⟨hqlo, hqhi⟩ := div_two_pow_mem (not_le.mp hsmall)
    have hround := roundShift_cases n (Nat.log2 n - 52)
    have hexp : ((Nat.log2 n : ℕ) : ℤ) - 52 = ((Nat.log2 n - 52 : ℕ) : ℤ) := by omega
    have hm : 2 ^ 52 ≤ roundShift n (Nat.log2 n - 52) ∧ roundShift n (Nat.log2 n - 52) ≤ 2 ^ 53 := by
      omega
    generalize roundShift n (Nat.log2 n - 52) = m at hm ⊢
    have hshift : (m : ℚ) * 2 ^ ((Nat.log2 n : ℤ) - 52) = ((m * 2 ^ (Nat.log2 n - 52) : ℕ) : ℚ) := by
      rw [hexp, zpow_natCast, Nat.cast_mul, Nat.cast_pow, Nat.cast_ofNat]
    rw [← hshift]
    exact finiteValue_ofBits c (e := Nat.log2 n) rfl (by omega) hm.1 hm.2

theorem finiteValue_ofInt {n : ℤ} (h : n.natAbs < 2 ^ 64) :
    (ofInt n).Finite ∧ (ofInt n).finiteValue = signed (decide (n < 0)) (roundNat n.natAbs) := by
  rcases eq_or_ne n 0 with rfl | h0
  · exact ⟨by decide, by decide +kernel⟩
  have hbits : ofInt n = ofBits (decide (n < 0)) (magnitudeBits n.natAbs) := by
    unfold ofInt ofBits
    by_cases hneg : n < 0 <;> simp [hneg]
  rw [hbits]
  exact finiteValue_magnitudeBits (decide (n < 0)) (Int.natAbs_ne_zero.mpr h0) h

/-- The double of an integer is next to it among the doubles. -/
theorem roundsTo_ofInt {n : ℤ} (h : n.natAbs < 2 ^ 64) :
    RoundsTo (binaryFloat 53) (n : ℚ) (ofInt n).finiteValue := by
  have hround := roundsTo_roundNat n.natAbs
  rw [(finiteValue_ofInt h).2, signed]
  simp only [decide_eq_true_eq]
  split_ifs with hneg
  · have hcast : (n : ℚ) = -(n.natAbs : ℚ) := by
      rw [← Int.cast_natCast, ← Int.cast_neg, Int.cast_inj]
      omega
    rw [hcast]
    exact hround.neg
  · have hcast : (n : ℚ) = (n.natAbs : ℚ) := by
      rw [← Int.cast_natCast, Int.cast_inj]
      omega
    rwa [hcast]

/-- Integers up to `2 ^ 53` are doubles. -/
theorem finiteValue_ofInt_of_le {n : ℤ} (h : n.natAbs ≤ 2 ^ 53) : (ofInt n).finiteValue = n := by
  have hmem : (n : ℚ) ∈ binaryFloat 53 := by
    have hsmall : (n.natAbs : ℚ) ∈ binaryFloat 53 := by
      have hmul := mul_mem_binaryFloat (p := 53) (q := n.natAbs) (s := 0) (by norm_num)
        (by omega) (by omega)
      rwa [zpow_zero, mul_one, Int.cast_natCast] at hmul
    rcases Int.natAbs_eq n with heq | heq
    · rwa [heq, Int.cast_natCast]
    · rw [heq, Int.cast_neg, Int.cast_natCast]
      exact neg_mem_binaryFloat hsmall
  exact (roundsTo_ofInt (by omega)).eq_of_mem hmem

end F64

/-! ## What SQLite reads -/

/-- The number of a JSON text as SQLite reads it : an integer within `i64` is an INTEGER, a larger
one the nearest REAL. -/
def JsonNumber.toSql : JsonNumber → SqlNumber
  | .posInt n => if n.toNat < 2 ^ 63 then .integer (Int64.ofNat n.toNat) else .real (.ofInt n.toNat)
  | .negInt n => .integer n
  | .float x => .real x

/-- `CASE WHEN json_type(…) IN ('integer', 'real') THEN json_extract(…) ELSE NULL END`. -/
def Json.sqlNumber : Json → Option SqlNumber
  | .number n => some n.toSql
  | _ => none

/-- SQLite's number read as a double is `as_f64`. -/
theorem JsonNumber.toF64_toSql (n : JsonNumber) : n.toSql.toF64 = n.asF64 := by
  cases n with
  | posInt n =>
    rw [toSql]
    split_ifs with h
    · rw [SqlNumber.toF64, Int64.toInt_ofNat_of_lt h]
      rfl
    · rfl
  | negInt n => rfl
  | float x => rfl

theorem Json.asF64_eq (v : Json) : v.asF64 = v.sqlNumber.map SqlNumber.toF64 := by
  cases v with
  | number n => exact congrArg some n.toF64_toSql.symm
  | null => rfl
  | bool b => rfl
  | string s => rfl
  | array items => rfl
  | object fields => rfl

def Json.number? : Json → Option JsonNumber
  | .number n => some n
  | _ => none

theorem Json.sqlNumber_eq (v : Json) : v.sqlNumber = v.number?.map JsonNumber.toSql := by
  cases v <;> rfl

/-- What SQLite and `serde_json` read from one number of a text. An integer is read exactly, or as
the nearest double. Of any other number each reads a double of its own, or SQLite an integer, as
from `-0`. -/
inductive ReadsNumber : Option SqlNumber → Option JsonNumber → Prop
  | absent : ReadsNumber none none
  | posInt (n : UInt64) : ReadsNumber (some (JsonNumber.posInt n).toSql) (some (.posInt n))
  | negInt (n : Int64) : ReadsNumber (some (JsonNumber.negInt n).toSql) (some (.negInt n))
  | float (stored : SqlNumber) (x : F64) : ReadsNumber (some stored) (some (.float x))

/-! ## The two comparisons -/

section Comparisons

/-- An integer that is on the side of the threshold that the condition asks for, and rounds to the
threshold. -/
def RoundsOnto (f : WhereField) (n : Int64) : Prop :=
  (F64.ofInt n.toInt).finiteValue = f.threshold.finiteValue ∧
    if f.greater then f.threshold.finiteValue < n.toInt else (n.toInt : ℚ) < f.threshold.finiteValue

/-- The number is on the side of the threshold that the condition asks for. -/
def WhereField.Beyond (f : WhereField) (a : Option (WithBot (WithTop ℚ))) : Prop :=
  ∃ x ∈ a, if f.greater then ((f.threshold.finiteValue : WithTop ℚ) : WithBot (WithTop ℚ)) < x
    else x < ((f.threshold.finiteValue : WithTop ℚ) : WithBot (WithTop ℚ))

/-- An integer that rounds onto the threshold, or a number read as two that the threshold
separates. -/
def Misread (f : WhereField) : Option SqlNumber → Option JsonNumber → Prop
  | some stored, some (.float x) => ¬(f.Beyond stored.value ↔ f.Beyond x.value)
  | some (.integer n), some _ => RoundsOnto f n
  | _, _ => False

theorem natAbs_toInt_lt (n : Int64) : n.toInt.natAbs < 2 ^ 64 := by
  have hlo := n.le_toInt
  have hhi := n.toInt_lt
  omega

/-- SQLite compares two numbers by value. -/
theorem SqlNumber.compare_values {n : SqlNumber} {threshold : F64} {a : ℚ} (ht : threshold.Finite)
    (hn : n.value = some ((a : WithTop ℚ) : WithBot (WithTop ℚ))) :
    (n.gt threshold = true ↔ threshold.finiteValue < a) ∧
      (n.lt threshold = true ↔ a < threshold.finiteValue) := by
  unfold gt lt
  rw [hn, F64.value_of_finite ht]
  simp only [decide_eq_true_eq, WithBot.coe_lt_coe, WithTop.coe_lt_coe, and_self]

/-- A comparison of doubles is SQLite's of two reals. -/
theorem partialCmp_eq (x threshold : F64) :
    decide (x.partialCmp threshold = some .gt) = (SqlNumber.real x).gt threshold ∧
      decide (x.partialCmp threshold = some .lt) = (SqlNumber.real x).lt threshold := by
  have hvalue : (SqlNumber.real x).value = x.value := rfl
  unfold F64.partialCmp SqlNumber.gt SqlNumber.lt
  rw [hvalue]
  cases x.value with
  | none => exact ⟨rfl, rfl⟩
  | some a =>
    cases threshold.value with
    | none => exact ⟨rfl, rfl⟩
    | some b =>
      simp only [Option.some.injEq, compareOfLessAndEq_eq_lt,
        compareOfLessAndEq_eq_gt le_antisymm le_total not_le, and_self]

/-- SQLite keeps the numbers beyond the threshold. -/
theorem WhereField.holds_some_iff {f : WhereField} (ht : f.threshold.Finite) (n : SqlNumber) :
    f.holds (some n) = true ↔ f.Beyond n.value := by
  unfold holds Beyond SqlNumber.gt SqlNumber.lt
  rw [F64.value_of_finite ht]
  cases hvalue : n.value with
  | none => simp [hvalue]
  | some a => by_cases hgreater : f.greater = true <;> simp [hvalue, hgreater]

/-- A pushed-down condition on a number rounded first. -/
theorem matches_eq_holds {T : Type} (lib : QueryLib T) {p : Predicate} {f : WhereField}
    (hp : p.toWhere = some f) (v : Json) :
    p.matches lib v = f.holds (((v.getField f.path).bind Json.sqlNumber).map fun n => .real n.toF64) := by
  have hnumber : ∀ path, (v.getField path).bind Json.asF64 =
      ((v.getField path).bind Json.sqlNumber).map SqlNumber.toF64 := by
    intro path
    cases v.getField path with
    | none => rfl
    | some field => exact field.asF64_eq
  cases p with
  | fieldGt path threshold =>
    obtain rfl := Option.some.inj hp
    rw [Predicate.matches, hnumber]
    cases (v.getField path).bind Json.sqlNumber with
    | none => rfl
    | some n => exact (partialCmp_eq _ _).1
  | fieldLt path threshold =>
    obtain rfl := Option.some.inj hp
    rw [Predicate.matches, hnumber]
    cases (v.getField path).bind Json.sqlNumber with
    | none => rfl
    | some n => exact (partialCmp_eq _ _).2
  | fieldEq path expected => exact absurd hp (by simp [Predicate.toWhere])
  | fieldContains path substring => exact absurd hp (by simp [Predicate.toWhere])
  | payloadContains needle => exact absurd hp (by simp [Predicate.toWhere])

/-- On an integer, rounding it first makes a difference exactly when it rounds onto the
threshold. -/
theorem holds_integer_iff {f : WhereField} (ht : f.threshold.Finite) (n : Int64) :
    f.holds (some (.integer n)) = f.holds (some (.real (SqlNumber.integer n).toF64)) ↔
      ¬RoundsOnto f n := by
  have hn := natAbs_toInt_lt n
  have hround := F64.roundsTo_ofInt hn
  have hfinite := (F64.finiteValue_ofInt hn).1
  have hmem := F64.finiteValue_mem f.threshold
  have hexact := SqlNumber.compare_values (n := .integer n) ht rfl
  have hrounded := SqlNumber.compare_values (n := .real (F64.ofInt n.toInt)) ht
    (F64.value_of_finite hfinite)
  unfold WhereField.holds RoundsOnto SqlNumber.toF64
  simp only
  by_cases hgreater : f.greater = true
  · rw [if_pos hgreater, if_pos hgreater, if_pos hgreater, Bool.eq_iff_iff, hexact.1, hrounded.1]
    exact hround.lt_iff hmem
  · rw [if_neg hgreater, if_neg hgreater, if_neg hgreater, Bool.eq_iff_iff, hexact.2, hrounded.2]
    exact hround.gt_iff hmem

/-- What SQLite makes of an integer is rounded once at most. -/
theorem holds_toSql_iff {f : WhereField} (ht : f.threshold.Finite) {n : JsonNumber}
    (hn : ∀ x, n ≠ .float x) :
    f.holds (some n.toSql) = f.holds (some (.real n.toSql.toF64)) ↔ ¬Misread f (some n.toSql) (some n) := by
  have hmisread : Misread f (some n.toSql) (some n) ↔ ∃ k, n.toSql = .integer k ∧ RoundsOnto f k := by
    cases n with
    | float x => exact absurd rfl (hn x)
    | negInt k => cases (JsonNumber.negInt k).toSql <;> simp [Misread]
    | posInt k => cases (JsonNumber.posInt k).toSql <;> simp [Misread]
  rw [hmisread]
  cases n.toSql with
  | real x => simp [SqlNumber.toF64]
  | integer k => simpa using holds_integer_iff ht k

/-- A pushed-down condition is the predicate, unless the number is misread. -/
theorem holds_eq_matches_iff {T : Type} (lib : QueryLib T) {p : Predicate} {f : WhereField}
    (hp : p.toWhere = some f) (ht : f.threshold.Finite) {v : Json} {stored : Option SqlNumber}
    (hread : ReadsNumber stored ((v.getField f.path).bind Json.number?)) :
    f.holds stored = p.matches lib v ↔ ¬Misread f stored ((v.getField f.path).bind Json.number?) := by
  have hnumber : (v.getField f.path).bind Json.sqlNumber =
      ((v.getField f.path).bind Json.number?).map JsonNumber.toSql := by
    cases v.getField f.path with
    | none => rfl
    | some field => exact field.sqlNumber_eq
  rw [matches_eq_holds lib hp, hnumber]
  generalize (v.getField f.path).bind Json.number? = number at hread ⊢
  cases hread with
  | absent => simp [Misread]
  | posInt n => exact holds_toSql_iff ht fun x => by simp
  | negInt n => exact holds_toSql_iff ht fun x => by simp
  | float stored x =>
    show f.holds (some stored) = f.holds (some (.real x)) ↔ _
    rw [Bool.eq_iff_iff, f.holds_some_iff ht, f.holds_some_iff ht, Misread, not_not]
    rfl

/-- An integer that is a double rounds to itself, so this takes one above `2 ^ 53`. -/
theorem RoundsOnto.two_pow_lt {f : WhereField} {n : Int64} (h : RoundsOnto f n) :
    2 ^ 53 < n.toInt.natAbs := by
  by_contra hle
  obtain ⟨heq, hside⟩ := h
  rw [← heq, F64.finiteValue_ofInt_of_le (not_lt.mp hle)] at hside
  split_ifs at hside <;> exact lt_irrefl _ hside

end Comparisons

/-! ## The rows selected -/

section Selection

variable {T : Type} {lib : QueryLib T} {src : Sources T} {ns : String} {filters : PreparedPathFilters}
  {selectFields : List String} {f : WhereField} {db : Db} {row : JoinedRow} {v : Json}

/-- The row's payload decodes, with the JSON form `v`, SQLite reads `stored` at the path, and both are
from one number of the text. -/
structure ReadsPath (lib : QueryLib T) (src : Sources T) (path : String) (row : JoinedRow) (v : Json)
    (stored : Option SqlNumber) : Prop where
  decodes : ∃ payload, src.decode row.1.path ⟨row.2.content, row.2.encoding⟩ = .ok payload ∧
    lib.toValue payload = .ok v
  stored_eq : lib.jsonNumber row.2.content path = .ok stored
  number : ReadsNumber stored ((v.getField path).bind Json.number?)

/-- The statement of tier 2 with the one condition keeps the row. -/
def Selects (lib : QueryLib T) (ns : String) (filters : PreparedPathFilters)
    (selectFields : List String) (f : WhereField) (db : Db) (row : JoinedRow) : Prop :=
  ∃ selected, Sql.queryCandidatesJsonPushdown lib ns filters selectFields [f] db = .ok selected ∧
    row.1.toCandidate ∈ selected.map Prod.fst

theorem selects_iff (hv : db.Valid)
    (hreadable : ∀ row ∈ Sql.joinedRows lib ns filters db,
      ∀ field ∈ Sql.distinctFields selectFields [f], ∃ n, lib.jsonNumber row.2.content field = .ok n)
    (hrow : row ∈ Sql.joinedRows lib ns filters db) :
    Selects lib ns filters selectFields f db row ↔ f.holds (numberAt lib row.2.content f.path) = true := by
  have hpasses : ∀ row : JoinedRow,
      row.passes lib [f] = true ↔ f.holds (numberAt lib row.2.content f.path) = true := by
    intro row
    simp [JoinedRow.passes]
  have hread : ∀ row ∈ Sql.joinedRows lib ns filters db, row.Read lib selectFields [f] :=
    fun row hrow => readsRow_of_all (hreadable row hrow)
  rw [Selects, queryCandidatesJsonPushdown_of_read hread, ← hpasses]
  simp only [Except.ok.injEq, exists_eq_left', List.map_map]
  constructor
  · intro hmem
    obtain ⟨row', hrow', hcandidate⟩ := List.mem_map.mp hmem
    obtain ⟨hjoined, hpass⟩ := List.mem_filter.mp hrow'
    obtain ⟨hfile, hpayload⟩ := mem_joinedRows hrow
    obtain ⟨hfile', hpayload'⟩ := mem_joinedRows hjoined
    have hid : row'.1.id = row.1.id := congrArg CandidateRow.id hcandidate
    have hfiles : ∀ r ∈ Sql.filteredRows lib ns filters db, r ∈ db.files := by
      intro r hr
      rw [Sql.filteredRows, mem_sortBy] at hr
      exact (Db.mem_inNamespace.mp (List.mem_of_mem_filter hr)).1
    have hsame : row'.1 = row.1 := hv.eq_of_id (hfiles _ hfile') (hfiles _ hfile) hid
    rw [hid, hpayload] at hpayload'
    rwa [← Prod.ext hsame (Option.some.inj hpayload').symm]
  · intro hpass
    exact List.mem_map.mpr ⟨row, List.mem_filter.mpr ⟨hrow, hpass⟩, rfl⟩

/-- The condition pushed into SQL selects the entries that the predicate matches, except for those
whose field is an integer that rounds onto the threshold, or a number that SQLite and `serde_json`
read as numbers the threshold separates. -/
theorem selects_iff_matches_iff (hv : db.Valid) {p : Predicate} (hp : p.toWhere = some f)
    (ht : f.threshold.Finite)
    (hreadable : ∀ row ∈ Sql.joinedRows lib ns filters db,
      ∀ field ∈ Sql.distinctFields selectFields [f], ∃ n, lib.jsonNumber row.2.content field = .ok n)
    (hrow : row ∈ Sql.joinedRows lib ns filters db) {stored : Option SqlNumber}
    (hread : ReadsPath lib src f.path row v stored) :
    (Selects lib ns filters selectFields f db row ↔ p.matches lib v = true) ↔
      ¬Misread f stored ((v.getField f.path).bind Json.number?) := by
  rw [selects_iff hv hreadable hrow, numberAt, hread.stored_eq, ← Bool.eq_iff_iff]
  exact holds_eq_matches_iff lib hp ht hread.number

end Selection

section Samples

/-- SQLite on the text of an object whose number `a` is `2 ^ 53 + 1`, and on others, which are not
JSON here. -/
def bigNumber (content : List UInt8) (field : String) : Except SqlError (Option SqlNumber) :=
  if content = [123, 34, 97, 34, 58, 57, 48, 48, 55, 49, 57, 57, 50, 53, 52, 55, 52, 48, 57, 57, 51, 125]
  then .ok (if field = "a" then some (.integer 9007199254740993) else none)
  else .error (.other "malformed JSON")

/-- A payload is a JSON value. -/
def bigLib : QueryLib Json :=
  ⟨fun _ _ => true, fun _ _ => true, fun _ => .ok [], bigNumber, .ok, fun _ => .ok ""⟩

def bigValue : Json := .object [("a", .number (.posInt 9007199254740993))]

def bigSources : Sources Json :=
  { Sources.quiet with
    encode := fun _ _ => .ok ⟨[], "json"⟩
    decode := fun _ _ => .ok bigValue }

def bigRow : JoinedRow :=
  (⟨1, "n", "/a", ⟨0, 0, none⟩, 0, 0, 0⟩,
    ⟨1, [123, 34, 97, 34, 58, 57, 48, 48, 55, 49, 57, 57, 50, 53, 52, 55, 52, 48, 57, 57, 51, 125], "json"⟩)

/-- One entry, whose `a` is `2 ^ 53 + 1`. -/
def bigEntry : Db := ⟨[bigRow.1], [bigRow.2], 1⟩

theorem valid_bigEntry : bigEntry.Valid where
  ids := List.nodup_singleton 1
  keys := List.nodup_singleton ("n", "/a")
  payloadIds := List.nodup_singleton 1
  foreign p hp := ⟨_, List.mem_singleton.mpr rfl, by rw [List.mem_singleton.mp hp]; rfl⟩
  seq r hr := by rw [List.mem_singleton.mp hr]; exact le_rfl

theorem joinedRows_bigEntry : Sql.joinedRows bigLib "n" ⟨none, none, none⟩ bigEntry = [bigRow] := by
  decide

theorem number_bigValue :
    (bigValue.getField "a").bind Json.number? = some (.posInt 9007199254740993) := by
  decide +kernel

theorem readsPath_bigRow :
    ReadsPath bigLib bigSources "a" bigRow bigValue (some (.integer 9007199254740993)) where
  decodes := ⟨bigValue, rfl, rfl⟩
  stored_eq := by decide +kernel
  number := by
    rw [number_bigValue]
    exact .posInt 9007199254740993

/-- Above `2 ^ 52` both sides select it. -/
theorem selects_iff_matches_iff_sample :
    Selects bigLib "n" ⟨none, none, none⟩ [] ⟨"a", true, .ofInt (2 ^ 52)⟩ bigEntry bigRow ↔
      (Predicate.fieldGt "a" (.ofInt (2 ^ 52))).matches bigLib bigValue = true := by
  refine (selects_iff_matches_iff valid_bigEntry rfl (by decide +kernel) ?_ ?_ readsPath_bigRow).mpr ?_
  · rw [joinedRows_bigEntry]
    intro row hrow field hfield
    rw [List.mem_singleton.mp hrow, List.mem_singleton.mp hfield]
    exact ⟨_, readsPath_bigRow.stored_eq⟩
  · rw [joinedRows_bigEntry]
    exact List.mem_singleton.mpr rfl
  · rw [number_bigValue]
    rintro ⟨heq, -⟩
    exact absurd heq (by decide +kernel)

/-- Above `2 ^ 53` SQLite selects it, and the predicate does not match : it rounds to the
threshold. -/
theorem roundedInteger_selected :
    ReadsPath bigLib bigSources "a" bigRow bigValue (some (.integer 9007199254740993)) ∧
      Selects bigLib "n" ⟨none, none, none⟩ [] ⟨"a", true, .ofInt (2 ^ 53)⟩ bigEntry bigRow ∧
      (Predicate.fieldGt "a" (.ofInt (2 ^ 53))).matches bigLib bigValue = false := by
  refine ⟨readsPath_bigRow, ⟨[(bigRow.1.toCandidate, [])], by decide +kernel, ?_⟩, by decide +kernel⟩
  exact List.mem_singleton.mpr rfl

end Samples

end LocalCache
