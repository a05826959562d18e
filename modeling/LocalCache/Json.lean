import Mathlib.Algebra.Order.Field.Rat
import Mathlib.Order.WithBot
import LocalCache.Selection

/-!
# JSON values and their numbers

`Json` is `serde_json`'s `Value`. A number is a `u64`, a negative `i64` or an `f64`, and a
query reads each as an `f64`. An `F64` is its 64 bits; `F64.value` is the number they stand
for, none for a NaN, and comparisons compare these. `F64.ofInt` rounds an integer to the
nearest `f64`, ties to even.

A column value of SQLite that is a number is an integer or a real, and SQLite compares the
two by value, without rounding.
-/

namespace LocalCache

/-! ## Double precision -/

/-- The bits of an `f64`. -/
structure F64 where
  bits : UInt64
  deriving DecidableEq, Repr

namespace F64

def fraction (x : F64) : ℕ := x.bits.toNat % 2 ^ 52

def exponent (x : F64) : ℕ := x.bits.toNat / 2 ^ 52 % 2 ^ 11

def negative (x : F64) : Bool := 2 ^ 63 ≤ x.bits.toNat

/-- The number of a finite `f64`. -/
def finiteValue (x : F64) : ℚ :=
  let magnitude : ℚ :=
    if x.exponent = 0 then (x.fraction : ℚ) * 2 ^ (-1074 : ℤ)
    else ((2 ^ 52 + x.fraction : ℕ) : ℚ) * 2 ^ ((x.exponent : ℤ) - 1075)
  if x.negative then -magnitude else magnitude

/-- The number, an infinity included; none for a NaN. -/
def value (x : F64) : Option (WithBot (WithTop ℚ)) :=
  if x.exponent = 2 ^ 11 - 1 then
    if x.fraction = 0 then some (if x.negative then ⊥ else ((⊤ : WithTop ℚ) : WithBot (WithTop ℚ)))
    else none
  else some ((x.finiteValue : WithTop ℚ) : WithBot (WithTop ℚ))

/-- `PartialOrd` : a NaN compares with nothing. -/
def partialCmp (x y : F64) : Option Ordering :=
  match x.value, y.value with
  | some a, some b => some (compareOfLessAndEq a b)
  | _, _ => none

/-- The natural number `n / 2 ^ shift`, rounded to nearest, ties to even. -/
def roundShift (n shift : ℕ) : ℕ :=
  let quotient := n / 2 ^ shift
  let rest := n % 2 ^ shift
  if 2 ^ shift < 2 * rest ∨ 2 ^ shift = 2 * rest ∧ quotient % 2 = 1 then quotient + 1 else quotient

/-- The bits of the `f64` nearest to `n`, for an `n` below `2 ^ 1023`. -/
def magnitudeBits (n : ℕ) : ℕ :=
  if n = 0 then 0
  else
    let e := Nat.log2 n
    -- A significand that rounds up to `2 ^ 53` carries into the exponent.
    let significand := if e ≤ 52 then n * 2 ^ (52 - e) else roundShift n (e - 52)
    (e + 1022) * 2 ^ 52 + significand

/-- The `f64` nearest to an integer. -/
def ofInt (n : ℤ) : F64 :=
  ⟨UInt64.ofNat (if n < 0 then 2 ^ 63 + magnitudeBits n.natAbs else magnitudeBits n.natAbs)⟩

/-- The first integer that no `f64` is, rounds to even. -/
example : (ofInt (2 ^ 53 + 1)).value = (ofInt (2 ^ 53)).value ∧
    (ofInt (2 ^ 53 + 3)).value = (ofInt (2 ^ 53 + 4)).value := by decide +kernel

end F64

/-! ## Values -/

/-- `serde_json::Number`. -/
inductive JsonNumber
  | posInt (n : UInt64)
  | negInt (n : Int64)
  | float (x : F64)
  deriving DecidableEq, Repr

/-- The number as a double. -/
def JsonNumber.asF64 : JsonNumber → F64
  | .posInt n => .ofInt n.toNat
  | .negInt n => .ofInt n.toInt
  | .float x => x

/-- `PartialEq` : two numbers of one kind with one value. -/
def JsonNumber.eq : JsonNumber → JsonNumber → Bool
  | .posInt n, .posInt m => n = m
  | .negInt n, .negInt m => n = m
  | .float x, .float y => x.partialCmp y = some .eq
  | _, _ => false

/-- `serde_json::Value`. The keys of an object are distinct. -/
inductive Json
  | null
  | bool (b : Bool)
  | number (n : JsonNumber)
  | string (s : String)
  | array (items : List Json)
  | object (fields : List (String × Json))

/-- `str::split` by a character. -/
def splitText (sep : Char) (s : String) : List String := (s.toList.splitOn sep).map String.ofList

namespace Json

/-- The field of an object. -/
def get? : Json → String → Option Json
  | .object fields, key => (fields.find? fun f => f.1 = key).map Prod.snd
  | _, _ => none

/-- `get_field` : the fields of a dot-separated path, one inside another. -/
def getField (value : Json) (path : String) : Option Json :=
  (splitText '.' path).foldl (fun current key => current.bind fun v => v.get? key) (some value)

def asF64 : Json → Option F64
  | .number n => some n.asF64
  | _ => none

def asStr : Json → Option String
  | .string s => some s
  | _ => none

mutual

/-- `PartialEq`. -/
def eq : Json → Json → Bool
  | .null, .null => true
  | .bool a, .bool b => a = b
  | .number n, .number m => n.eq m
  | .string s, .string t => s = t
  | .array as, .array bs => eqAll as bs
  | .object fs, .object gs => fs.length = gs.length && eqFields fs gs
  | _, _ => false

def eqAll : List Json → List Json → Bool
  | [], [] => true
  | a :: as, b :: bs => a.eq b && eqAll as bs
  | _, _ => false

/-- Every field is a field of the other object with an equal value. -/
def eqFields : List (String × Json) → List (String × Json) → Bool
  | [], _ => true
  | (key, a) :: fs, gs =>
    (match gs.find? fun g => g.1 = key with
      | some (_, b) => a.eq b
      | none => false) && eqFields fs gs

end

end Json

/-! ## Numbers in SQLite -/

/-- A numeric column value. -/
inductive SqlNumber
  | integer (n : Int64)
  | real (x : F64)
  deriving DecidableEq, Repr

namespace SqlNumber

def value : SqlNumber → Option (WithBot (WithTop ℚ))
  | .integer n => some (((n.toInt : ℚ) : WithTop ℚ) : WithBot (WithTop ℚ))
  | .real x => x.value

/-- The column read as an `f64`. -/
def toF64 : SqlNumber → F64
  | .integer n => .ofInt n.toInt
  | .real x => x

/-- `column > ?` with a real bound. -/
def gt (n : SqlNumber) (threshold : F64) : Bool :=
  match n.value, threshold.value with
  | some a, some b => b < a
  | _, _ => false

/-- `column < ?` with a real bound. -/
def lt (n : SqlNumber) (threshold : F64) : Bool :=
  match n.value, threshold.value with
  | some a, some b => a < b
  | _, _ => false

end SqlNumber

end LocalCache
