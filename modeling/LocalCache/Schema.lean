import LocalCache.Bytes

/-!
# The serde data model and its wire format

A schema is a type graph `Γ : ι → Shape ι` : each name is one constructor of the serde
data model over names, so recursive and mutually recursive types are graphs with
cycles, and no name unfolds to itself without a constructor between. A `Value` is a
finite tree, and `Value.Fits Γ v s` says that `v` is a value of the type named `s`, with
every length a 64-bit `usize`.

The wire format is a function of the value alone. `Value.image` is its bytes,
`Value.levels` the nesting it opens, and `Value.claims` the total of the counts its
sequences and maps write. `Value.Occupied` says that every sequence element and every
map entry takes at least one byte; on such values the claims stay below the bytes
(`Value.claims_le`), the bound the decoder's budget rests on.
-/

namespace LocalCache

universe u

/-! ## Schemas -/

/-- The fixed-width scalars. Floats are their bit patterns. -/
inductive Scalar
  | i8 | i16 | i32 | i64 | i128
  | u8 | u16 | u32 | u64 | u128
  | f32 | f64
  deriving DecidableEq, Repr

/-- The width of a scalar in bytes. -/
def Scalar.size : Scalar → ℕ
  | .i8 | .u8 => 1
  | .i16 | .u16 => 2
  | .i32 | .u32 | .f32 => 4
  | .i64 | .u64 | .f64 => 8
  | .i128 | .u128 => 16

/-- What one variant of an enum carries. A struct variant is a tuple of its fields. -/
inductive VariantShape (ι : Type u)
  | unit
  | newtype (t : ι)
  | tuple (ts : List ι)

/-- One constructor of the serde data model, its parts given by name. A tuple struct
and a struct are tuples of their fields, a unit struct is the unit. -/
inductive Shape (ι : Type u)
  | bool
  | scalar (k : Scalar)
  | char
  | str
  | bytes
  | option (t : ι)
  | unit
  | newtypeStruct (t : ι)
  | tuple (ts : List ι)
  | seq (t : ι)
  | map (k v : ι)
  | enum (variants : List (VariantShape ι))

/-- A type graph : every name is a constructor over names. -/
abbrev Schema (ι : Type u) := ι → Shape ι

/-! ## Values -/

/-- A value of the serde data model. A map is its list of pairs. -/
inductive Value
  | bool (b : Bool)
  | scalar (k : Scalar) (bits : BitVec (8 * k.size))
  | char (c : Char)
  | str (s : String)
  | bytes (bs : List UInt8)
  | none
  | some (v : Value)
  | unit
  | newtypeStruct (v : Value)
  | tuple (vs : List Value)
  | seq (vs : List Value)
  | map (kvs : List (Value × Value))
  | unitVariant (index : UInt32)
  | newtypeVariant (index : UInt32) (v : Value)
  | tupleVariant (index : UInt32) (vs : List Value)

/-- The numbers a 64-bit `usize` holds are below this. -/
def usizeLimit : ℕ := 2 ^ 64

/-- `a + b` in `usize`, which overflows to nothing. -/
def usizeAdd (a b : ℕ) : Option ℕ := if a + b < usizeLimit then some (a + b) else none

/-- `a - b` in `usize`. -/
def usizeSub (a b : ℕ) : Option ℕ := if b ≤ a then some (a - b) else none

/-- `a.saturating_add(b)`. -/
def usizeSaturatingAdd (a b : ℕ) : ℕ := min (a + b) (usizeLimit - 1)

/-- `a.saturating_mul(b)`. -/
def usizeSaturatingMul (a b : ℕ) : ℕ := min (a * b) (usizeLimit - 1)

theorem usizeAdd_of_lt {a b : ℕ} (h : a + b < usizeLimit) : usizeAdd a b = some (a + b) := if_pos h

theorem usizeSub_of_le {a b : ℕ} (h : b ≤ a) : usizeSub a b = some (a - b) := if_pos h

namespace Value

variable {ι : Type u}

mutual

/-- `v` is a value of the type named `s`. -/
def Fits (Γ : Schema ι) : Value → ι → Prop
  | .bool _, s => Γ s = .bool
  | .scalar k _, s => Γ s = .scalar k
  | .char _, s => Γ s = .char
  | .str x, s => Γ s = .str ∧ (strBytes x).length < usizeLimit
  | .bytes bs, s => Γ s = .bytes ∧ bs.length < usizeLimit
  | .none, s => ∃ t, Γ s = .option t
  | .some v, s => ∃ t, Γ s = .option t ∧ v.Fits Γ t
  | .unit, s => Γ s = .unit
  | .newtypeStruct v, s => ∃ t, Γ s = .newtypeStruct t ∧ v.Fits Γ t
  | .tuple vs, s => ∃ ts, Γ s = .tuple ts ∧ FitEach Γ vs ts
  | .seq vs, s => ∃ t, Γ s = .seq t ∧ vs.length < usizeLimit ∧ FitAll Γ vs t
  | .map kvs, s => ∃ k v, Γ s = .map k v ∧ kvs.length < usizeLimit ∧ FitEntries Γ kvs k v
  | .unitVariant i, s => ∃ vars, Γ s = .enum vars ∧ vars[i.toNat]? = Option.some .unit
  | .newtypeVariant i v, s => ∃ vars t, Γ s = .enum vars ∧
      vars[i.toNat]? = Option.some (.newtype t) ∧ v.Fits Γ t
  | .tupleVariant i vs, s => ∃ vars ts, Γ s = .enum vars ∧
      vars[i.toNat]? = Option.some (.tuple ts) ∧ FitEach Γ vs ts

/-- The values of a tuple fit its fields, one for one. -/
def FitEach (Γ : Schema ι) : List Value → List ι → Prop
  | [], ts => ts = []
  | v :: vs, ts => ∃ t ts', ts = t :: ts' ∧ v.Fits Γ t ∧ FitEach Γ vs ts'

/-- Every element of a sequence fits the element type. -/
def FitAll (Γ : Schema ι) : List Value → ι → Prop
  | [], _ => True
  | v :: vs, t => v.Fits Γ t ∧ FitAll Γ vs t

/-- Every entry of a map fits the key and value types. -/
def FitEntries (Γ : Schema ι) : List (Value × Value) → ι → ι → Prop
  | [], _, _ => True
  | (k, v) :: kvs, tk, tv => k.Fits Γ tk ∧ v.Fits Γ tv ∧ FitEntries Γ kvs tk tv

end

/-! ## The wire format -/

mutual

/-- The bytes of a value. -/
def image : Value → List UInt8
  | .bool b => [if b then 1 else 0]
  | .scalar k bits => leBytes k.size bits.toNat
  | .char c => String.utf8EncodeChar c
  | .str x => leBytes 8 (strBytes x).length ++ strBytes x
  | .bytes bs => leBytes 8 bs.length ++ bs
  | .none => [0]
  | .some v => 1 :: v.image
  | .unit => []
  | .newtypeStruct v => v.image
  | .tuple vs => imageAll vs
  | .seq vs => leBytes 8 vs.length ++ imageAll vs
  | .map kvs => leBytes 8 kvs.length ++ imageEntries kvs
  | .unitVariant i => leBytes 4 i.toNat
  | .newtypeVariant i v => leBytes 4 i.toNat ++ v.image
  | .tupleVariant i vs => leBytes 4 i.toNat ++ imageAll vs

/-- The bytes of values one after another. -/
def imageAll : List Value → List UInt8
  | [] => []
  | v :: vs => v.image ++ imageAll vs

/-- The bytes of map entries one after another, each a key and then its value. -/
def imageEntries : List (Value × Value) → List UInt8
  | [] => []
  | (k, v) :: kvs => k.image ++ (v.image ++ imageEntries kvs)

end

mutual

/-- The nesting levels a value opens : an `Option` that holds a value, a newtype, a
sequence, a tuple, a map or an enum is one. A variant's fields add none. -/
def levels : Value → ℕ
  | .bool _ | .scalar _ _ | .char _ | .str _ | .bytes _ | .none | .unit => 0
  | .some v => v.levels + 1
  | .newtypeStruct v => v.levels + 1
  | .tuple vs => levelsAll vs + 1
  | .seq vs => levelsAll vs + 1
  | .map kvs => levelsEntries kvs + 1
  | .unitVariant _ => 1
  | .newtypeVariant _ v => v.levels + 1
  | .tupleVariant _ vs => levelsAll vs + 1

/-- The deepest of the values. -/
def levelsAll : List Value → ℕ
  | [] => 0
  | v :: vs => max v.levels (levelsAll vs)

/-- The deepest of the keys and values. -/
def levelsEntries : List (Value × Value) → ℕ
  | [] => 0
  | (k, v) :: kvs => max k.levels (max v.levels (levelsEntries kvs))

end

mutual

/-- The counts of all the sequences and maps of a value, added up. -/
def claims : Value → ℕ
  | .bool _ | .scalar _ _ | .char _ | .str _ | .bytes _ | .none | .unit => 0
  | .some v => v.claims
  | .newtypeStruct v => v.claims
  | .tuple vs => claimsAll vs
  | .seq vs => vs.length + claimsAll vs
  | .map kvs => kvs.length + claimsEntries kvs
  | .unitVariant _ => 0
  | .newtypeVariant _ v => v.claims
  | .tupleVariant _ vs => claimsAll vs

/-- The claims of values one after another. -/
def claimsAll : List Value → ℕ
  | [] => 0
  | v :: vs => v.claims + claimsAll vs

/-- The claims of map entries one after another. -/
def claimsEntries : List (Value × Value) → ℕ
  | [] => 0
  | (k, v) :: kvs => k.claims + (v.claims + claimsEntries kvs)

end

mutual

/-- Every sequence element and every map entry inside takes at least one byte. -/
def Occupied : Value → Prop
  | .bool _ | .scalar _ _ | .char _ | .str _ | .bytes _ | .none | .unit => True
  | .some v => v.Occupied
  | .newtypeStruct v => v.Occupied
  | .tuple vs => OccupiedAll vs
  | .seq vs => (∀ v ∈ vs, v.image ≠ []) ∧ OccupiedAll vs
  | .map kvs => (∀ kv ∈ kvs, kv.1.image ++ kv.2.image ≠ []) ∧ OccupiedEntries kvs
  | .unitVariant _ => True
  | .newtypeVariant _ v => v.Occupied
  | .tupleVariant _ vs => OccupiedAll vs

/-- `Occupied` of every value of a list. -/
def OccupiedAll : List Value → Prop
  | [] => True
  | v :: vs => v.Occupied ∧ OccupiedAll vs

/-- `Occupied` of every key and value of a list. -/
def OccupiedEntries : List (Value × Value) → Prop
  | [] => True
  | (k, v) :: kvs => k.Occupied ∧ v.Occupied ∧ OccupiedEntries kvs

end

/-! ## Claims stay below bytes -/

mutual

/-- The claims inside a value that takes bytes are fewer than its bytes, and a value
that takes none claims nothing. -/
theorem claims_le : ∀ v : Value, v.Occupied → v.claims ≤ v.image.length - 1
  | .bool _, _ | .scalar _ _, _ | .char _, _ | .str _, _ | .bytes _, _ | .none, _ | .unit, _
  | .unitVariant _, _ => by simp [claims]
  | .some v, h => by
    have := claims_le v (by simpa [Occupied] using h)
    simp only [claims, image, List.length_cons]
    omega
  | .newtypeStruct v, h => by
    simpa only [claims, image] using claims_le v (by simpa [Occupied] using h)
  | .tuple vs, h => by
    simpa only [claims, image] using claimsAll_le vs (by simpa [Occupied] using h)
  | .seq vs, h => by
    simp only [Occupied] at h
    have := length_add_claimsAll_le vs h.1 h.2
    simp only [claims, image, List.length_append, length_leBytes]
    omega
  | .map kvs, h => by
    simp only [Occupied] at h
    have := length_add_claimsEntries_le kvs h.1 h.2
    simp only [claims, image, List.length_append, length_leBytes]
    omega
  | .newtypeVariant i v, h => by
    have := claims_le v (by simpa [Occupied] using h)
    simp only [claims, image, List.length_append, length_leBytes]
    omega
  | .tupleVariant i vs, h => by
    have := claimsAll_le vs (by simpa [Occupied] using h)
    simp only [claims, image, List.length_append, length_leBytes]
    omega

theorem claimsAll_le : ∀ vs : List Value, OccupiedAll vs → claimsAll vs ≤ (imageAll vs).length - 1
  | [], _ => by simp [claimsAll]
  | v :: vs, h => by
    simp only [OccupiedAll] at h
    have := claims_le v h.1
    have := claimsAll_le vs h.2
    simp only [claimsAll, imageAll, List.length_append]
    omega

theorem length_add_claimsAll_le : ∀ vs : List Value, (∀ v ∈ vs, v.image ≠ []) →
    OccupiedAll vs → vs.length + claimsAll vs ≤ (imageAll vs).length
  | [], _, _ => by simp [claimsAll]
  | v :: vs, hne, h => by
    simp only [OccupiedAll] at h
    have := claims_le v h.1
    have := length_add_claimsAll_le vs (fun w hw => hne w (by simp [hw])) h.2
    have := List.length_pos_iff.mpr (hne v (by simp))
    simp only [claimsAll, imageAll, List.length_append, List.length_cons]
    omega

theorem length_add_claimsEntries_le : ∀ kvs : List (Value × Value),
    (∀ kv ∈ kvs, kv.1.image ++ kv.2.image ≠ []) → OccupiedEntries kvs →
      kvs.length + claimsEntries kvs ≤ (imageEntries kvs).length
  | [], _, _ => by simp [claimsEntries]
  | (k, v) :: kvs, hne, h => by
    simp only [OccupiedEntries] at h
    have := claims_le k h.1
    have := claims_le v h.2.1
    have := length_add_claimsEntries_le kvs (fun w hw => hne w (by simp [hw])) h.2.2
    have := List.length_pos_iff.mpr (hne (k, v) (by simp))
    simp only [List.length_append] at this
    simp only [claimsEntries, imageEntries, List.length_append, List.length_cons]
    omega

end

end Value

end LocalCache
