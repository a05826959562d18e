import LocalCache.Encoder
import LocalCache.StateExcept

/-!
# The payload decoder

`Decoder` is the cursor : the bytes left, the depth reached, and the budget of sequence
and map elements the whole decode may still claim. `deserialize` follows the
`Deserializer`, asked for the value of a schema's name. Every call that decodes another
value goes through `nested`, so the recursion is on fuel that falls exactly as the depth
rises, and `limit + 1` of it never runs out.

`fromSlice` returns the value and the bytes after it, which the source ignores.
-/

namespace LocalCache

universe u

/-- A cursor over the payload, the depth reached so far, and how many more sequence and
map elements this decode may claim, in all. -/
structure Decoder where
  input : List UInt8
  depth : ℕ
  budget : ℕ
  deriving DecidableEq, Repr

/-- Reading from the cursor, or failing. -/
abbrev DecodeM (α : Type) := StateExcept Decoder CodecError α

open StateExcept

namespace Decoder

def new (input : List UInt8) : Decoder := ⟨input, 0, input.length⟩

/-- The next `n` bytes, or an error if fewer remain. -/
def take (n : ℕ) : DecodeM (List UInt8) := fun d =>
  if n ≤ d.input.length then .ok (d.input.take n, { d with input := d.input.drop n })
  else .error (.unexpectedEnd n d.input.length)

/-- The next byte : `array::<1>`. -/
def byte : DecodeM UInt8 := fun d =>
  match d.input with
  | [] => .error (.unexpectedEnd 1 0)
  | b :: bs => .ok (b, { d with input := bs })

/-- A `u64` length prefix as a `usize`. -/
def length : DecodeM ℕ := do
  let raw := ofLe (← take 8)
  if raw < usizeLimit then pure raw else fail (.lengthOverflow raw)

/-- The element count of a sequence or map : at most the bytes left, and taken from the
budget. -/
def count : DecodeM ℕ := do
  let count ← length
  fun d =>
    if count > d.input.length then .error (.countExceedsInput count d.input.length)
    else if count > d.budget then .error (.countExceedsInput count d.budget)
    else .ok (count, { d with budget := d.budget - count })

/-- A length-prefixed byte string. -/
def byteBuf : DecodeM (List UInt8) := do
  let length ← length
  take length

/-- A length-prefixed text. -/
def str : DecodeM String := do
  match fromUtf8 (← byteBuf) with
  | some text => pure text
  | none => fail .invalidUtf8

/-- How many bytes the UTF-8 sequence starting with `first` has, or 0 if `first` cannot
start one. -/
def utf8Width (first : UInt8) : ℕ :=
  if first ≤ 0x7f then 1
  else if 0xc2 ≤ first ∧ first ≤ 0xdf then 2
  else if 0xe0 ≤ first ∧ first ≤ 0xef then 3
  else if 0xf0 ≤ first ∧ first ≤ 0xf4 then 4
  else 0

/-- One UTF-8 encoded `char` : its first byte gives the width, and the whole is then
validated. -/
def char : DecodeM Char := do
  let first ← byte
  let width := utf8Width first
  if width = 0 then fail .invalidChar
  else
    let rest ← take (width - 1)
    match fromUtf8 (first :: rest) with
    | none => fail .invalidChar
    | some text =>
      match text.toList with
      | [] => fail .invalidChar
      | c :: _ => pure c

/-- Run `decode` one level deeper, or fail if that exceeds the limit. -/
def nested {α : Type} (limit : ℕ) (decode : DecodeM α) : DecodeM α := fun d =>
  if d.depth ≥ limit then .error .tooDeep
  else match decode { d with depth := d.depth + 1 } with
    | .ok (a, d) => .ok (a, { d with depth := d.depth - 1 })
    | .error e => .error e

/-- `Elements` read to the end by a collection : exactly `remaining` values. -/
def elements (decode : DecodeM Value) : (remaining : ℕ) → DecodeM (List Value)
  | 0 => pure []
  | remaining + 1 => do
    let v ← decode
    let vs ← elements decode remaining
    pure (v :: vs)

/-- The fields of a tuple or variant, each of its own type. -/
def fields {ι : Type u} (decode : ι → DecodeM Value) : List ι → DecodeM (List Value)
  | [] => pure []
  | t :: ts => do
    let v ← decode t
    let vs ← fields decode ts
    pure (v :: vs)

/-- `Entries` read to the end by a map : exactly `remaining` keys and values. -/
def entries (key value : DecodeM Value) : (remaining : ℕ) → DecodeM (List (Value × Value))
  | 0 => pure []
  | remaining + 1 => do
    let k ← key
    let v ← value
    let kvs ← entries key value remaining
    pure ((k, v) :: kvs)

/-- serde's message for an index that names no variant. -/
def invalidVariant (index : UInt32) (variants : ℕ) : String :=
  "invalid value: integer `" ++ toString index.toNat ++ "`, expected variant index 0 <= i < " ++
    toString variants

/-- The fields of the variant the index names. -/
def variant {ι : Type u} (decode : ι → DecodeM Value) (variants : List (VariantShape ι))
    (index : UInt32) : DecodeM Value :=
  match variants[index.toNat]? with
  | none => fail (.message (invalidVariant index variants.length))
  | some .unit => pure (.unitVariant index)
  | some (.newtype t) => do return .newtypeVariant index (← decode t)
  | some (.tuple ts) => do return .tupleVariant index (← fields decode ts)

end Decoder

open Decoder

/-- The `Deserializer`, one case per constructor of the schema language. -/
def deserialize {ι : Type u} (limit : ℕ) (Γ : Schema ι) : (fuel : ℕ) → ι → DecodeM Value
  | 0, _ => fail .tooDeep
  | fuel + 1, s =>
    match Γ s with
    | .bool => do
      match ← byte with
      | 0 => pure (.bool false)
      | 1 => pure (.bool true)
      | other => fail (.invalidBool other)
    | .scalar k => do return .scalar k (BitVec.ofNat _ (ofLe (← take k.size)))
    | .char => do return .char (← char)
    | .str => do return .str (← str)
    | .bytes => do return .bytes (← byteBuf)
    | .option t => do
      match ← byte with
      | 0 => pure .none
      | 1 => nested limit do return .some (← deserialize limit Γ fuel t)
      | other => fail (.invalidOptionTag other)
    | .unit => pure .unit
    | .newtypeStruct t => nested limit do return .newtypeStruct (← deserialize limit Γ fuel t)
    | .tuple ts => nested limit do return .tuple (← fields (deserialize limit Γ fuel) ts)
    | .seq t => do
      let count ← count
      nested limit do return .seq (← elements (deserialize limit Γ fuel t) count)
    | .map k v => do
      let count ← count
      nested limit do
        return .map (← entries (deserialize limit Γ fuel k) (deserialize limit Γ fuel v) count)
    | .enum variants => nested limit do
      let index := UInt32.ofNat (ofLe (← take 4))
      variant (deserialize limit Γ fuel) variants index

/-- Decode a value from the start of `bytes` with `limit` levels of nesting. -/
def fromSliceWithin {ι : Type u} (limit : ℕ) (Γ : Schema ι) (s : ι) (bytes : List UInt8) :
    Except CodecError (Value × List UInt8) :=
  match deserialize limit Γ (limit + 1) s (.new bytes) with
  | .ok (v, d) => .ok (v, d.input)
  | .error e => .error e

/-- Decode a value from the start of `bytes`, with the bytes after it. -/
def fromSlice {ι : Type u} (Γ : Schema ι) (s : ι) (bytes : List UInt8) :
    Except CodecError (Value × List UInt8) :=
  fromSliceWithin depthLimit Γ s bytes

/-! ## The width of a character -/

/-- The first byte of an encoded character tells how many bytes it has. -/
theorem utf8Width_of_utf8EncodeChar {c : Char} {first : UInt8} {rest : List UInt8}
    (h : String.utf8EncodeChar c = first :: rest) : utf8Width first = rest.length + 1 := by
  have hmax : c.val.toNat < 0x110000 := by
    rcases c.valid with hc | hc
    · exact hc.trans (by decide)
    · exact hc.2
  have toNat_ofNat : ∀ n : ℕ, (UInt8.ofNat n).toNat = n % 256 := fun n => UInt8.toNat_ofNat'
  unfold String.utf8EncodeChar at h
  simp only at h
  split_ifs at h <;> obtain ⟨rfl, rfl⟩ := List.cons.inj h <;>
    simp only [utf8Width, UInt8.le_iff_toNat_le, toNat_ofNat, List.length_cons, List.length_nil] <;>
    simp only [UInt8.reduceToNat] <;>
    split_ifs <;> omega

end LocalCache
