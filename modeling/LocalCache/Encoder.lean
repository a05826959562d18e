import LocalCache.Schema

/-!
# The payload encoder

`Encoder` holds the bytes written so far and the depth reached. `serialize` follows the
`Serializer` : one case per constructor of the data model, with `Compound` for the
elements of sequences, maps, tuples and variants. The depth limit is a parameter, so that
the nesting a value needs can be stated; `toVec` is the encoder at `depthLimit`.

`writes_serialize` : on a value whose lengths fit a `usize` the encoder appends the value's
`image` when its `levels` fit under the limit, and fails with `tooDeep` when they do not.
-/

namespace LocalCache

/-- How many levels of nested values the codec accepts. -/
def depthLimit : ℕ := 128

/-- Why a payload could not be written or read. -/
inductive CodecError
  | message (text : String)
  | unexpectedEnd (needed remaining : ℕ)
  | countExceedsInput (claimed remaining : ℕ)
  | lengthOverflow (length : ℕ)
  | invalidBool (value : UInt8)
  | invalidOptionTag (value : UInt8)
  | invalidChar
  | invalidUtf8
  | tooDeep
  | lengthMismatch (declared written : ℕ)
  | lengthTooLarge
  deriving DecidableEq, Repr

/-- Bytes written so far, and the depth reached. -/
structure Encoder where
  out : List UInt8
  depth : ℕ
  deriving DecidableEq, Repr

namespace Encoder

def new : Encoder := ⟨[], 0⟩

def put (e : Encoder) (bs : List UInt8) : Encoder := { e with out := e.out ++ bs }

/-- Start a level, or fail if that exceeds the limit. -/
def enter (limit : ℕ) (e : Encoder) : Except CodecError Encoder :=
  if e.depth ≥ limit then .error .tooDeep else .ok { e with depth := e.depth + 1 }

def leave (e : Encoder) : Encoder := { e with depth := e.depth - 1 }

/-- Run `write` one level deeper. -/
def nested (limit : ℕ) (write : Encoder → Except CodecError Encoder) (e : Encoder) :
    Except CodecError Encoder := do
  let e ← e.enter limit
  let e ← write e
  return e.leave

def putU32 (e : Encoder) (value : UInt32) : Encoder := e.put (leBytes 4 value.toNat)

def lengthPrefix (e : Encoder) (length : ℕ) : Except CodecError Encoder :=
  if length < 2 ^ 64 then .ok (e.put (leBytes 8 length)) else .error .lengthTooLarge

end Encoder

/-- The elements of a sequence, map, tuple or variant : the encoder, the declared count
of a sequence or map, and the elements (a map's keys) written so far. -/
structure Compound where
  encoder : Encoder
  declared : Option ℕ
  written : ℕ

namespace Compound

def fixed (e : Encoder) : Compound := ⟨e, none, 0⟩

def counted (e : Encoder) (declared : ℕ) : Compound := ⟨e, some declared, 0⟩

/-- Count an element and write it. -/
def element (c : Compound) (write : Encoder → Except CodecError Encoder) :
    Except CodecError Compound := do
  let e ← write c.encoder
  return { c with encoder := e, written := c.written + 1 }

/-- Write a map's value : `element` without the count. -/
def value (c : Compound) (write : Encoder → Except CodecError Encoder) :
    Except CodecError Compound := do
  let e ← write c.encoder
  return { c with encoder := e }

/-- End the level. A sequence or map must have written as many elements as declared. -/
def finish (c : Compound) : Except CodecError Encoder :=
  match c.declared with
  | some declared =>
    if declared ≠ c.written then .error (.lengthMismatch declared c.written)
    else .ok c.encoder.leave
  | none => .ok c.encoder.leave

end Compound

mutual

/-- The `Serializer`, one case per constructor of the data model. -/
def serialize (limit : ℕ) : Value → Encoder → Except CodecError Encoder
  | .bool b, e => .ok (e.put [if b then 1 else 0])
  | .scalar k bits, e => .ok (e.put (leBytes k.size bits.toNat))
  | .char c, e => .ok (e.put (String.utf8EncodeChar c))
  | .str x, e => do return (← e.lengthPrefix (strBytes x).length).put (strBytes x)
  | .bytes bs, e => do return (← e.lengthPrefix bs.length).put bs
  | .none, e => .ok (e.put [0])
  | .some v, e => (e.put [1]).nested limit (serialize limit v)
  | .unit, e => .ok e
  | .newtypeStruct v, e => e.nested limit (serialize limit v)
  | .tuple vs, e => do
    let e ← e.enter limit
    let c ← serializeElements limit vs (.fixed e)
    c.finish
  | .seq vs, e => do
    let e ← e.enter limit
    let e ← e.lengthPrefix vs.length
    let c ← serializeElements limit vs (.counted e vs.length)
    c.finish
  | .map kvs, e => do
    let e ← e.enter limit
    let e ← e.lengthPrefix kvs.length
    let c ← serializeEntries limit kvs (.counted e kvs.length)
    c.finish
  | .unitVariant i, e => e.nested limit fun e => .ok (e.putU32 i)
  | .newtypeVariant i v, e => e.nested limit fun e => serialize limit v (e.putU32 i)
  | .tupleVariant i vs, e => do
    let e ← e.enter limit
    let c ← serializeElements limit vs (.fixed (e.putU32 i))
    c.finish

/-- `serialize_element` of each value in turn. -/
def serializeElements (limit : ℕ) : List Value → Compound → Except CodecError Compound
  | [], c => .ok c
  | v :: vs, c => do
    let c ← c.element (serialize limit v)
    serializeElements limit vs c

/-- `serialize_key` and `serialize_value` of each entry in turn. -/
def serializeEntries (limit : ℕ) : List (Value × Value) → Compound → Except CodecError Compound
  | [], c => .ok c
  | (k, v) :: kvs, c => do
    let c ← c.element (serialize limit k)
    let c ← c.value (serialize limit v)
    serializeEntries limit kvs c

end

/-- Encode a value with `limit` levels of nesting. -/
def toVecWithin (limit : ℕ) (v : Value) : Except CodecError (List UInt8) := do
  let e ← serialize limit v .new
  return e.out

/-- Encode a value in the payload format. -/
def toVec (v : Value) : Except CodecError (List UInt8) := toVecWithin depthLimit v

/-! ## What the encoder writes -/

@[simp] theorem Encoder.depth_put (e : Encoder) (bs : List UInt8) : (e.put bs).depth = e.depth :=
  rfl

theorem Encoder.put_put (e : Encoder) (as bs : List UInt8) :
    (e.put as).put bs = e.put (as ++ bs) := by
  simp [put]

theorem Encoder.lengthPrefix_of_lt (e : Encoder) {n : ℕ} (h : n < usizeLimit) :
    e.lengthPrefix n = .ok (e.put (leBytes 8 n)) :=
  if_pos h

/-- A writer that appends `bs` when its `n` levels fit under the limit, and otherwise
fails with `tooDeep`. -/
def Writes (limit n : ℕ) (bs : List UInt8) (write : Encoder → Except CodecError Encoder) :
    Prop :=
  ∀ e : Encoder, e.depth ≤ limit →
    write e = if e.depth + n ≤ limit then .ok (e.put bs) else .error .tooDeep

/-- The same for a writer of elements, which also counts `k` of them. -/
def WritesElements (limit n k : ℕ) (bs : List UInt8)
    (write : Compound → Except CodecError Compound) : Prop :=
  ∀ c : Compound, c.encoder.depth ≤ limit →
    write c = if c.encoder.depth + n ≤ limit
      then .ok ⟨c.encoder.put bs, c.declared, c.written + k⟩ else .error .tooDeep

namespace Writes

variable {limit n k : ℕ} {bs pre : List UInt8}

/-- Writers that agree on every encoder write the same. -/
theorem congr {write write' : Encoder → Except CodecError Encoder} (h : Writes limit n bs write)
    (hw : ∀ e, write' e = write e) : Writes limit n bs write' :=
  fun e he => (hw e).trans (h e he)

theorem leaf (bs : List UInt8) : Writes limit 0 bs fun e => .ok (e.put bs) :=
  fun _ h => (if_pos h).symm

theorem afterPut {write : Encoder → Except CodecError Encoder} (h : Writes limit n bs write)
    (pre : List UInt8) : Writes limit n (pre ++ bs) fun e => write (e.put pre) := by
  intro e he
  beta_reduce
  rw [h (e.put pre) he, Encoder.depth_put, Encoder.put_put]

theorem nested {write : Encoder → Except CodecError Encoder} (h : Writes limit n bs write) :
    Writes limit (n + 1) bs fun e => e.nested limit write := by
  intro e he
  unfold Encoder.nested Encoder.enter
  beta_reduce
  by_cases hd : e.depth ≥ limit
  · rw [if_pos hd, if_neg (by omega)]
    rfl
  · rw [if_neg hd]
    show (write ⟨e.out, e.depth + 1⟩ >>= fun e' => pure e'.leave) = _
    rw [h _ (by simp only; omega)]
    by_cases hn : e.depth + (n + 1) ≤ limit
    · rw [if_pos hn, if_pos (by simp only; omega)]
      rfl
    · rw [if_neg hn, if_neg (by simp only; omega)]
      rfl

/-- A level of elements : enter, write `pre`, write the elements, finish. The declared
count, when there is one, is the number of elements. -/
theorem compound {write : Compound → Except CodecError Compound}
    (h : WritesElements limit n k bs write) {declared : Option ℕ}
    (hd : declared = none ∨ declared = some k) (pre : List UInt8) :
    Writes limit (n + 1) (pre ++ bs) (fun e => do
      let e ← e.enter limit
      let c ← write ⟨e.put pre, declared, 0⟩
      c.finish) := by
  intro e he
  unfold Encoder.enter
  beta_reduce
  by_cases hl : e.depth ≥ limit
  · rw [if_pos hl, if_neg (by omega)]
    rfl
  · rw [if_neg hl]
    show (write ⟨(⟨e.out, e.depth + 1⟩ : Encoder).put pre, declared, 0⟩ >>= Compound.finish) = _
    rw [h _ (by simp only [Encoder.depth_put]; omega)]
    by_cases hn : e.depth + (n + 1) ≤ limit
    · rw [if_pos hn, if_pos (by simp only [Encoder.depth_put]; omega)]
      rcases hd with rfl | rfl <;>
        simp [Compound.finish, Encoder.leave, Encoder.put, Bind.bind, Except.bind]
    · rw [if_neg hn, if_neg (by simp only [Encoder.depth_put]; omega)]
      rfl

end Writes

namespace WritesElements

variable {limit n m k : ℕ} {as bs : List UInt8}

/-- An element, a value of a map, or anything else written first, then the rest. -/
theorem cons {first rest : Compound → Except CodecError Compound} {j : ℕ}
    (hf : WritesElements limit n j as first) (hr : WritesElements limit m k bs rest) :
    WritesElements limit (max n m) (j + k) (as ++ bs) fun c => first c >>= rest := by
  intro c hc
  show (first c >>= rest) = _
  rw [hf c hc]
  by_cases hn : c.encoder.depth + n ≤ limit
  · rw [if_pos hn]
    show rest ⟨c.encoder.put as, c.declared, c.written + j⟩ = _
    rw [hr ⟨c.encoder.put as, c.declared, c.written + j⟩ hc, Encoder.depth_put, Encoder.put_put,
      Nat.add_assoc]
    by_cases hm : c.encoder.depth + m ≤ limit
    · rw [if_pos hm, if_pos (by omega)]
    · rw [if_neg hm, if_neg (by omega)]
  · rw [if_neg hn, if_neg (by omega)]
    rfl

theorem element {write : Encoder → Except CodecError Encoder} (h : Writes limit n bs write) :
    WritesElements limit n 1 bs fun c => c.element write := by
  intro c hc
  unfold Compound.element
  beta_reduce
  rw [h _ hc]
  split_ifs <;> rfl

theorem value {write : Encoder → Except CodecError Encoder} (h : Writes limit n bs write) :
    WritesElements limit n 0 bs fun c => c.value write := by
  intro c hc
  unfold Compound.value
  beta_reduce
  rw [h _ hc]
  split_ifs <;> rfl

theorem nil : WritesElements limit 0 0 [] .ok := by
  intro c hc
  simp [Encoder.put, hc]

end WritesElements

section Writing

variable {ι : Type*} (Γ : Schema ι) (limit : ℕ)

mutual

/-- The encoder writes the image of a value whose lengths fit a `usize`. -/
theorem writes_serialize : ∀ (v : Value) (s : ι), v.Fits Γ s →
    Writes limit v.levels v.image (serialize limit v)
  | .bool _, _, _ | .scalar _ _, _, _ | .char _, _, _ | .none, _, _ => by
    simpa only [serialize, Value.image, Value.levels] using Writes.leaf _
  | .unit, _, _ => by
    intro e he
    simp [serialize, Value.image, Value.levels, Encoder.put, he]
  | .str x, s, h => by
    simp only [Value.Fits] at h
    have hw : serialize limit (.str x) =
        fun e => .ok (e.put (leBytes 8 (strBytes x).length ++ strBytes x)) := by
      funext e
      simp [serialize, e.lengthPrefix_of_lt h.2, Encoder.put_put, Bind.bind, Except.bind,
        pure, Except.pure]
    simpa only [hw, Value.image, Value.levels] using Writes.leaf _
  | .bytes bs, s, h => by
    simp only [Value.Fits] at h
    have hw : serialize limit (.bytes bs) = fun e => .ok (e.put (leBytes 8 bs.length ++ bs)) := by
      funext e
      simp [serialize, e.lengthPrefix_of_lt h.2, Encoder.put_put, Bind.bind, Except.bind,
        pure, Except.pure]
    simpa only [hw, Value.image, Value.levels] using Writes.leaf _
  | .some v, s, h => by
    simp only [Value.Fits] at h
    obtain ⟨t, -, ht⟩ := h
    have := (writes_serialize v t ht).nested.afterPut [1]
    simpa only [serialize, Value.image, Value.levels, List.singleton_append] using this
  | .newtypeStruct v, s, h => by
    simp only [Value.Fits] at h
    obtain ⟨t, -, ht⟩ := h
    simpa only [serialize, Value.image, Value.levels] using (writes_serialize v t ht).nested
  | .tuple vs, s, h => by
    simp only [Value.Fits] at h
    obtain ⟨ts, -, hts⟩ := h
    have := Writes.compound (writes_serializeEach vs ts hts) (Or.inl rfl) []
    simpa [serialize, Value.image, Value.levels, Compound.fixed, Encoder.put] using this
  | .seq vs, s, h => by
    simp only [Value.Fits] at h
    obtain ⟨t, -, hlen, hts⟩ := h
    have hw := Writes.compound (writes_serializeElements vs t hts) (Or.inr rfl)
      (leBytes 8 vs.length)
    simp only [Value.image, Value.levels]
    refine hw.congr fun e => ?_
    simp only [serialize, Encoder.lengthPrefix_of_lt _ hlen]
    rfl
  | .map kvs, s, h => by
    simp only [Value.Fits] at h
    obtain ⟨k, v, -, hlen, hts⟩ := h
    have hw := Writes.compound (writes_serializeEntries kvs k v hts) (Or.inr rfl)
      (leBytes 8 kvs.length)
    simp only [Value.image, Value.levels]
    refine hw.congr fun e => ?_
    simp only [serialize, Encoder.lengthPrefix_of_lt _ hlen]
    rfl
  | .unitVariant i, _, _ => by
    have hw : Writes limit 1 (leBytes 4 i.toNat) _ := (Writes.leaf _).nested
    simp only [Value.image, Value.levels]
    refine hw.congr fun e => ?_
    simp only [serialize, Encoder.putU32]
  | .newtypeVariant i v, s, h => by
    simp only [Value.Fits] at h
    obtain ⟨_, t, -, -, ht⟩ := h
    have hw := ((writes_serialize v t ht).afterPut (leBytes 4 i.toNat)).nested
    simp only [Value.image, Value.levels]
    refine hw.congr fun e => ?_
    simp only [serialize, Encoder.putU32]
  | .tupleVariant i vs, s, h => by
    simp only [Value.Fits] at h
    obtain ⟨_, ts, -, -, hts⟩ := h
    have hw := Writes.compound (writes_serializeEach vs ts hts) (Or.inl rfl) (leBytes 4 i.toNat)
    simp only [Value.image, Value.levels]
    refine hw.congr fun e => ?_
    simp only [serialize, Encoder.putU32, Compound.fixed]

theorem writes_serializeEach : ∀ (vs : List Value) (ts : List ι), Value.FitEach Γ vs ts →
    WritesElements limit (Value.levelsAll vs) vs.length (Value.imageAll vs)
      (serializeElements limit vs)
  | [], _, _ => WritesElements.nil
  | v :: vs, _, h => by
    simp only [Value.FitEach] at h
    obtain ⟨t, ts, -, ht, hts⟩ := h
    have := (WritesElements.element (writes_serialize v t ht)).cons (writes_serializeEach vs ts hts)
    simpa only [serializeElements, Value.imageAll, Value.levelsAll, List.length_cons,
      Nat.add_comm 1] using this

theorem writes_serializeElements : ∀ (vs : List Value) (t : ι), Value.FitAll Γ vs t →
    WritesElements limit (Value.levelsAll vs) vs.length (Value.imageAll vs)
      (serializeElements limit vs)
  | [], _, _ => WritesElements.nil
  | v :: vs, t, h => by
    simp only [Value.FitAll] at h
    have := (WritesElements.element (writes_serialize v t h.1)).cons
      (writes_serializeElements vs t h.2)
    simpa only [serializeElements, Value.imageAll, Value.levelsAll, List.length_cons,
      Nat.add_comm 1] using this

theorem writes_serializeEntries : ∀ (kvs : List (Value × Value)) (tk tv : ι),
    Value.FitEntries Γ kvs tk tv →
      WritesElements limit (Value.levelsEntries kvs) kvs.length (Value.imageEntries kvs)
        (serializeEntries limit kvs)
  | [], _, _, _ => WritesElements.nil
  | (k, v) :: kvs, tk, tv, h => by
    simp only [Value.FitEntries] at h
    have := (WritesElements.element (writes_serialize k tk h.1)).cons
      ((WritesElements.value (writes_serialize v tv h.2.1)).cons
        (writes_serializeEntries kvs tk tv h.2.2))
    simpa only [serializeEntries, Value.imageEntries, Value.levelsEntries, List.length_cons,
      Nat.add_comm 1, Nat.zero_add] using this

end

/-- The encoder with `limit` levels : the image if the value's levels are at most `limit`,
and `tooDeep` if they are more. -/
theorem toVecWithin_eq {v : Value} {s : ι} (h : v.Fits Γ s) :
    toVecWithin limit v = if v.levels ≤ limit then .ok v.image else .error .tooDeep := by
  unfold toVecWithin
  rw [writes_serialize Γ limit v s h .new (Nat.zero_le _)]
  simp only [Encoder.new, Nat.zero_add]
  split_ifs <;> rfl

end Writing

end LocalCache
