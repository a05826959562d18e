import LocalCache.Decoder
import LocalCache.Traced

/-!
# The work of a decode

The decoder once more, listing its steps : the bytes it takes, the levels it enters, the
sequence elements and map entries it begins, the texts and byte buffers it copies. A decode
that fails has done work too, so the list survives the failure. `run_deserialize` : without
the list it is the decoder.

`Bounded` says what a decode may do from a cursor, with `credit` elements paid for already.
A count pays for its elements at once, out of the budget all the open containers share, and
each of them then uses up one of the credit. So the elements begun and the budget left
never exceed the budget at the start, however the containers nest and however small their
elements are.

Where the source recurses without a measure, the model has fuel. `starved` is the step of a
decode that ran out of it : with fuel beyond the levels left there is none, and more fuel
changes nothing.
-/

namespace LocalCache

universe u

/-- A step of a decode. -/
inductive Step
  | took (bytes : List UInt8)
  | entered (depth : ℕ)
  | began
  | copied (length remaining : ℕ)
  | starved
  deriving DecidableEq, Repr

/-- A step within its bounds : no level beyond the limit, no copy beyond the bytes there
were, and fuel to go on. -/
def Step.Fine (limit : ℕ) : Step → Prop
  | .took _ | .began => True
  | .entered depth => depth ≤ limit
  | .copied length remaining => length ≤ remaining
  | .starved => False

/-- Reading from the cursor, and listing the steps. -/
abbrev TraceM (α : Type) := Traced Decoder CodecError Step α

namespace TraceM

open Traced (lift note fail)

/-! ## The decoder, listing its steps -/

/-- How many bytes remain. -/
def remaining : TraceM ℕ := fun d => (.ok (d.input.length, d), [])

/-- The next `n` bytes, or an error if fewer remain. -/
def take (n : ℕ) : TraceM (List UInt8) := do
  let bytes ← lift (Decoder.take n)
  note (.took bytes)
  pure bytes

/-- The next byte. -/
def byte : TraceM UInt8 := do
  let b ← lift Decoder.byte
  note (.took [b])
  pure b

/-- A `u64` length prefix as a `usize`. -/
def length : TraceM ℕ := do
  let raw := ofLe (← take 8)
  if raw < usizeLimit then pure raw else fail (.lengthOverflow raw)

/-- Check a count against the bytes left, and take it from the budget. -/
def claim (count : ℕ) : TraceM ℕ := lift fun d =>
  if count > d.input.length then .error (.countExceedsInput count d.input.length)
  else if count > d.budget then .error (.countExceedsInput count d.budget)
  else .ok (count, { d with budget := d.budget - count })

/-- The element count of a sequence or map. -/
def count : TraceM ℕ := do
  let count ← length
  claim count

/-- A length-prefixed byte string, copied out of the input. -/
def byteBuf : TraceM (List UInt8) := do
  let length ← length
  let remaining ← remaining
  let bytes ← take length
  note (.copied bytes.length remaining)
  pure bytes

/-- A length-prefixed text, copied out of the input once it is validated. -/
def str : TraceM String := do
  let length ← length
  let remaining ← remaining
  let bytes ← take length
  match fromUtf8 bytes with
  | some text =>
    note (.copied bytes.length remaining)
    pure text
  | none => fail .invalidUtf8

/-- One UTF-8 encoded `char`. -/
def char : TraceM Char := do
  let first ← byte
  let width := Decoder.utf8Width first
  if width = 0 then fail .invalidChar
  else
    let rest ← take (width - 1)
    match fromUtf8 (first :: rest) with
    | none => fail .invalidChar
    | some text =>
      match text.toList with
      | [] => fail .invalidChar
      | c :: _ => pure c

/-- Run `decode` one level deeper, or fail if that exceeds the limit. -/
def nested {α : Type} (limit : ℕ) (decode : TraceM α) : TraceM α := fun d =>
  if d.depth ≥ limit then (.error .tooDeep, [])
  else match decode { d with depth := d.depth + 1 } with
    | (.ok (a, e), steps) =>
      (.ok (a, { e with depth := e.depth - 1 }), .entered (d.depth + 1) :: steps)
    | (.error e, steps) => (.error e, .entered (d.depth + 1) :: steps)

/-- The elements of a sequence, each begun and then decoded. -/
def elements (decode : TraceM Value) : (remaining : ℕ) → TraceM (List Value)
  | 0 => pure []
  | remaining + 1 => do
    note .began
    let v ← decode
    let vs ← elements decode remaining
    pure (v :: vs)

/-- The fields of a tuple or variant. Their number is the type's and not the input's. -/
def fields {ι : Type u} (decode : ι → TraceM Value) : List ι → TraceM (List Value)
  | [] => pure []
  | t :: ts => do
    let v ← decode t
    let vs ← fields decode ts
    pure (v :: vs)

/-- The entries of a map, each begun with its key. -/
def entries (key value : TraceM Value) : (remaining : ℕ) → TraceM (List (Value × Value))
  | 0 => pure []
  | remaining + 1 => do
    note .began
    let k ← key
    let v ← value
    let kvs ← entries key value remaining
    pure ((k, v) :: kvs)

/-- The fields of the variant the index names. -/
def variant {ι : Type u} (decode : ι → TraceM Value) (variants : List (VariantShape ι))
    (index : UInt32) : TraceM Value :=
  match variants[index.toNat]? with
  | none => fail (.message (Decoder.invalidVariant index variants.length))
  | some .unit => pure (.unitVariant index)
  | some (.newtype t) => do return .newtypeVariant index (← decode t)
  | some (.tuple ts) => do return .tupleVariant index (← fields decode ts)

/-- The `Deserializer`, listing its steps. -/
def deserialize {ι : Type u} (limit : ℕ) (Γ : Schema ι) : (fuel : ℕ) → ι → TraceM Value
  | 0, _ => do
    note .starved
    fail .tooDeep
  | fuel + 1, s =>
    match Γ s with
    | .bool => do
      match ← byte with
      | 0 => pure (.bool false)
      | 1 => pure (.bool true)
      | other => fail (.invalidBool other)
    | .scalar k => do return .scalar k (BitVec.ofNat _ (ofLe (← take k.size)))
    | .char => do return .char (← char)
    | .str => do return .str (← str)
    | .bytes => do return .bytes (← byteBuf)
    | .option t => do
      match ← byte with
      | 0 => pure .none
      | 1 => nested limit do return .some (← deserialize limit Γ fuel t)
      | other => fail (.invalidOptionTag other)
    | .unit => pure .unit
    | .newtypeStruct t => nested limit do return .newtypeStruct (← deserialize limit Γ fuel t)
    | .tuple ts => nested limit do return .tuple (← fields (deserialize limit Γ fuel) ts)
    | .seq t => do
      let count ← count
      nested limit do return .seq (← elements (deserialize limit Γ fuel t) count)
    | .map k v => do
      let count ← count
      nested limit do
        return .map (← entries (deserialize limit Γ fuel k) (deserialize limit Γ fuel v) count)
    | .enum variants => nested limit do
      let index := UInt32.ofNat (ofLe (← take 4))
      variant (deserialize limit Γ fuel) variants index

/-! ## Without the list it is the decoder -/

open Traced

@[simp] theorem run_remaining {β : Type} (f : ℕ → TraceM β) (d : Decoder) :
    run (remaining >>= f) d = run (f d.input.length) d := rfl

@[simp] theorem run_take (n : ℕ) : run (take n) = Decoder.take n := by
  funext d
  rw [take, run_bind, run_lift]
  rcases h : Decoder.take n d with _ | ⟨bytes, e⟩
  · exact StateExcept.bind_of_error h
  · exact StateExcept.bind_of_ok h

@[simp] theorem run_byte : run byte = Decoder.byte := by
  funext d
  rw [byte, run_bind, run_lift]
  rcases h : Decoder.byte d with _ | ⟨b, e⟩
  · exact StateExcept.bind_of_error h
  · exact StateExcept.bind_of_ok h

@[simp] theorem run_length : run length = Decoder.length := by
  simp only [length, Decoder.length, run_bind, run_take]
  congr 1
  funext bytes
  split <;> rfl

@[simp] theorem run_count : run count = Decoder.count := by
  simp only [count, Decoder.count, run_bind, run_length]
  rfl

@[simp] theorem run_byteBuf : run byteBuf = Decoder.byteBuf := by
  rw [byteBuf, run_bind, run_length, Decoder.byteBuf]
  congr 1
  funext length d
  rw [run_remaining, run_bind, run_take]
  rcases h : Decoder.take length d with _ | ⟨bytes, e⟩
  · exact StateExcept.bind_of_error h
  · exact StateExcept.bind_of_ok h

@[simp] theorem run_str : run str = Decoder.str := by
  rw [str, run_bind, run_length, Decoder.str, Decoder.byteBuf]
  funext d
  rcases hl : Decoder.length d with _ | ⟨length, e⟩
  · rw [StateExcept.bind_of_error hl,
      StateExcept.bind_of_error (StateExcept.bind_of_error hl)]
  · rw [StateExcept.bind_of_ok hl, run_remaining, run_bind, run_take]
    rcases hb : Decoder.take length e with _ | ⟨bytes, e'⟩
    · rw [StateExcept.bind_of_error hb,
        StateExcept.bind_of_error ((StateExcept.bind_of_ok hl).trans hb)]
    · rw [StateExcept.bind_of_ok hb,
        StateExcept.bind_of_ok ((StateExcept.bind_of_ok hl).trans hb)]
      cases fromUtf8 bytes <;> rfl

@[simp] theorem run_char : run char = Decoder.char := by
  rw [char, run_bind, run_byte, Decoder.char]
  congr 1
  funext first
  by_cases hwidth : Decoder.utf8Width first = 0
  · simp only [if_pos hwidth, run_fail]
  · simp only [if_neg hwidth, run_bind, run_take]
    congr 1
    funext rest
    cases fromUtf8 (first :: rest) with
    | none => rfl
    | some text => dsimp only; cases text.toList <;> rfl

@[simp] theorem run_nested {α : Type} (limit : ℕ) (decode : TraceM α) :
    run (nested limit decode) = Decoder.nested limit (run decode) := by
  funext d
  simp only [run, nested, Decoder.nested]
  split
  · rfl
  · rcases decode { d with depth := d.depth + 1 } with ⟨_ | ⟨a, e⟩, steps⟩ <;> rfl

@[simp] theorem run_elements (decode : TraceM Value) :
    ∀ n, run (elements decode n) = Decoder.elements (run decode) n
  | 0 => rfl
  | n + 1 => by
    simp only [elements, Decoder.elements, run_bind, run_note, run_pure, run_elements decode n]

@[simp] theorem run_fields {ι : Type u} (decode : ι → TraceM Value) :
    ∀ ts, run (fields decode ts) = Decoder.fields (fun t => run (decode t)) ts
  | [] => rfl
  | t :: ts => by
    simp only [fields, Decoder.fields, run_bind, run_pure, run_fields decode ts]

@[simp] theorem run_entries (key value : TraceM Value) :
    ∀ n, run (entries key value n) = Decoder.entries (run key) (run value) n
  | 0 => rfl
  | n + 1 => by
    simp only [entries, Decoder.entries, run_bind, run_note, run_pure, run_entries key value n]

@[simp] theorem run_variant {ι : Type u} (decode : ι → TraceM Value)
    (variants : List (VariantShape ι)) (index : UInt32) :
    run (variant decode variants index) =
      Decoder.variant (fun t => run (decode t)) variants index := by
  unfold variant Decoder.variant
  rcases variants[index.toNat]? with _ | _ | t | ts <;> simp

/-- The listing decoder is the decoder. -/
theorem run_deserialize {ι : Type u} (limit : ℕ) (Γ : Schema ι) :
    ∀ fuel s, run (deserialize limit Γ fuel s) = LocalCache.deserialize limit Γ fuel s
  | 0, _ => rfl
  | fuel + 1, s => by
    have ih := run_deserialize limit Γ fuel
    unfold deserialize LocalCache.deserialize
    cases Γ s with
    | bool =>
      rw [run_bind, run_byte]
      congr 1
      funext b
      split
      · rfl
      · rfl
      · simp_all
    | option t =>
      rw [run_bind, run_byte]
      congr 1
      funext b
      split
      · rfl
      · simp only [run_nested, run_bind, run_pure, ih]
      · simp_all
    | _ => simp [ih]

/-! ## What the steps add up to -/

/-- The bytes the steps took, in order. -/
def taken (steps : List Step) : List UInt8 :=
  steps.flatMap fun
    | .took bytes => bytes
    | _ => []

/-- How many sequence elements and map entries the steps began. -/
def begun (steps : List Step) : ℕ :=
  steps.count .began

@[simp] theorem taken_append (a b : List Step) : taken (a ++ b) = taken a ++ taken b :=
  List.flatMap_append

@[simp] theorem begun_append (a b : List Step) : begun (a ++ b) = begun a + begun b :=
  List.count_append

/-- What a part of a decode may do from `d`, with `credit` elements paid for already. -/
structure Bounded (limit credit : ℕ) (d : Decoder) (steps : List Step) (d' : Option Decoder) :
    Prop where
  fine : ∀ w ∈ steps, w.Fine limit
  taken : taken steps <+: d.input
  begun : begun steps ≤ d.budget + credit
  input : ∀ e ∈ d', d.input = TraceM.taken steps ++ e.input
  depth : ∀ e ∈ d', e.depth = d.depth
  budget : ∀ e ∈ d', TraceM.begun steps + e.budget ≤ d.budget + credit

namespace Bounded

variable {limit credit credit' : ℕ} {d e : Decoder} {steps steps' : List Step}
  {d' : Option Decoder}

/-- Nothing done, in the same place. -/
theorem nil : Bounded limit credit d [] (some d) := by
  refine ⟨by simp, by simp [TraceM.taken], by simp [TraceM.begun], ?_, ?_, ?_⟩ <;>
    simp [TraceM.taken, TraceM.begun]

/-- Nothing done, and an error. -/
theorem error : Bounded limit credit d [] none := by
  refine ⟨by simp, by simp [TraceM.taken], by simp [TraceM.begun], ?_, ?_, ?_⟩ <;> simp

/-- One part after another uses both their credits. -/
theorem append (h : Bounded limit credit d steps (some e))
    (h' : Bounded limit credit' e steps' d') :
    Bounded limit (credit + credit') d (steps ++ steps') d' := by
  have hinput := h.input e rfl
  have hbudget := h.budget e rfl
  refine ⟨?_, ?_, ?_, ?_, ?_, ?_⟩
  · intro w hw
    exact (List.mem_append.mp hw).elim (h.fine w) (h'.fine w)
  · rw [taken_append, hinput]
    exact (List.prefix_append_right_inj _).mpr h'.taken
  · have := h'.begun
    rw [begun_append]
    omega
  · intro e' he'
    rw [taken_append, hinput, h'.input e' he', List.append_assoc]
  · exact fun e' he' => (h'.depth e' he').trans (h.depth e rfl)
  · intro e' he'
    have := h'.budget e' he'
    rw [begun_append]
    omega

end Bounded

/-! ## Every part of a decode stays within its bounds -/

/-- From every cursor at the depth the two computations do the same, within the bounds. -/
def Sound {α : Type} (limit depth credit : ℕ) (x y : TraceM α) : Prop :=
  Accounted (fun d => d.depth = depth) (Bounded limit credit) x y

namespace Sound

variable {α β : Type} {limit depth credit credit' : ℕ} {x y : TraceM α} {f g : α → TraceM β}

theorem pure (a : α) : Sound limit depth 0 (Pure.pure a : TraceM α) (Pure.pure a) :=
  Accounted.pure fun _ _ => .nil

theorem fail (e : CodecError) :
    Sound limit depth 0 (Traced.fail e : TraceM α) (Traced.fail e) :=
  Accounted.fail fun _ _ => .error

theorem note {w : Step} (hfine : w.Fine limit) (htaken : taken [w] = [])
    (hbegun : begun [w] ≤ credit) :
    Sound limit depth credit (Traced.note w) (Traced.note w) := by
  refine Accounted.note fun d _ => ⟨by simpa using hfine, ?_, ?_, ?_, ?_, ?_⟩
  · simp [htaken]
  · omega
  · simp [htaken]
  · simp
  · rintro e ⟨⟩
    omega

theorem copied {length remaining : ℕ} (h : length ≤ remaining) :
    Sound limit depth 0 (Traced.note (.copied length remaining))
      (Traced.note (.copied length remaining)) :=
  note (show Step.Fine limit (.copied _ _) from h) rfl (by simp [begun])

/-- One computation after another uses both their credits. -/
theorem seq (hx : Sound limit depth credit x y)
    (hf : ∀ a, Sound limit depth credit' (f a) (g a)) :
    Sound limit depth (credit + credit') (x >>= f) (y >>= g) :=
  Accounted.bind hx hf (fun _ _ _ hs h => (h.depth _ rfl).trans hs)
    (fun _ _ h => ⟨h.fine, h.taken, h.begun.trans (by omega), by simp, by simp, by simp⟩)
    (fun _ _ _ _ _ h h' => h.append h')

theorem bind (hx : Sound limit depth 0 x y) (hf : ∀ a, Sound limit depth credit (f a) (g a)) :
    Sound limit depth credit (x >>= f) (y >>= g) :=
  Nat.zero_add credit ▸ hx.seq hf

/-- An element begun uses up one of the credit. -/
theorem began (hx : Sound limit depth credit x y) :
    Sound limit depth (credit + 1) (Traced.note .began >>= fun _ => x)
      (Traced.note .began >>= fun _ => y) :=
  Nat.add_comm 1 credit ▸
    (note (show Step.Fine limit .began from trivial) rfl (by simp [begun])).seq fun _ => hx

/-- A function of the value does nothing more. -/
theorem map (hx : Sound limit depth credit x y) (h : α → β) :
    Sound limit depth credit (x >>= fun a => Pure.pure (h a)) (y >>= fun a => Pure.pure (h a)) :=
  hx.seq fun a => .pure (h a)

/-- A step that takes bytes off the front of the input. -/
theorem took {z : StateExcept Decoder CodecError α} {bytes : α → List UInt8}
    (h : ∀ d a e, z d = .ok (a, e) →
      d.input = bytes a ++ e.input ∧ e.depth = d.depth ∧ e.budget = d.budget) :
    Sound limit depth 0 (lift z >>= fun a => Traced.note (.took (bytes a)) >>= fun _ => Pure.pure a)
      (lift z >>= fun a => Traced.note (.took (bytes a)) >>= fun _ => Pure.pure a) := by
  intro d _
  refine ⟨rfl, ?_⟩
  rcases hz : z d with err | ⟨a, e⟩
  · rw [bind_of_error (show lift z d = (.error err, []) from Prod.ext hz rfl)]
    exact .error
  · rw [bind_of_ok (show lift z d = (.ok (a, e), []) from Prod.ext hz rfl)]
    obtain ⟨hinput, hdepth, hbudget⟩ := h d a e hz
    show Bounded limit 0 d [.took (bytes a)] (some e)
    refine ⟨?_, ?_, ?_, ?_, ?_, ?_⟩
    · simp [Step.Fine]
    · simp [TraceM.taken, hinput]
    · simp [TraceM.begun]
    · simpa [TraceM.taken] using hinput
    · simpa using hdepth
    · simp [TraceM.begun, hbudget]

theorem take (n : ℕ) : Sound limit depth 0 (TraceM.take n) (TraceM.take n) := by
  refine took fun d bytes e h => ?_
  unfold Decoder.take at h
  split_ifs at h with hn
  obtain ⟨rfl, rfl⟩ := Prod.mk.inj (Except.ok.inj h)
  exact ⟨(List.take_append_drop n d.input).symm, rfl, rfl⟩

theorem byte : Sound limit depth 0 TraceM.byte TraceM.byte := by
  refine took fun d b e h => ?_
  unfold Decoder.byte at h
  split at h
  · exact absurd h (by simp)
  · next b' bs hd =>
    obtain ⟨rfl, rfl⟩ := Prod.mk.inj (Except.ok.inj h)
    exact ⟨hd, rfl, rfl⟩

theorem length : Sound limit depth 0 TraceM.length TraceM.length := by
  unfold TraceM.length
  refine (take 8).bind fun bytes => ?_
  dsimp only
  split
  · exact .pure _
  · exact .fail _

/-- A count pays for the elements after it. -/
theorem count {f g : ℕ → TraceM β} (hf : ∀ n, Sound limit depth n (f n) (g n)) :
    Sound limit depth 0 (TraceM.count >>= f) (TraceM.count >>= g) := by
  rw [TraceM.count, bind_assoc, bind_assoc]
  refine length.bind fun n d hd => ?_
  by_cases hn : n ≤ d.input.length ∧ n ≤ d.budget
  · have hclaim : claim n d = (.ok (n, { d with budget := d.budget - n }), []) := by
      simp [claim, lift, Nat.not_lt.mpr hn.1, Nat.not_lt.mpr hn.2]
    obtain ⟨heq, hf⟩ := hf n { d with budget := d.budget - n } hd
    rw [bind_of_ok hclaim, bind_of_ok hclaim, heq]
    refine ⟨rfl, heq ▸ hf.fine, heq ▸ hf.taken, ?_, heq ▸ hf.input, heq ▸ hf.depth, ?_⟩
    · have := hf.begun
      rw [← heq]
      dsimp only [List.nil_append] at this ⊢
      omega
    · intro e he
      rw [← heq] at he ⊢
      have := hf.budget e he
      dsimp only [List.nil_append] at this ⊢
      omega
  · obtain ⟨err, hclaim⟩ : ∃ err, claim n d = (.error err, []) := by
      simp only [claim, lift]
      split_ifs with h₁ h₂
      · exact ⟨_, rfl⟩
      · exact ⟨_, rfl⟩
      · exact absurd ⟨Nat.not_lt.mp h₁, Nat.not_lt.mp h₂⟩ hn
    rw [bind_of_error hclaim, bind_of_error hclaim]
    exact ⟨rfl, .error⟩

theorem length_of_take {n : ℕ} {d e : Decoder} {bytes : List UInt8} {steps : List Step}
    (h : TraceM.take n d = (.ok (bytes, e), steps)) : bytes.length ≤ d.input.length := by
  have hrun : Decoder.take n d = .ok (bytes, e) := by
    rw [← run_take, run, h]
  unfold Decoder.take at hrun
  split_ifs at hrun
  obtain ⟨rfl, rfl⟩ := Prod.mk.inj (Except.ok.inj hrun)
  exact List.length_take_le' ..

/-- What is taken after a length is read is no longer than what remained then. -/
theorem taking {k : List UInt8 → ℕ → TraceM α} (length : ℕ)
    (hk : ∀ bytes remaining, bytes.length ≤ remaining →
      Sound limit depth 0 (k bytes remaining) (k bytes remaining)) :
    Sound limit depth 0 (remaining >>= fun r => TraceM.take length >>= fun bytes => k bytes r)
      (remaining >>= fun r => TraceM.take length >>= fun bytes => k bytes r) := by
  intro d hd
  refine ⟨rfl, ?_⟩
  show Bounded limit 0 d ((TraceM.take length >>= fun bytes => k bytes d.input.length) d).2
    (final ((TraceM.take length >>= fun bytes => k bytes d.input.length) d).1)
  have htake : Bounded limit 0 d _ _ := (take length d hd).2
  rcases hrun : TraceM.take length d with ⟨err | ⟨bytes, e⟩, steps⟩ <;> rw [hrun] at htake
  · rw [bind_of_error hrun]
    exact htake
  · obtain ⟨-, hafter⟩ := hk bytes d.input.length (length_of_take hrun) e ((htake.depth e rfl).trans hd)
    rw [bind_of_ok hrun]
    exact htake.append hafter

theorem byteBuf : Sound limit depth 0 TraceM.byteBuf TraceM.byteBuf :=
  length.bind fun n => taking n fun bytes _ hle => (copied hle).bind fun _ => .pure bytes

theorem str : Sound limit depth 0 TraceM.str TraceM.str := by
  refine length.bind fun n => taking n fun bytes r hle => ?_
  split
  · exact (copied hle).bind fun _ => .pure _
  · exact .fail _

theorem char : Sound limit depth 0 TraceM.char TraceM.char := by
  refine byte.bind fun first => ?_
  dsimp only
  split
  · exact .fail _
  · refine (take _).bind fun rest => ?_
    split
    · exact .fail _
    · split
      · exact .fail _
      · exact .pure _

/-- One level deeper, if the limit leaves one. -/
theorem nested (h : depth < limit → Sound limit (depth + 1) credit x y) :
    Sound limit depth credit (TraceM.nested limit x) (TraceM.nested limit y) := by
  intro d hd
  unfold TraceM.nested
  by_cases hlimit : d.depth ≥ limit
  · rw [if_pos hlimit, if_pos hlimit]
    exact ⟨rfl, .error⟩
  · rw [if_neg hlimit, if_neg hlimit]
    obtain ⟨heq, hx⟩ := h (by omega) { d with depth := d.depth + 1 } (by simp [hd])
    rw [← heq]
    refine ⟨rfl, ?_⟩
    have hentered : (Step.entered (d.depth + 1)).Fine limit := by
      simp only [Step.Fine]
      omega
    rcases hrun : x { d with depth := d.depth + 1 } with ⟨_ | ⟨a, e⟩, steps⟩ <;> rw [hrun] at hx
    · exact ⟨by simpa using ⟨hentered, hx.fine⟩, hx.taken, by simpa [TraceM.begun] using hx.begun,
        by simp [final], by simp [final], by simp [final]⟩
    · have hdepth := hx.depth e rfl
      have hinput := hx.input e rfl
      have hbudget := hx.budget e rfl
      refine ⟨by simpa using ⟨hentered, hx.fine⟩, hx.taken,
        by simpa [TraceM.begun] using hx.begun, ?_, ?_, ?_⟩ <;> rintro _ ⟨⟩
      · exact hinput
      · simp [hdepth]
      · simpa [TraceM.begun] using hbudget

/-- Every element begun uses up one of the credit. -/
theorem elements {x y : TraceM Value} (h : Sound limit depth 0 x y) :
    ∀ n, Sound limit depth n (TraceM.elements x n) (TraceM.elements y n)
  | 0 => .pure _
  | n + 1 => began (h.bind fun _ => (elements h n).map _)

theorem fields {ι : Type u} {f g : ι → TraceM Value} (h : ∀ t, Sound limit depth 0 (f t) (g t)) :
    ∀ ts, Sound limit depth 0 (TraceM.fields f ts) (TraceM.fields g ts)
  | [] => .pure _
  | t :: ts => (h t).bind fun _ => (fields h ts).map _

theorem entries {x y x' y' : TraceM Value} (h : Sound limit depth 0 x y)
    (h' : Sound limit depth 0 x' y') :
    ∀ n, Sound limit depth n (TraceM.entries x x' n) (TraceM.entries y y' n)
  | 0 => .pure _
  | n + 1 => began (h.bind fun _ => h'.bind fun _ => (entries h h' n).map _)

theorem variant {ι : Type u} {f g : ι → TraceM Value} (h : ∀ t, Sound limit depth 0 (f t) (g t))
    (variants : List (VariantShape ι)) (index : UInt32) :
    Sound limit depth 0 (TraceM.variant f variants index) (TraceM.variant g variants index) := by
  unfold TraceM.variant
  split
  · exact .fail _
  · exact .pure _
  · exact (h _).map _
  · exact (fields h _).map _

/-- With fuel beyond the levels left a decode stays within its bounds, and it does the same
with any such fuel. -/
theorem deserialize {ι : Type u} (Γ : Schema ι) :
    ∀ {fuel fuel' depth : ℕ} (s : ι), depth ≤ limit → limit < fuel + depth →
      limit < fuel' + depth → Sound limit depth 0 (TraceM.deserialize limit Γ fuel s)
        (TraceM.deserialize limit Γ fuel' s)
  | 0, _, _, _, hdepth, hfuel, _ => by omega
  | _ + 1, 0, _, _, hdepth, _, hfuel' => by omega
  | fuel + 1, fuel' + 1, depth, s, hdepth, hfuel, hfuel' => by
    have deeper : depth < limit → ∀ t, Sound limit (depth + 1) 0
        (TraceM.deserialize limit Γ fuel t) (TraceM.deserialize limit Γ fuel' t) :=
      fun hlt t => deserialize Γ t hlt (by omega) (by omega)
    unfold TraceM.deserialize
    cases Γ s with
    | bool =>
      refine byte.bind fun b => ?_
      split
      · exact .pure _
      · exact .pure _
      · exact .fail _
    | scalar k => exact (take _).map _
    | char => exact char.map _
    | str => exact str.map _
    | bytes => exact byteBuf.map _
    | option t =>
      refine byte.bind fun b => ?_
      split
      · exact .pure _
      · exact nested fun hlt => (deeper hlt t).map _
      · exact .fail _
    | unit => exact .pure _
    | newtypeStruct t => exact nested fun hlt => (deeper hlt t).map _
    | tuple ts => exact nested fun hlt => (fields (deeper hlt) ts).map _
    | seq t => exact count fun n => nested fun hlt => (elements (deeper hlt t) n).map _
    | map k v =>
      exact count fun n => nested fun hlt => (entries (deeper hlt k) (deeper hlt v) n).map _
    | enum variants =>
      exact nested fun hlt => (take 4).bind fun bytes => variant (deeper hlt) variants _

end Sound

end TraceM

/-! ## The claim about hostile input -/

open TraceM

variable {ι : Type u}

/-- Decode a value from the start of `bytes` on some fuel, listing the steps. -/
def fromSliceTraced (fuel : ℕ) (Γ : Schema ι) (s : ι) (bytes : List UInt8) :
    Except CodecError (Value × List UInt8) × List Step :=
  match TraceM.deserialize depthLimit Γ fuel s (.new bytes) with
  | (.ok (v, d), steps) => (.ok (v, d.input), steps)
  | (.error e, steps) => (.error e, steps)

/-- Without the steps it is `fromSlice`. -/
theorem fromSliceTraced_fst (Γ : Schema ι) (s : ι) (bytes : List UInt8) :
    (fromSliceTraced (depthLimit + 1) Γ s bytes).1 = fromSlice Γ s bytes := by
  unfold fromSliceTraced fromSlice fromSliceWithin
  rw [← run_deserialize]
  unfold Traced.run
  rcases TraceM.deserialize depthLimit Γ (depthLimit + 1) s (.new bytes) with
    ⟨_ | ⟨v, d⟩, steps⟩ <;> rfl

/-- Whatever the bytes and the schema, a decode ends : it does the same on any fuel beyond
the depth limit. What it takes is the front of the input, it enters no level beyond the
limit, the elements and entries it begins are no more than the bytes of the input, and every
buffer it copies is no longer than what remained when its length was read. -/
theorem fromSlice_contained (Γ : Schema ι) (s : ι) (bytes : List UInt8) :
    ∃ steps : List Step,
      (∀ fuel, depthLimit < fuel → fromSliceTraced fuel Γ s bytes = (fromSlice Γ s bytes, steps)) ∧
      Step.starved ∉ steps ∧
      taken steps <+: bytes ∧
      (∀ v rest, fromSlice Γ s bytes = .ok (v, rest) → taken steps ++ rest = bytes) ∧
      (∀ depth, Step.entered depth ∈ steps → depth ≤ depthLimit) ∧
      begun steps ≤ bytes.length ∧
      ∀ length remaining, Step.copied length remaining ∈ steps → length ≤ remaining := by
  have sound : ∀ fuel, depthLimit < fuel → Sound depthLimit 0 0
      (TraceM.deserialize depthLimit Γ fuel s)
      (TraceM.deserialize depthLimit Γ (depthLimit + 1) s) :=
    fun fuel hfuel => Sound.deserialize Γ s (Nat.zero_le _) hfuel (Nat.lt_succ_self _)
  have hbounded := (sound (depthLimit + 1) (Nat.lt_succ_self _) (.new bytes) rfl).2
  have hresult := fromSliceTraced_fst Γ s bytes
  refine ⟨(fromSliceTraced (depthLimit + 1) Γ s bytes).2, fun fuel hfuel => ?_, ?_⟩
  · rw [← hresult]
    unfold fromSliceTraced
    rw [(sound fuel hfuel (.new bytes) rfl).1]
  rw [← hresult]
  unfold fromSliceTraced
  generalize TraceM.deserialize depthLimit Γ (depthLimit + 1) s (.new bytes) = result at hbounded ⊢
  obtain ⟨_ | ⟨v, d⟩, steps⟩ := result
  · exact ⟨hbounded.fine .starved, hbounded.taken, by simp,
      fun depth => hbounded.fine (.entered depth), hbounded.begun,
      fun length remaining => hbounded.fine (.copied length remaining)⟩
  · refine ⟨hbounded.fine .starved, hbounded.taken, ?_,
      fun depth => hbounded.fine (.entered depth), hbounded.begun,
      fun length remaining => hbounded.fine (.copied length remaining)⟩
    rintro _ _ ⟨⟩
    exact (hbounded.input d rfl).symm

end LocalCache
