import LocalCache.Decoder

/-!
# Round trip : what the encoder writes is read back

`Reads` says what a reader does at a cursor whose input starts with given bytes : it
returns the value, leaves the rest, and takes the claims from the budget, unless the
levels do not fit. It composes over `bind` (`Reads.bind`) and `nested`, with one lemma for
each primitive, and `reads_deserialize` is it for `deserialize` on the image of any
value of the schema. The budget covers every honest value by `Value.claims_le`.
-/

namespace LocalCache

universe u

/-- At a cursor that starts with `bs` the reader returns `a` and consumes exactly `bs`,
if the budget covers its claims and its levels fit. With too few levels it fails with
`tooDeep`. The fuel is what the depth leaves of it. -/
def Reads {α : Type} (limit fuel levels claims : ℕ) (bs : List UInt8) (a : α)
    (read : DecodeM α) : Prop :=
  ∀ (d : Decoder) (tail : List UInt8), d.depth ≤ limit → limit < fuel + d.depth →
    d.input = bs ++ tail → claims ≤ d.budget →
      read d = if d.depth + levels ≤ limit then .ok (a, ⟨tail, d.depth, d.budget - claims⟩)
        else .error .tooDeep

namespace Reads

variable {α β : Type} {limit fuel m n c e : ℕ} {as bs : List UInt8} {a : α} {b : β}

theorem pure (a : α) : Reads limit fuel 0 0 [] a (Pure.pure a) := by
  intro d tail hd _ hin _
  rw [Nat.add_zero, if_pos hd, Nat.sub_zero, ← List.nil_append tail, ← hin]
  rfl

/-- One reader after another. -/
theorem bind {x : DecodeM α} {f : α → DecodeM β} (hx : Reads limit fuel m c as a x)
    (hf : Reads limit fuel n e bs b (f a)) :
    Reads limit fuel (max m n) (c + e) (as ++ bs) b (x >>= f) := by
  intro d tail hd hfuel hin hb
  have hx := hx d (bs ++ tail) hd hfuel (by rw [hin, List.append_assoc]) (by omega)
  by_cases hm : d.depth + m ≤ limit
  · rw [if_pos hm] at hx
    rw [StateExcept.bind_of_ok hx,
      hf ⟨bs ++ tail, d.depth, d.budget - c⟩ tail hd hfuel rfl (by simp only; omega), Nat.sub_sub]
    by_cases hn : d.depth + n ≤ limit
    · rw [if_pos hn, if_pos (by omega)]
    · rw [if_neg hn, if_neg (by omega)]
  · rw [if_neg hm] at hx
    rw [StateExcept.bind_of_error hx, if_neg (by omega)]

/-- A reader followed by a step that reads nothing. -/
theorem andThen {x : DecodeM α} {f : α → DecodeM β} (hx : Reads limit fuel m c as a x)
    (hf : f a = Pure.pure b) : Reads limit fuel m c as b (x >>= f) := by
  have hb : Reads limit fuel 0 0 [] b (f a) := hf ▸ Reads.pure b
  simpa using hx.bind hb

theorem map {x : DecodeM α} (hx : Reads limit fuel m c as a x) (g : α → β) :
    Reads limit fuel m c as (g a) (x >>= fun a => Pure.pure (g a)) :=
  hx.andThen rfl

/-- A reader after one that has neither levels nor claims. -/
theorem after {x : DecodeM α} {f : α → DecodeM β} (hx : Reads limit fuel 0 0 as a x)
    (hf : Reads limit fuel n e bs b (f a)) : Reads limit fuel n e (as ++ bs) b (x >>= f) := by
  simpa using hx.bind hf

theorem nested {x : DecodeM α} (hx : Reads limit fuel m c as a x) :
    Reads limit (fuel + 1) (m + 1) c as a (Decoder.nested limit x) := by
  intro d tail hd hfuel hin hb
  unfold Decoder.nested
  by_cases hl : d.depth ≥ limit
  · rw [if_pos hl, if_neg (by omega)]
  · rw [if_neg hl, hx ⟨d.input, d.depth + 1, d.budget⟩ tail (by simp only; omega)
      (by simp only; omega) hin hb]
    by_cases hm : d.depth + 1 + m ≤ limit
    · simp only
      rw [if_pos hm, if_pos (by omega)]
      rfl
    · simp only
      rw [if_neg hm, if_neg (by omega)]

theorem take {n : ℕ} (h : bs.length = n) : Reads limit fuel 0 0 bs bs (Decoder.take n) := by
  intro d tail hd _ hin _
  subst h
  simp [Decoder.take, hin, hd]

theorem byte (b : UInt8) : Reads limit fuel 0 0 [b] b Decoder.byte := by
  intro d tail hd _ hin _
  simp [Decoder.byte, hin, hd]

theorem length {n : ℕ} (hn : n < usizeLimit) :
    Reads limit fuel 0 0 (leBytes 8 n) n Decoder.length := by
  have hraw : ofLe (leBytes 8 n) = n := ofLe_leBytes (by simpa [usizeLimit] using hn)
  refine (take (length_leBytes 8 n)).andThen ?_
  rw [hraw, if_pos hn]

theorem byteBuf {bs : List UInt8} (h : bs.length < usizeLimit) :
    Reads limit fuel 0 0 (leBytes 8 bs.length ++ bs) bs Decoder.byteBuf :=
  (length h).after (take rfl)

theorem str {x : String} (h : (strBytes x).length < usizeLimit) :
    Reads limit fuel 0 0 (leBytes 8 (strBytes x).length ++ strBytes x) x Decoder.str := by
  refine (byteBuf h).andThen ?_
  rw [fromUtf8_strBytes]

theorem char (c : Char) : Reads limit fuel 0 0 (String.utf8EncodeChar c) c Decoder.char := by
  obtain ⟨first, rest, h⟩ := List.exists_cons_of_ne_nil (String.utf8EncodeChar_ne_nil (c := c))
  have hwidth := utf8Width_of_utf8EncodeChar h
  have htext : fromUtf8 (first :: rest) = some (String.singleton c) := by
    rw [← h, ← strBytes_singleton, fromUtf8_strBytes]
  rw [h, ← List.singleton_append]
  refine (byte first).after ?_
  simp only [hwidth, Nat.add_one_ne_zero, if_false, Nat.add_sub_cancel]
  refine (take rfl).andThen ?_
  simp [htext]

/-- A count and the level it opens. The count is at most the bytes that follow it. -/
theorem counted {n : ℕ} {f : ℕ → DecodeM β} (hn : n < usizeLimit) (hbs : n ≤ bs.length)
    (hf : Reads limit fuel m c bs b (f n)) :
    Reads limit fuel m (n + c) (leBytes 8 n ++ bs) b (Decoder.count >>= f) := by
  intro d tail hd hfuel hin hb
  have hlen : Decoder.length d = _ :=
    (length hn : Reads limit fuel 0 0 _ n _) d (bs ++ tail) hd hfuel
      (by rw [hin, List.append_assoc]) (Nat.zero_le _)
  rw [Nat.add_zero, if_pos hd, Nat.sub_zero] at hlen
  have hcount : Decoder.count d = .ok (n, ⟨bs ++ tail, d.depth, d.budget - n⟩) := by
    refine (StateExcept.bind_of_ok hlen).trans ?_
    simp only [List.length_append]
    rw [if_neg (by omega), if_neg (by omega)]
  rw [StateExcept.bind_of_ok hcount,
    hf ⟨bs ++ tail, d.depth, d.budget - n⟩ tail hd hfuel rfl (by simp only; omega), Nat.sub_sub]

end Reads

/-! ## The deserializer reads the image -/

theorem index_leBytes (i : UInt32) : UInt32.ofNat (ofLe (leBytes 4 i.toNat)) = i := by
  rw [ofLe_leBytes (by simpa using i.toNat_lt), UInt32.ofNat_toNat]

section Deserialize

variable {ι : Type u} (Γ : Schema ι) {limit fuel : ℕ}

/-- A family of readers, one for each type, that read the image of every value. -/
def ReadsImages (limit fuel : ℕ) (read : ι → DecodeM Value) : Prop :=
  ∀ (v : Value) (s : ι), v.Fits Γ s → v.Occupied →
    Reads limit fuel v.levels v.claims v.image v (read s)

variable {Γ} {read : ι → DecodeM Value}

theorem ReadsImages.fields (h : ReadsImages Γ limit fuel read) :
    ∀ (vs : List Value) (ts : List ι), Value.FitEach Γ vs ts → Value.OccupiedAll vs →
      Reads limit fuel (Value.levelsAll vs) (Value.claimsAll vs) (Value.imageAll vs) vs
        (Decoder.fields read ts)
  | [], _, hf, _ => by
    simp only [Value.FitEach] at hf
    subst hf
    exact Reads.pure []
  | v :: vs, _, hf, ho => by
    simp only [Value.FitEach] at hf
    simp only [Value.OccupiedAll] at ho
    obtain ⟨t, ts, rfl, hv, hvs⟩ := hf
    exact (h v t hv ho.1).bind ((h.fields vs ts hvs ho.2).andThen rfl)

theorem ReadsImages.elements (h : ReadsImages Γ limit fuel read) {t : ι} :
    ∀ vs : List Value, Value.FitAll Γ vs t → Value.OccupiedAll vs →
      Reads limit fuel (Value.levelsAll vs) (Value.claimsAll vs) (Value.imageAll vs) vs
        (Decoder.elements (read t) vs.length)
  | [], _, _ => Reads.pure []
  | v :: vs, hf, ho => by
    simp only [Value.FitAll] at hf
    simp only [Value.OccupiedAll] at ho
    exact (h v t hf.1 ho.1).bind ((h.elements vs hf.2 ho.2).andThen rfl)

theorem ReadsImages.entries (h : ReadsImages Γ limit fuel read) {tk tv : ι} :
    ∀ kvs : List (Value × Value), Value.FitEntries Γ kvs tk tv → Value.OccupiedEntries kvs →
      Reads limit fuel (Value.levelsEntries kvs) (Value.claimsEntries kvs)
        (Value.imageEntries kvs) kvs (Decoder.entries (read tk) (read tv) kvs.length)
  | [], _, _ => Reads.pure []
  | (k, v) :: kvs, hf, ho => by
    simp only [Value.FitEntries] at hf
    simp only [Value.OccupiedEntries] at ho
    exact (h k tk hf.1 ho.1).bind ((h v tv hf.2.1 ho.2.1).bind
      ((h.entries kvs hf.2.2 ho.2.2).andThen rfl))

/-- The deserializer reads the image of every value of the schema whose elements take
bytes. The induction is on the fuel : each level of values costs one. -/
theorem reads_deserialize (Γ : Schema ι) (limit : ℕ) :
    ∀ fuel : ℕ, ReadsImages Γ limit fuel (deserialize limit Γ fuel)
  | 0 => fun v s _ _ d tail hd hfuel => by omega
  | fuel + 1 => fun v s hf ho => by
    have ih := reads_deserialize Γ limit fuel
    cases v with
    | bool b =>
      simp only [Value.Fits] at hf
      simp only [deserialize, hf]
      cases b
      · exact (Reads.byte 0).andThen rfl
      · exact (Reads.byte 1).andThen rfl
    | scalar k bits =>
      simp only [Value.Fits] at hf
      simp only [deserialize, hf]
      refine (Reads.take (length_leBytes k.size bits.toNat)).andThen ?_
      rw [ofLe_leBytes (by simpa [pow_mul] using bits.isLt), BitVec.ofNat_toNat,
        BitVec.setWidth_eq]
    | char c =>
      simp only [Value.Fits] at hf
      simp only [deserialize, hf]
      exact (Reads.char c).map Value.char
    | str x =>
      simp only [Value.Fits] at hf
      simp only [deserialize, hf.1]
      exact (Reads.str hf.2).map Value.str
    | bytes bs =>
      simp only [Value.Fits] at hf
      simp only [deserialize, hf.1]
      exact (Reads.byteBuf hf.2).map Value.bytes
    | none =>
      simp only [Value.Fits] at hf
      obtain ⟨t, hs⟩ := hf
      simp only [deserialize, hs]
      exact (Reads.byte 0).andThen rfl
    | some v =>
      simp only [Value.Fits] at hf
      simp only [Value.Occupied] at ho
      obtain ⟨t, hs, hv⟩ := hf
      simp only [deserialize, hs]
      refine (Reads.byte 1).after ?_
      exact ((ih v t hv ho).map Value.some).nested
    | unit =>
      simp only [Value.Fits] at hf
      simp only [deserialize, hf]
      exact Reads.pure Value.unit
    | newtypeStruct v =>
      simp only [Value.Fits] at hf
      simp only [Value.Occupied] at ho
      obtain ⟨t, hs, hv⟩ := hf
      simp only [deserialize, hs]
      exact ((ih v t hv ho).map Value.newtypeStruct).nested
    | tuple vs =>
      simp only [Value.Fits] at hf
      simp only [Value.Occupied] at ho
      obtain ⟨ts, hs, hvs⟩ := hf
      simp only [deserialize, hs]
      exact ((ih.fields vs ts hvs ho).map Value.tuple).nested
    | seq vs =>
      simp only [Value.Fits] at hf
      simp only [Value.Occupied] at ho
      obtain ⟨t, hs, hlen, hvs⟩ := hf
      simp only [deserialize, hs]
      have := Value.length_add_claimsAll_le vs ho.1 ho.2
      exact Reads.counted hlen (by omega) ((ih.elements vs hvs ho.2).map Value.seq).nested
    | map kvs =>
      simp only [Value.Fits] at hf
      simp only [Value.Occupied] at ho
      obtain ⟨k, v, hs, hlen, hkvs⟩ := hf
      simp only [deserialize, hs]
      have := Value.length_add_claimsEntries_le kvs ho.1 ho.2
      exact Reads.counted hlen (by omega) ((ih.entries kvs hkvs ho.2).map Value.map).nested
    | unitVariant i =>
      simp only [Value.Fits] at hf
      obtain ⟨vars, hs, hi⟩ := hf
      simp only [deserialize, hs]
      refine ((Reads.take (length_leBytes 4 i.toNat)).andThen ?_).nested
      simp only [index_leBytes, Decoder.variant, hi]
    | newtypeVariant i v =>
      simp only [Value.Fits] at hf
      simp only [Value.Occupied] at ho
      obtain ⟨vars, t, hs, hi, hv⟩ := hf
      simp only [deserialize, hs]
      refine ((Reads.take (length_leBytes 4 i.toNat)).after ?_).nested
      simp only [index_leBytes, Decoder.variant, hi]
      exact (ih v t hv ho).map (Value.newtypeVariant i)
    | tupleVariant i vs =>
      simp only [Value.Fits] at hf
      simp only [Value.Occupied] at ho
      obtain ⟨vars, ts, hs, hi, hvs⟩ := hf
      simp only [deserialize, hs]
      refine ((Reads.take (length_leBytes 4 i.toNat)).after ?_).nested
      simp only [index_leBytes, Decoder.variant, hi]
      exact (ih.fields vs ts hvs ho).map (Value.tupleVariant i)

/-- The decoder with `limit` levels, on the image of a value and any bytes after it. -/
theorem fromSliceWithin_image {v : Value} {s : ι} (hf : v.Fits Γ s) (ho : v.Occupied) (limit : ℕ)
    (tail : List UInt8) : fromSliceWithin limit Γ s (v.image ++ tail) =
      if v.levels ≤ limit then .ok (v, tail) else .error .tooDeep := by
  have hclaims := v.claims_le ho
  have hread := reads_deserialize Γ limit (limit + 1) v s hf ho (.new (v.image ++ tail)) tail
    (Nat.zero_le _) (by simp [Decoder.new]) rfl (by simp [Decoder.new]; omega)
  unfold fromSliceWithin
  rw [hread, Decoder.new, Nat.zero_add]
  by_cases hl : v.levels ≤ limit
  · rw [if_pos hl, if_pos hl]
  · rw [if_neg hl, if_neg hl]

/-! ## The round trip -/

/-- Reading `v` takes `n` nesting levels : on the bytes an encoder with enough levels
writes, the decoder succeeds with `n` levels or more, and fails with `tooDeep` below. -/
def ReadTakes (Γ : Schema ι) (s : ι) (v : Value) (n : ℕ) : Prop :=
  ∃ enough b, toVecWithin enough v = .ok b ∧ ∀ limit : ℕ,
    fromSliceWithin limit Γ s b = if n ≤ limit then .ok (v, []) else .error .tooDeep

theorem readTakes_iff {v : Value} {s : ι} (hf : v.Fits Γ s) (ho : v.Occupied) {n : ℕ} :
    ReadTakes Γ s v n ↔ n = v.levels := by
  have hread : ∀ limit, fromSliceWithin limit Γ s v.image =
      if v.levels ≤ limit then .ok (v, []) else .error .tooDeep := fun limit => by
    simpa using fromSliceWithin_image hf ho limit []
  constructor
  · rintro ⟨enough, b, hb, h⟩
    rw [toVecWithin_eq Γ enough hf] at hb
    split_ifs at hb with hl
    obtain rfl := Except.ok.inj hb
    have hn := (h n).symm.trans (hread n)
    have hv := (h v.levels).symm.trans (hread v.levels)
    rw [if_pos le_rfl] at hn hv
    refine Nat.le_antisymm ?_ ?_
    · by_contra hc
      rw [if_neg hc] at hv
      exact absurd hv (by simp)
    · by_contra hc
      rw [if_neg hc] at hn
      exact absurd hn (by simp)
  · rintro rfl
    exact ⟨v.levels, v.image, by rw [toVecWithin_eq Γ _ hf, if_pos le_rfl], hread⟩

/-- A value that can be written is read back, from the bytes written and no more, and the
encoder refuses a value exactly when reading it takes more levels than the decoder has. -/
theorem fromSlice_toVec {v : Value} {s : ι} (hf : v.Fits Γ s) (ho : v.Occupied) :
    (∀ b tail, toVec v = .ok b → fromSlice Γ s (b ++ tail) = .ok (v, tail)) ∧
      (toVec v = .error .tooDeep ↔ ∃ n, ReadTakes Γ s v n ∧ depthLimit < n) ∧
      ∀ e, toVec v = .error e → e = .tooDeep := by
  have hvec : toVec v = _ := toVecWithin_eq Γ depthLimit hf
  by_cases hl : v.levels ≤ depthLimit
  · rw [if_pos hl] at hvec
    refine ⟨?_, ?_, ?_⟩
    · intro b tail hb
      obtain rfl := Except.ok.inj (hvec.symm.trans hb)
      rw [fromSlice, fromSliceWithin_image hf ho, if_pos hl]
    · simp only [hvec, readTakes_iff hf ho, reduceCtorEq, false_iff]
      rintro ⟨n, rfl, hn⟩
      omega
    · intro e he
      exact absurd (hvec.symm.trans he) (by simp)
  · rw [if_neg hl] at hvec
    refine ⟨?_, ?_, ?_⟩
    · intro b tail hb
      exact absurd (hvec.symm.trans hb) (by simp)
    · simp only [hvec, readTakes_iff hf ho, true_iff]
      exact ⟨v.levels, rfl, by omega⟩
    · intro e he
      exact (Except.error.inj (hvec.symm.trans he)).symm

/-- A recursive type : lists whose elements are lists of the same type, or missing. -/
def nestedLists : Schema (Fin 2)
  | 0 => .seq 1
  | 1 => .option 0

/-- The round trip of a list of an empty list and a missing one, before another byte. -/
theorem fromSlice_toVec_nestedLists :
    fromSlice nestedLists 0 ([2, 0, 0, 0, 0, 0, 0, 0, 1, 0, 0, 0, 0, 0, 0, 0, 0, 0] ++ [7]) =
      .ok (.seq [.some (.seq []), .none], [7]) :=
  (fromSlice_toVec (Γ := nestedLists) (s := 0) (v := .seq [.some (.seq []), .none])
    (by simp [Value.Fits, Value.FitAll, nestedLists, usizeLimit])
    (by simp [Value.Occupied, Value.OccupiedAll, Value.image])).1 _ _ (by rfl)

end Deserialize

end LocalCache
