import LocalCache.RoundTrip

/-!
# Canonical decoding : what the decoder accepts is what the encoder writes

`Consumed` relates the cursors before and after a successful read : the bytes taken, and
that the levels opened fit. Each primitive has its inversion, and `deserialize_ok` is it
for `deserialize` : an accepted value fits its type and the bytes taken are its image.
Nothing is assumed of the input, so the strict tags, the widths of characters, the
counts and the depth have to exclude everything the encoder does not write.
-/

namespace LocalCache

universe u

/-- The cursor went from `d` to `d'` over exactly `bs`, in `levels` levels under the
limit. -/
structure Consumed (limit : ℕ) (d d' : Decoder) (bs : List UInt8) (levels : ℕ) : Prop where
  input : d.input = bs ++ d'.input
  depth : d'.depth = d.depth
  within : d.depth + levels ≤ limit

namespace Consumed

variable {limit m n : ℕ} {d d' d'' : Decoder} {as bs : List UInt8}

theorem refl (h : d.depth ≤ limit) : Consumed limit d d [] 0 :=
  ⟨rfl, rfl, h⟩

theorem trans (h : Consumed limit d d' as m) (h' : Consumed limit d' d'' bs n) :
    Consumed limit d d'' (as ++ bs) (max m n) := by
  refine ⟨?_, h'.depth.trans h.depth, ?_⟩
  · rw [h.input, h'.input, List.append_assoc]
  · have := h.within
    have := h'.within
    have := h.depth
    omega

theorem depth_le (h : Consumed limit d d' as m) : d'.depth ≤ limit := by
  have := h.within
  have := h.depth
  omega

end Consumed

/-! ## The primitives -/

namespace Decoder

variable {limit : ℕ} {d d' : Decoder}

theorem take_ok {n : ℕ} {bs : List UInt8} (hd : d.depth ≤ limit) (h : take n d = .ok (bs, d')) :
    bs.length = n ∧ Consumed limit d d' bs 0 := by
  unfold take at h
  split_ifs at h with hn
  obtain ⟨rfl, rfl⟩ := Prod.mk.inj (Except.ok.inj h)
  exact ⟨List.length_take_of_le hn, ⟨(List.take_append_drop n d.input).symm, rfl, hd⟩⟩

theorem byte_ok {b : UInt8} (hd : d.depth ≤ limit) (h : byte d = .ok (b, d')) :
    Consumed limit d d' [b] 0 := by
  unfold byte at h
  split at h
  · exact absurd h (by simp)
  · next b' bs hin =>
    obtain ⟨rfl, rfl⟩ := Prod.mk.inj (Except.ok.inj h)
    exact ⟨hin, rfl, hd⟩

theorem length_ok {n : ℕ} (hd : d.depth ≤ limit) (h : length d = .ok (n, d')) :
    n < usizeLimit ∧ Consumed limit d d' (leBytes 8 n) 0 := by
  obtain ⟨bs, d₁, hbs, h⟩ := StateExcept.bind_eq_ok h
  obtain ⟨hlen, hc⟩ := take_ok hd hbs
  simp only at h
  split_ifs at h with hlt
  · obtain ⟨rfl, rfl⟩ := StateExcept.pure_eq_ok h
    exact ⟨hlt, (leBytes_ofLe_of_length hlen).symm ▸ hc⟩
  · exact absurd h (by simp [StateExcept.fail])

theorem count_ok {n : ℕ} (hd : d.depth ≤ limit) (h : count d = .ok (n, d')) :
    n < usizeLimit ∧ Consumed limit d d' (leBytes 8 n) 0 := by
  obtain ⟨m, d₁, hm, h⟩ := StateExcept.bind_eq_ok h
  obtain ⟨hlt, hc⟩ := length_ok hd hm
  split_ifs at h
  obtain ⟨rfl, rfl⟩ := Prod.mk.inj (Except.ok.inj h)
  exact ⟨hlt, ⟨hc.input, hc.depth, hc.within⟩⟩

theorem byteBuf_ok {bs : List UInt8} (hd : d.depth ≤ limit) (h : byteBuf d = .ok (bs, d')) :
    bs.length < usizeLimit ∧ Consumed limit d d' (leBytes 8 bs.length ++ bs) 0 := by
  obtain ⟨n, d₁, hn, h⟩ := StateExcept.bind_eq_ok h
  obtain ⟨hlt, hc⟩ := length_ok hd hn
  obtain ⟨rfl, hc'⟩ := take_ok hc.depth_le h
  exact ⟨hlt, hc.trans hc'⟩

theorem str_ok {x : String} (hd : d.depth ≤ limit) (h : str d = .ok (x, d')) :
    (strBytes x).length < usizeLimit ∧
      Consumed limit d d' (leBytes 8 (strBytes x).length ++ strBytes x) 0 := by
  obtain ⟨bs, d₁, hbs, h⟩ := StateExcept.bind_eq_ok h
  cases htext : fromUtf8 bs with
  | none =>
    simp only [htext] at h
    exact absurd h (by simp [StateExcept.fail])
  | some text =>
    simp only [htext] at h
    obtain ⟨rfl, rfl⟩ := StateExcept.pure_eq_ok h
    rw [strBytes_of_fromUtf8 htext]
    exact byteBuf_ok hd hbs

/-- An accepted character is the encoding of the character returned : its first byte
gives its width, which is the width taken. -/
theorem char_ok {c : Char} (hd : d.depth ≤ limit) (h : char d = .ok (c, d')) :
    Consumed limit d d' (String.utf8EncodeChar c) 0 := by
  obtain ⟨first, d₁, hfirst, h⟩ := StateExcept.bind_eq_ok h
  have hc := byte_ok hd hfirst
  simp only at h
  split_ifs at h with hw
  · exact absurd h (by simp [StateExcept.fail])
  · obtain ⟨rest, d₂, hrest, h⟩ := StateExcept.bind_eq_ok h
    obtain ⟨hlen, hc'⟩ := take_ok hc.depth_le hrest
    cases htext : fromUtf8 (first :: rest) with
    | none =>
      simp only [htext] at h
      exact absurd h (by simp [StateExcept.fail])
    | some text =>
      simp only [htext] at h
      cases htoList : text.toList with
      | nil =>
        simp only [htoList] at h
        exact absurd h (by simp [StateExcept.fail])
      | cons c' cs =>
        simp only [htoList] at h
        obtain ⟨rfl, rfl⟩ := StateExcept.pure_eq_ok h
        have hbytes := strBytes_of_fromUtf8 htext
        rw [strBytes_eq_cons htoList] at hbytes
        obtain ⟨b, bs, hb⟩ :=
          List.exists_cons_of_ne_nil (String.utf8EncodeChar_ne_nil (c := c'))
        rw [hb, List.cons_append] at hbytes
        obtain ⟨rfl, rfl⟩ := List.cons.inj hbytes
        have hwidth := utf8Width_of_utf8EncodeChar hb
        simp only [List.length_append] at hlen
        have hnil : strBytes (String.ofList cs) = [] :=
          List.length_eq_zero_iff.mp (by omega)
        rw [hnil, List.append_nil] at hc'
        rw [hb]
        exact hc.trans hc'

/-- A successful nested read is a read one level deeper. -/
theorem nested_ok {α : Type} {x : DecodeM α} {a : α} (h : nested limit x d = .ok (a, d')) :
    ∃ d₁ d₂, d₁.depth ≤ limit ∧ x d₁ = .ok (a, d₂) ∧
      ∀ {bs n}, Consumed limit d₁ d₂ bs n → Consumed limit d d' bs (n + 1) := by
  unfold nested at h
  split_ifs at h with hl
  split at h
  · next a' d₂ hx =>
    obtain ⟨rfl, rfl⟩ := Prod.mk.inj (Except.ok.inj h)
    refine ⟨_, d₂, ?_, hx, fun hc => ⟨hc.input, ?_, ?_⟩⟩
    · simp only
      omega
    · simp only [hc.depth, Nat.add_sub_cancel]
    · have := hc.within
      simp only at this
      omega
  · exact absurd h (by simp)

end Decoder

/-! ## The deserializer accepts only images -/

section Deserialize

variable {ι : Type u} (Γ : Schema ι) (limit : ℕ)

/-- A family of readers, one for each type, that accept only images of its values. -/
def AcceptsImages (read : ι → DecodeM Value) : Prop :=
  ∀ (s : ι) (d d' : Decoder) (v : Value), d.depth ≤ limit → read s d = .ok (v, d') →
    v.Fits Γ s ∧ Consumed limit d d' v.image v.levels

variable {Γ limit} {read : ι → DecodeM Value}

theorem AcceptsImages.fields (h : AcceptsImages Γ limit read) :
    ∀ (ts : List ι) (d d' : Decoder) (vs : List Value), d.depth ≤ limit →
      Decoder.fields read ts d = .ok (vs, d') →
        Value.FitEach Γ vs ts ∧ Consumed limit d d' (Value.imageAll vs) (Value.levelsAll vs)
  | [], _, _, _, hd, hr => by
    obtain ⟨rfl, rfl⟩ := StateExcept.pure_eq_ok hr
    exact ⟨rfl, .refl hd⟩
  | t :: ts, _, _, _, hd, hr => by
    obtain ⟨v, d₁, hv, hr⟩ := StateExcept.bind_eq_ok hr
    obtain ⟨vs, d₂, hvs, hr⟩ := StateExcept.bind_eq_ok hr
    obtain ⟨rfl, rfl⟩ := StateExcept.pure_eq_ok hr
    obtain ⟨hf, hc⟩ := h t _ _ v hd hv
    obtain ⟨hfs, hcs⟩ := h.fields ts _ _ vs hc.depth_le hvs
    exact ⟨⟨t, ts, rfl, hf, hfs⟩, hc.trans hcs⟩

theorem AcceptsImages.elements (h : AcceptsImages Γ limit read) (t : ι) :
    ∀ (n : ℕ) (d d' : Decoder) (vs : List Value), d.depth ≤ limit →
      Decoder.elements (read t) n d = .ok (vs, d') → vs.length = n ∧
        Value.FitAll Γ vs t ∧ Consumed limit d d' (Value.imageAll vs) (Value.levelsAll vs)
  | 0, _, _, _, hd, hr => by
    obtain ⟨rfl, rfl⟩ := StateExcept.pure_eq_ok hr
    exact ⟨rfl, trivial, .refl hd⟩
  | n + 1, _, _, _, hd, hr => by
    obtain ⟨v, d₁, hv, hr⟩ := StateExcept.bind_eq_ok hr
    obtain ⟨vs, d₂, hvs, hr⟩ := StateExcept.bind_eq_ok hr
    obtain ⟨rfl, rfl⟩ := StateExcept.pure_eq_ok hr
    obtain ⟨hf, hc⟩ := h t _ _ v hd hv
    obtain ⟨rfl, hfs, hcs⟩ := h.elements t n _ _ vs hc.depth_le hvs
    exact ⟨rfl, ⟨hf, hfs⟩, hc.trans hcs⟩

theorem AcceptsImages.entries (h : AcceptsImages Γ limit read) (tk tv : ι) :
    ∀ (n : ℕ) (d d' : Decoder) (kvs : List (Value × Value)), d.depth ≤ limit →
      Decoder.entries (read tk) (read tv) n d = .ok (kvs, d') → kvs.length = n ∧
        Value.FitEntries Γ kvs tk tv ∧
          Consumed limit d d' (Value.imageEntries kvs) (Value.levelsEntries kvs)
  | 0, _, _, _, hd, hr => by
    obtain ⟨rfl, rfl⟩ := StateExcept.pure_eq_ok hr
    exact ⟨rfl, trivial, .refl hd⟩
  | n + 1, _, _, _, hd, hr => by
    obtain ⟨k, d₁, hk, hr⟩ := StateExcept.bind_eq_ok hr
    obtain ⟨v, d₂, hv, hr⟩ := StateExcept.bind_eq_ok hr
    obtain ⟨kvs, d₃, hkvs, hr⟩ := StateExcept.bind_eq_ok hr
    obtain ⟨rfl, rfl⟩ := StateExcept.pure_eq_ok hr
    obtain ⟨hfk, hck⟩ := h tk _ _ k hd hk
    obtain ⟨hfv, hcv⟩ := h tv _ _ v hck.depth_le hv
    obtain ⟨rfl, hfs, hcs⟩ := h.entries tk tv n _ _ kvs hcv.depth_le hkvs
    exact ⟨rfl, ⟨hfk, hfv, hfs⟩, hck.trans (hcv.trans hcs)⟩

/-- What the fields of a variant are, after the index `i`. -/
theorem AcceptsImages.variant (h : AcceptsImages Γ limit read) {s : ι}
    {vars : List (VariantShape ι)} (hs : Γ s = .enum vars) {i : UInt32} {d d' : Decoder}
    {v : Value} (hd : d.depth ≤ limit) (hr : Decoder.variant read vars i d = .ok (v, d')) :
    v.Fits Γ s ∧ ∃ bs n, v.image = leBytes 4 i.toNat ++ bs ∧ v.levels = n + 1 ∧
      Consumed limit d d' bs n := by
  unfold Decoder.variant at hr
  cases hi : vars[i.toNat]? with
  | none =>
    simp only [hi] at hr
    exact absurd hr (by simp [StateExcept.fail])
  | some shape =>
    simp only [hi] at hr
    cases shape with
    | unit =>
      obtain ⟨rfl, rfl⟩ := StateExcept.pure_eq_ok hr
      exact ⟨⟨vars, hs, hi⟩, [], 0, (List.append_nil _).symm, rfl, .refl hd⟩
    | newtype t =>
      obtain ⟨v, hv, rfl⟩ := StateExcept.map_eq_ok hr
      obtain ⟨hf, hc⟩ := h t _ _ v hd hv
      exact ⟨⟨vars, t, hs, hi, hf⟩, _, _, rfl, rfl, hc⟩
    | tuple ts =>
      obtain ⟨vs, hvs, rfl⟩ := StateExcept.map_eq_ok hr
      obtain ⟨hf, hc⟩ := h.fields ts _ _ vs hd hvs
      exact ⟨⟨vars, ts, hs, hi, hf⟩, _, _, rfl, rfl, hc⟩

/-- The deserializer accepts only images of values of the schema, under the limit. The
induction is on the fuel. -/
theorem acceptsImages_deserialize (Γ : Schema ι) (limit : ℕ) :
    ∀ fuel : ℕ, AcceptsImages Γ limit (deserialize limit Γ fuel)
  | 0 => fun s d d' v _ h => absurd h (by simp [deserialize, StateExcept.fail])
  | fuel + 1 => fun s d d' v hd h => by
    have ih := acceptsImages_deserialize Γ limit fuel
    unfold deserialize at h
    cases hs : Γ s with
    | bool =>
      simp only [hs] at h
      obtain ⟨b, d₁, hb, h⟩ := StateExcept.bind_eq_ok h
      have hc := Decoder.byte_ok hd hb
      split at h
      · obtain ⟨rfl, rfl⟩ := StateExcept.pure_eq_ok h
        exact ⟨hs, hc⟩
      · obtain ⟨rfl, rfl⟩ := StateExcept.pure_eq_ok h
        exact ⟨hs, hc⟩
      · exact absurd h (by simp [StateExcept.fail])
    | scalar k =>
      simp only [hs] at h
      obtain ⟨bs, hbs, rfl⟩ := StateExcept.map_eq_ok h
      obtain ⟨hlen, hc⟩ := Decoder.take_ok hd hbs
      refine ⟨hs, ?_⟩
      simp only [Value.image, Value.levels, BitVec.toNat_ofNat]
      rwa [Nat.mod_eq_of_lt, leBytes_ofLe_of_length hlen]
      simpa [pow_mul, hlen] using ofLe_lt bs
    | char =>
      simp only [hs] at h
      obtain ⟨c, hc, rfl⟩ := StateExcept.map_eq_ok h
      exact ⟨hs, Decoder.char_ok hd hc⟩
    | str =>
      simp only [hs] at h
      obtain ⟨x, hx, rfl⟩ := StateExcept.map_eq_ok h
      obtain ⟨hlt, hc⟩ := Decoder.str_ok hd hx
      exact ⟨⟨hs, hlt⟩, hc⟩
    | bytes =>
      simp only [hs] at h
      obtain ⟨bs, hbs, rfl⟩ := StateExcept.map_eq_ok h
      obtain ⟨hlt, hc⟩ := Decoder.byteBuf_ok hd hbs
      exact ⟨⟨hs, hlt⟩, hc⟩
    | option t =>
      simp only [hs] at h
      obtain ⟨b, d₁, hb, h⟩ := StateExcept.bind_eq_ok h
      have hc := Decoder.byte_ok hd hb
      split at h
      · obtain ⟨rfl, rfl⟩ := StateExcept.pure_eq_ok h
        exact ⟨⟨t, hs⟩, hc⟩
      · obtain ⟨d₂, d₃, hd₂, h, hnest⟩ := Decoder.nested_ok h
        obtain ⟨v, hv, rfl⟩ := StateExcept.map_eq_ok h
        obtain ⟨hf, hc'⟩ := ih t _ _ v hd₂ hv
        refine ⟨⟨t, hs, hf⟩, ?_⟩
        simpa only [Value.image, Value.levels, List.singleton_append, Nat.zero_max] using
          hc.trans (hnest hc')
      · exact absurd h (by simp [StateExcept.fail])
    | unit =>
      simp only [hs] at h
      obtain ⟨rfl, rfl⟩ := StateExcept.pure_eq_ok h
      exact ⟨hs, .refl hd⟩
    | newtypeStruct t =>
      simp only [hs] at h
      obtain ⟨d₁, d₂, hd₁, h, hnest⟩ := Decoder.nested_ok h
      obtain ⟨v, hv, rfl⟩ := StateExcept.map_eq_ok h
      obtain ⟨hf, hc⟩ := ih t _ _ v hd₁ hv
      exact ⟨⟨t, hs, hf⟩, hnest hc⟩
    | tuple ts =>
      simp only [hs] at h
      obtain ⟨d₁, d₂, hd₁, h, hnest⟩ := Decoder.nested_ok h
      obtain ⟨vs, hvs, rfl⟩ := StateExcept.map_eq_ok h
      obtain ⟨hf, hc⟩ := ih.fields ts _ _ vs hd₁ hvs
      exact ⟨⟨ts, hs, hf⟩, hnest hc⟩
    | seq t =>
      simp only [hs] at h
      obtain ⟨n, d₁, hn, h⟩ := StateExcept.bind_eq_ok h
      obtain ⟨hlt, hc⟩ := Decoder.count_ok hd hn
      obtain ⟨d₂, d₃, hd₂, h, hnest⟩ := Decoder.nested_ok h
      obtain ⟨vs, hvs, rfl⟩ := StateExcept.map_eq_ok h
      obtain ⟨rfl, hf, hc'⟩ := ih.elements t n _ _ vs hd₂ hvs
      refine ⟨⟨t, hs, hlt, hf⟩, ?_⟩
      simpa only [Value.image, Value.levels, Nat.zero_max] using hc.trans (hnest hc')
    | map k v =>
      simp only [hs] at h
      obtain ⟨n, d₁, hn, h⟩ := StateExcept.bind_eq_ok h
      obtain ⟨hlt, hc⟩ := Decoder.count_ok hd hn
      obtain ⟨d₂, d₃, hd₂, h, hnest⟩ := Decoder.nested_ok h
      obtain ⟨kvs, hkvs, rfl⟩ := StateExcept.map_eq_ok h
      obtain ⟨rfl, hf, hc'⟩ := ih.entries k v n _ _ kvs hd₂ hkvs
      refine ⟨⟨k, v, hs, hlt, hf⟩, ?_⟩
      simpa only [Value.image, Value.levels, Nat.zero_max] using hc.trans (hnest hc')
    | enum vars =>
      simp only [hs] at h
      obtain ⟨d₁, d₂, hd₁, h, hnest⟩ := Decoder.nested_ok h
      obtain ⟨bs, d₃, hbs, h⟩ := StateExcept.bind_eq_ok h
      obtain ⟨hlen, hc⟩ := Decoder.take_ok hd₁ hbs
      obtain ⟨hf, bs', n, himage, hlevels, hc'⟩ := ih.variant hs hc.depth_le h
      refine ⟨hf, ?_⟩
      have hindex : leBytes 4 (UInt32.ofNat (ofLe bs)).toNat = bs := by
        have := ofLe_lt bs
        rw [hlen] at this
        rw [UInt32.toNat_ofNat_of_lt' (by simpa using this), leBytes_ofLe_of_length hlen]
      rw [himage, hlevels, hindex]
      simpa only [Nat.zero_max] using hnest (hc.trans hc')

/-! ## Canonical decoding -/

/-- The bytes of `bytes` before its end `rest`. -/
def consumed (bytes rest : List UInt8) : List UInt8 :=
  bytes.take (bytes.length - rest.length)

/-- An accepted value encodes to exactly the bytes it was decoded from, so no other bytes
decode to it. -/
theorem toVec_of_fromSlice {s : ι} {bytes rest : List UInt8} {v : Value}
    (h : fromSlice Γ s bytes = .ok (v, rest)) :
    bytes = consumed bytes rest ++ rest ∧ toVec v = .ok (consumed bytes rest) ∧
      ∀ bytes' rest', fromSlice Γ s bytes' = .ok (v, rest') →
        consumed bytes' rest' = consumed bytes rest := by
  have haccept : ∀ bytes rest, fromSlice Γ s bytes = .ok (v, rest) →
      bytes = consumed bytes rest ++ rest ∧ toVec v = .ok (consumed bytes rest) := by
    intro bytes rest h
    unfold fromSlice fromSliceWithin at h
    split at h
    · next v' d' hv =>
      obtain ⟨rfl, rfl⟩ := Prod.mk.inj (Except.ok.inj h)
      obtain ⟨hf, hc⟩ :=
        acceptsImages_deserialize Γ depthLimit _ s _ _ v' (Nat.zero_le _) hv
      have hin : bytes = v'.image ++ d'.input := hc.input
      have hwithin := hc.within
      simp only [Decoder.new, Nat.zero_add] at hwithin
      have hcons : consumed bytes d'.input = v'.image := by
        simp [consumed, hin]
      exact ⟨by rw [hcons, ← hin], by rw [hcons, toVec, toVecWithin_eq Γ _ hf, if_pos hwithin]⟩
    · exact absurd h (by simp)
  refine ⟨(haccept bytes rest h).1, (haccept bytes rest h).2, fun bytes' rest' h' => ?_⟩
  exact Except.ok.inj ((haccept bytes' rest' h').2.symm.trans (haccept bytes rest h).2)

/-- Lists of units : their elements take no bytes. -/
def unitLists : Schema (Fin 2)
  | 0 => .seq (Fin.last 1)
  | 1 => .unit

/-- Two units, read from their count before two other bytes, encode to that count. -/
theorem toVec_of_fromSlice_unitLists :
    toVec (.seq [.unit, .unit]) = .ok [2, 0, 0, 0, 0, 0, 0, 0] :=
  (toVec_of_fromSlice (show fromSlice unitLists 0 [2, 0, 0, 0, 0, 0, 0, 0, 9, 9] =
    .ok (.seq [.unit, .unit], [9, 9]) by rfl)).2.1

end Deserialize

end LocalCache
