import LocalCache.SealHistory

/-!
# What is stored can be read back

A payload is read back by its tag alone. The writer picks the tag from its codec and its compress
flag before it seals. The reader strips the suffix, opens the bytes, and finds the layers in a
table of its own. Both agree for every format a build can make (`decodePayload_encodePayload`).

The size limit is enforced twice. The writer compares a length before it compresses, and the reader
collects the decompressed stream in a buffer that may not pass the limit. The code grows this
buffer by a rule of its own, in `usize`. `collectGrowing` has that rule, with `none` where an
addition or a subtraction would panic. No limit makes it panic, and it returns what
`decompressBytes` returns (`decompressGrowing_eq`).
-/

namespace LocalCache

/-- A build has no value for a layer it lacks. -/
structure PayloadFormat.Builds (f : Features) (F : PayloadFormat) : Prop where
  compress : F.compress = true → f.compression = true
  json : F.codec = .json → f.json = true

/-- The tag of the layers of a format. -/
def PayloadFormat.baseTag (F : PayloadFormat) : String :=
  match F.codec, F.compress with
  | .bincode, false => "raw"
  | .bincode, true => "zstd"
  | .json, false => "json"
  | .json, true => "json-zstd"

/-- What sealing, compression and the codecs promise : each is undone by its inverse. -/
structure Inverts (A : Aead) (Z : Zstd) (P : PayloadType) (payload : Value) : Prop where
  bincode : ∀ bytes, serializeBincode payload = .ok bytes → deserializeBincode P bytes = .ok payload
  json : ∀ bytes, P.jsonToVec payload = .ok bytes → P.jsonFromSlice bytes = .ok payload
  stream : ∀ data frame, Z.encodeAll data = .ok frame → ∃ chunks : List (List UInt8),
    Z.decoder frame = .ok (chunks.map .ok) ∧ chunks.flatten = data
  declared : ∀ data frame, Z.encodeAll data = .ok frame →
    ∀ size ∈ Z.getFrameContentSize frame, size = data.length
  opens : ∀ key nonce aad plain cipher, A.encrypt key nonce aad plain = some cipher →
    A.decrypt key nonce aad cipher = some plain

/-! ## The buffer of a decompression -/

section Buffer

/-- The reads of a stream collected in a buffer that grows as the code grows it. A request for `n`
bytes gives the capacity `alloc n`. -/
def collectGrowing (alloc : ℕ → ℕ) (limit : ℕ) : List (Except String (List UInt8)) →
    (out : List UInt8) → (capacity : ℕ) → Option (Except FormatError (List UInt8))
  | [], out, _ => some (.ok out)
  | .error e :: _, _, _ => some (.error (.io e))
  | .ok chunk :: rest, out, capacity => do
    let room ← usizeSub limit out.length
    if chunk.length > room then
      return .error (.payloadTooLarge limit)
    let free ← usizeSub capacity out.length
    if chunk.length > free then
      let needed ← usizeAdd out.length chunk.length
      let target := min (max (usizeSaturatingMul capacity 2) needed) limit
      let additional ← usizeSub target out.length
      collectGrowing alloc limit rest (out ++ chunk) (alloc (out.length + additional))
    else
      collectGrowing alloc limit rest (out ++ chunk) capacity

/-- `decompressBytes` with its buffer. -/
def decompressGrowing (alloc : ℕ → ℕ) (Z : Zstd) (data : List UInt8) (limit : ℕ) :
    Option (Except FormatError (List UInt8)) :=
  if (Z.getFrameContentSize data).any (· > limit) then some (.error (.payloadTooLarge limit))
  else
    match Z.decoder data with
    | .error e => some (.error (.io e))
    | .ok reads => collectGrowing alloc limit reads [] (alloc ((Z.getFrameContentSize data).getD 0))

variable {alloc : ℕ → ℕ} {limit : ℕ}

/-- The buffer is never shorter than its bytes, nor these longer than the limit. -/
theorem collectGrowing_eq (halloc : ∀ n, n ≤ alloc n) (hlimit : limit < usizeLimit) :
    ∀ (reads : List (Except String (List UInt8))) (out : List UInt8) (capacity : ℕ),
      out.length ≤ limit → out.length ≤ capacity →
        collectGrowing alloc limit reads out capacity = some (readToLimit limit reads out)
  | [], _, _, _, _ => rfl
  | .error _ :: _, _, _, _, _ => rfl
  | .ok chunk :: rest, out, capacity, hout, hcap => by
    rw [collectGrowing, readToLimit, usizeSub_of_le hout, Option.bind_eq_bind, Option.bind_some]
    split_ifs with hlarge
    · rfl
    have hnext : (out ++ chunk).length ≤ limit := by
      rw [List.length_append]
      omega
    rw [usizeSub_of_le hcap, Option.bind_some]
    split_ifs with hgrow
    · have hneeded : out.length + chunk.length ≤ limit := by omega
      have htarget : out.length + chunk.length ≤
          min (max (usizeSaturatingMul capacity 2) (out.length + chunk.length)) limit := by omega
      rw [usizeAdd_of_lt (by omega), Option.bind_some]
      dsimp only
      rw [usizeSub_of_le (by omega), Option.bind_some]
      refine collectGrowing_eq halloc hlimit rest _ _ hnext ?_
      refine le_trans ?_ (halloc _)
      rw [List.length_append]
      omega
    · refine collectGrowing_eq halloc hlimit rest _ _ hnext ?_
      rw [List.length_append]
      omega

theorem decompressGrowing_eq (halloc : ∀ n, n ≤ alloc n) (hlimit : limit < usizeLimit) (Z : Zstd)
    (data : List UInt8) :
    decompressGrowing alloc Z data limit = some (decompressBytes Z data limit) := by
  unfold decompressGrowing decompressBytes
  split_ifs
  · rfl
  · cases Z.decoder data with
    | error e => rfl
    | ok reads =>
      exact collectGrowing_eq halloc hlimit reads [] _ (Nat.zero_le _) (Nat.zero_le _)

end Buffer

/-! ## The limit on both sides -/

section Limit

variable {A : Aead} {Z : Zstd} {P : PayloadType} {payload : Value} {limit : ℕ}

/-- Chunks within the limit are all collected. -/
theorem readToLimit_of_le : ∀ (chunks : List (List UInt8)) (out : List UInt8),
    (out ++ chunks.flatten).length ≤ limit →
      readToLimit limit (chunks.map .ok) out = .ok (out ++ chunks.flatten)
  | [], out, _ => by simp [readToLimit]
  | chunk :: chunks, out, h => by
    have hroom : ¬chunk.length > limit - out.length := by
      simp only [List.flatten_cons, List.length_append] at h
      omega
    rw [List.flatten_cons, ← List.append_assoc] at h ⊢
    rw [List.map_cons, readToLimit, if_neg hroom, readToLimit_of_le chunks (out ++ chunk) h]

/-- What the writer compressed within the limit, the reader decompresses. -/
theorem decompressBytes_compressBytes (hinv : Inverts A Z P payload) {data frame : List UInt8}
    (h : compressBytes Z data = .ok frame) (hle : data.length ≤ limit) :
    decompressBytes Z frame limit = .ok data := by
  have hencode : Z.encodeAll data = .ok frame := by
    unfold compressBytes at h
    cases hz : Z.encodeAll data with
    | error e =>
      rw [hz] at h
      exact absurd h (by simp [Except.mapError])
    | ok z =>
      rw [hz] at h
      rw [Except.ok.inj h]
  obtain ⟨chunks, hchunks, rfl⟩ := hinv.stream data frame hencode
  have hdeclared : ¬(Z.getFrameContentSize frame).any (· > limit) = true := by
    rw [Option.any_eq_true]
    rintro ⟨size, hsize, hgt⟩
    rw [hinv.declared _ _ hencode size hsize] at hgt
    exact absurd hle (by simpa using hgt)
  rw [decompressBytes, if_neg hdeclared, hchunks]
  exact readToLimit_of_le chunks [] hle

end Limit

/-! ## Writing and reading -/

section Payload

variable {f : Features} {A : Aead} {Z : Zstd} {P : PayloadType} {F F' : PayloadFormat}
  {payload : Value} {nonce : Option Nonce} {path : String} {key : Option Key}
  {calls : List SealCall}

theorem isKnownBase_baseTag (h : F.Builds f) : isKnownBase f F.baseTag = true := by
  obtain ⟨codec, compress, limit⟩ := F
  obtain ⟨hcompress, hjson⟩ := h
  cases codec <;> cases compress <;> simp_all [PayloadFormat.baseTag, isKnownBase]

theorem parseTag_baseTag (F : PayloadFormat) : parseTag F.baseTag = (F.baseTag, .plain) := by
  obtain ⟨codec, compress, limit⟩ := F
  cases codec <;> cases compress
  · show parseTag "raw" = ("raw", .plain)
    decide
  · show parseTag "zstd" = ("zstd", .plain)
    decide
  · show parseTag "json" = ("json", .plain)
    decide
  · show parseTag "json-zstd" = ("json-zstd", .plain)
    decide

/-- What the codec and the compression made, and the check in between. -/
theorem encodeLayers_ok {layers : Encoded} (h : encodeLayers Z P F payload = .ok layers) :
    ∃ serialized, serializeWithCodec P payload F.codec = .ok serialized ∧ layers.tag = F.baseTag ∧
      if F.compress then
        serialized.length ≤ F.maxDecompressedBytes ∧ compressBytes Z serialized = .ok layers.bytes
      else layers.bytes = serialized := by
  unfold encodeLayers at h
  obtain ⟨codec, compress, limit⟩ := F
  cases hserialized : serializeWithCodec P payload codec with
  | error e =>
    rw [hserialized] at h
    exact absurd h (by simp [bind, Except.bind])
  | ok serialized =>
    simp only [hserialized, bind, Except.bind, pure, Except.pure, throw, throwThe, MonadExceptOf.throw] at h
    refine ⟨serialized, rfl, ?_⟩
    cases compress with
    | false =>
      obtain rfl := Except.ok.inj h
      cases codec <;> exact ⟨rfl, rfl⟩
    | true =>
      simp only [if_true] at h ⊢
      split_ifs at h with hlarge
      cases hcompressed : compressBytes Z serialized with
      | error e =>
        rw [hcompressed] at h
        exact absurd h (by simp)
      | ok compressed =>
        rw [hcompressed] at h
        obtain rfl := Except.ok.inj h
        cases codec <;> exact ⟨rfl, by omega, rfl⟩

theorem serializeWithCodec_ne_tooLarge (P : PayloadType) (payload : Value) (codec : Codec)
    (limit : ℕ) :
    serializeWithCodec P payload codec ≠ .error (.payloadTooLarge limit) := by
  intro h
  cases codec with
  | bincode =>
    rw [serializeWithCodec, serializeBincode] at h
    cases htoVec : toVec payload <;> rw [htoVec] at h <;> exact absurd h (by simp [Except.mapError])
  | json =>
    rw [serializeWithCodec, serializeJson] at h
    cases hjson : P.jsonToVec payload <;> rw [hjson] at h <;>
      exact absurd h (by simp [Except.mapError])

/-- The writer refuses a size exactly when it compresses more than the limit. -/
theorem encodeLayers_tooLarge {limit : ℕ} :
    encodeLayers Z P F payload = .error (.payloadTooLarge limit) ↔
      limit = F.maxDecompressedBytes ∧ F.compress = true ∧
        ∃ serialized, serializeWithCodec P payload F.codec = .ok serialized ∧
          F.maxDecompressedBytes < serialized.length := by
  unfold encodeLayers
  cases hserialized : serializeWithCodec P payload F.codec with
  | error e =>
    have hne := serializeWithCodec_ne_tooLarge P payload F.codec limit
    rw [hserialized] at hne
    refine ⟨fun h => ?_, fun ⟨_, _, _, h, _⟩ => absurd h (by simp)⟩
    obtain rfl : e = .payloadTooLarge limit := Except.error.inj h
    exact absurd rfl hne
  | ok serialized =>
    simp only [bind, Except.bind, pure, Except.pure, throw, throwThe, MonadExceptOf.throw,
      Except.ok.injEq, exists_eq_left']
    cases F.compress with
    | false => simp
    | true =>
      simp only [if_true, true_and]
      split_ifs with hlarge
      · simp [hlarge, eq_comm]
      · have hne : compressBytes Z serialized ≠ .error (.payloadTooLarge limit) := by
          rw [compressBytes]
          cases Z.encodeAll serialized <;> simp [Except.mapError]
        cases hcompressed : compressBytes Z serialized with
        | error e =>
          rw [hcompressed] at hne
          refine ⟨fun h => ?_, fun h => absurd h.2 hlarge⟩
          obtain rfl : e = .payloadTooLarge limit := Except.error.inj h
          exact absurd rfl hne
        | ok compressed => exact ⟨fun h => absurd h (by simp), fun h => absurd h.2 hlarge⟩

/-- Encoding is its layers, sealed with a key. -/
theorem encodePayload_fst : (encodePayload f A Z P F nonce payload path key calls).1 =
    encodeLayers Z P F payload >>= fun layers =>
      match key with
      | none => .ok layers
      | some key =>
        match boundTag f layers.tag with
        | none => .error (.serialization ("no encrypted tag for base tag '" ++ layers.tag ++ "'"))
        | some tag =>
          (encryptBytes A nonce layers.bytes key (associatedData tag path) calls).1.map (⟨·, tag⟩) := by
  unfold encodePayload
  cases encodeLayers Z P F payload with
  | error e => rfl
  | ok layers =>
    cases key with
    | none => rfl
    | some key =>
      rw [SealM.bind_of_ok (x := SealM.ofExcept (.ok layers)) rfl]
      simp only [bind, Except.bind]
      cases htag : boundTag f layers.tag with
      | none => rfl
      | some tag =>
        rcases h : encryptBytes A nonce layers.bytes key (associatedData tag path) calls with
          ⟨e | bytes, calls'⟩ <;> simp only [h] <;> rfl

/-- Sealing refuses no size. -/
theorem encodePayload_tooLarge {limit : ℕ} :
    (encodePayload f A Z P F nonce payload path key calls).1 = .error (.payloadTooLarge limit) ↔
      encodeLayers Z P F payload = .error (.payloadTooLarge limit) := by
  rw [encodePayload_fst]
  cases encodeLayers Z P F payload with
  | error e =>
    simp only [bind, Except.bind, Except.error.injEq]
  | ok layers =>
    refine ⟨fun h => ?_, fun h => absurd h (by simp)⟩
    simp only [bind, Except.bind] at h
    cases key with
    | none => exact absurd h (by simp)
    | some key =>
      cases htag : boundTag f layers.tag with
      | none =>
        simp only [htag] at h
        exact absurd h (by simp)
      | some tag =>
        simp only [htag] at h
        unfold encryptBytes at h
        cases nonce with
        | none => exact absurd h (by simp [Except.map])
        | some n =>
          dsimp only at h
          cases hc : A.encrypt key n (associatedData tag path) layers.bytes <;> rw [hc] at h <;>
            exact absurd h (by simp [Except.map])

/-- The gate gives back the layers that were stored. -/
theorem decodeGate_encodePayload (hbuilds : F.Builds f) (hinv : Inverts A Z P payload) {out : Encoded}
    (h : (encodePayload f A Z P F nonce payload path key calls).1 = .ok out) :
    ∃ layers, encodeLayers Z P F payload = .ok layers ∧
      decodeGate f A out.bytes out.tag path key = .ok layers := by
  rw [encodePayload_fst] at h
  cases hlayers : encodeLayers Z P F payload with
  | error e =>
    rw [hlayers] at h
    exact absurd h (by simp [bind, Except.bind])
  | ok layers =>
    obtain ⟨serialized, -, htag, -⟩ := encodeLayers_ok hlayers
    refine ⟨layers, rfl, ?_⟩
    rw [hlayers] at h
    simp only [bind, Except.bind] at h
    cases key with
    | none =>
      obtain rfl := Except.ok.inj h
      rw [decodeGate, htag, parseTag_baseTag]
      simp [← htag]
    | some key =>
      have hknown : isKnownBase f layers.tag = true := htag ▸ isKnownBase_baseTag hbuilds
      have hbound := boundTag_eq f layers.tag
      rw [if_pos hknown] at hbound
      simp only [hbound] at h
      rcases hseal : encryptBytes A nonce layers.bytes key
        (associatedData (layers.tag ++ boundSuffix) path) calls with ⟨e | bytes, calls'⟩
      · rw [hseal] at h
        exact absurd h (by simp [Except.map])
      · rw [hseal] at h
        obtain rfl := Except.ok.inj h
        obtain ⟨n, cipher, hcipher, rfl, -⟩ := encryptBytes_ok hseal
        have hopen : decryptBytes A (n.bytes ++ cipher) key
            (associatedData (layers.tag ++ boundSuffix) path) = .ok layers.bytes :=
          decryptBytes_append (hinv.opens _ _ _ _ _ hcipher)
        rw [decodeGate, parseTag_of_boundTag hbound]
        simp [hknown, hopen, bind, Except.bind, pure, Except.pure]

theorem deserializeJson_of_serialize (hinv : Inverts A Z P payload) {bytes : List UInt8}
    (h : serializeJson P payload = .ok bytes) : deserializeJson P bytes = .ok payload := by
  unfold serializeJson at h
  cases hjson : P.jsonToVec payload with
  | error e =>
    rw [hjson] at h
    exact absurd h (by simp [Except.mapError])
  | ok json =>
    rw [hjson] at h
    obtain rfl := Except.ok.inj h
    rw [deserializeJson, hinv.json _ hjson]
    rfl

/-- The reader's table gives back the payload of the layers, at the writer's limit. -/
theorem decodeLayers_encodeLayers (hbuilds : F.Builds f) (hinv : Inverts A Z P payload)
    {layers : Encoded} (h : encodeLayers Z P F payload = .ok layers) :
    decodeLayers f Z P F.maxDecompressedBytes layers = .ok payload := by
  obtain ⟨serialized, hserialized, htag, hbytes⟩ := encodeLayers_ok h
  obtain ⟨codec, compress, limit⟩ := F
  obtain ⟨bytes, tag⟩ := layers
  obtain ⟨hcompression, hjson⟩ := hbuilds
  -- one case for each base tag
  cases codec with
  | bincode =>
    have hvalue := hinv.bincode serialized hserialized
    cases compress with
    | false =>
      obtain rfl : tag = "raw" := htag
      obtain rfl : bytes = serialized := hbytes
      exact hvalue
    | true =>
      obtain rfl : tag = "zstd" := htag
      have hdata := decompressBytes_compressBytes hinv hbytes.2 hbytes.1
      simp only [decodeLayers, hcompression rfl, hdata]
      exact hvalue
  | json =>
    have hvalue := deserializeJson_of_serialize hinv hserialized
    cases compress with
    | false =>
      obtain rfl : tag = "json" := htag
      obtain rfl : bytes = serialized := hbytes
      simp only [decodeLayers, hjson rfl]
      exact hvalue
    | true =>
      obtain rfl : tag = "json-zstd" := htag
      have hdata := decompressBytes_compressBytes hinv hbytes.2 hbytes.1
      simp only [decodeLayers, hjson rfl, hcompression rfl, hdata]
      exact hvalue

/-- What an engine stores, an engine with the same limit, key and features reads back at the same
path, whatever its own codec. A write is refused for its size exactly when it compresses a payload
longer than the limit, and the reader's buffer reads every frame without a panic. -/
theorem decodePayload_encodePayload (hbuilds : F.Builds f) (hinv : Inverts A Z P payload)
    (hlimit : F'.maxDecompressedBytes = F.maxDecompressedBytes) :
    (∀ out, (encodePayload f A Z P F nonce payload path key calls).1 = .ok out →
      decodePayload f A Z P F' out.bytes out.tag path key = .ok payload) ∧
    (∀ limit, (encodePayload f A Z P F nonce payload path key calls).1 =
        .error (.payloadTooLarge limit) ↔
      limit = F.maxDecompressedBytes ∧ F.compress = true ∧
        ∃ serialized, serializeWithCodec P payload F.codec = .ok serialized ∧
          F.maxDecompressedBytes < serialized.length) ∧
    ∀ alloc : ℕ → ℕ, (∀ n, n ≤ alloc n) → F'.maxDecompressedBytes < usizeLimit →
      ∀ frame, decompressGrowing alloc Z frame F'.maxDecompressedBytes =
        some (decompressBytes Z frame F'.maxDecompressedBytes) := by
  refine ⟨fun out h => ?_, fun limit => encodePayload_tooLarge.trans encodeLayers_tooLarge,
    fun alloc halloc hsize frame => decompressGrowing_eq halloc hsize Z frame⟩
  obtain ⟨layers, hlayers, hgate⟩ := decodeGate_encodePayload hbuilds hinv h
  rw [decodePayload, hgate, hlimit]
  exact decodeLayers_encodeLayers hbuilds hinv hlayers

end Payload

section Witness

/-- An AEAD that adds one to each byte and appends the associated data. -/
def suffixAead : Aead where
  encrypt _ _ aad plain := some (plain.map (· + 1) ++ aad)
  decrypt _ _ aad cipher :=
    if aad <:+ cipher then some ((cipher.take (cipher.length - aad.length)).map (· - 1)) else none

/-- One `bool` at the limit, which is its one byte. -/
theorem decodePayload_encodePayload_sample :
    ∃ out, (encodePayload ⟨true, true⟩ suffixAead sampleZstd sampleType ⟨.bincode, true, 1⟩ sampleNonce
        (.bool true) "/a" sampleKey []).1 = .ok out ∧
      decodePayload ⟨true, true⟩ suffixAead sampleZstd sampleType ⟨.json, false, 1⟩ out.bytes out.tag "/a"
        sampleKey = .ok (.bool true) := by
  have hreads : ∀ out, (encodePayload ⟨true, true⟩ suffixAead sampleZstd sampleType ⟨.bincode, true, 1⟩
      sampleNonce (.bool true) "/a" sampleKey []).1 = .ok out →
        decodePayload ⟨true, true⟩ suffixAead sampleZstd sampleType ⟨.json, false, 1⟩ out.bytes out.tag
          "/a" sampleKey = .ok (.bool true) := by
    refine (decodePayload_encodePayload ⟨fun _ => rfl, fun _ => rfl⟩ ⟨?_, ?_, ?_, ?_, ?_⟩ rfl).1
    · intro bytes h
      obtain rfl : [1] = bytes := Except.ok.inj h
      rfl
    · intro bytes h
      exact absurd h (by simp [sampleType])
    · intro data frame h
      obtain rfl := Except.ok.inj h
      exact ⟨[data], rfl, by simp⟩
    · intro data frame _ size hsize
      exact absurd hsize (by simp [sampleZstd])
    · intro key nonce aad plain cipher h
      obtain rfl := Option.some.inj h
      have hback : (plain.map (· + 1)).map (· - 1) = plain := by simp [Function.comp_def]
      simp only [suffixAead, List.suffix_append, if_true, List.length_append, Nat.add_sub_cancel,
        List.take_left, hback]
  exact ⟨_, rfl, hreads _ rfl⟩

end Witness

end LocalCache
