import LocalCache.Decoder
import LocalCache.Tags

/-!
# The payload format

The pipeline codec → compress → seal, and back. The AEAD, zstd and the JSON codec are not
in the repository and enter as parameters : `Aead` and `Zstd` are the calls the code makes,
and a `PayloadType` gives a type's place in the serde data model and its JSON codec.

Sealing runs in `SealM`, which keeps a history variable : every call of the AEAD's
`encrypt` that gave a ciphertext. Nothing reads it but the statements about histories.
-/

namespace LocalCache

/-- An AES-256 key. -/
structure Key where
  bytes : List UInt8
  length_eq : bytes.length = 32
  deriving DecidableEq

/-- The key in `bytes`, if they are exactly 32. -/
def Key.fromSlice (bytes : List UInt8) : Option Key :=
  if h : bytes.length = 32 then some ⟨bytes, h⟩ else none

/-- A nonce of AES-256-GCM. -/
structure Nonce where
  bytes : List UInt8
  length_eq : bytes.length = 12
  deriving DecidableEq

/-- Why a payload could not be stored or read. -/
inductive FormatError
  | io (text : String)
  | serialization (text : String)
  | unknownEncoding (tag : String)
  | payloadTooLarge (limit : ℕ)
  | encryptionError (text : String)
  | missingEncryptionKey
  | unsealedEntry
  deriving DecidableEq, Repr

/-- The text of a codec error. -/
def CodecError.text : CodecError → String
  | .message text => text
  | .unexpectedEnd needed remaining => "unexpected end of input: " ++ toString needed ++
      " byte(s) needed, " ++ toString remaining ++ " left"
  | .countExceedsInput claimed remaining => "a count of " ++ toString claimed ++
      " elements exceeds the " ++ toString remaining ++ " byte(s) left"
  | .lengthOverflow length => "a length of " ++ toString length ++ " does not fit in usize"
  | .invalidBool value => "invalid bool value " ++ toString value
  | .invalidOptionTag value => "invalid Option tag " ++ toString value
  | .invalidChar => "invalid char encoding"
  | .invalidUtf8 => "invalid UTF-8 in a string"
  | .tooDeep => "nesting is deeper than " ++ toString depthLimit ++ " levels"
  | .lengthMismatch declared written => "a sequence or map declared " ++ toString declared ++
      " element(s) but wrote " ++ toString written
  | .lengthTooLarge => "a length does not fit in 64 bits"

/-! ## What is not in the repository -/

/-- The calls of the AEAD, each on a key, a nonce, associated data and a text. -/
structure Aead where
  encrypt : Key → Nonce → List UInt8 → List UInt8 → Option (List UInt8)
  decrypt : Key → Nonce → List UInt8 → List UInt8 → Option (List UInt8)

/-- The calls of zstd. A decoder is the results of its reads up to the end of the stream
or an error. -/
structure Zstd where
  encodeAll : List UInt8 → Except String (List UInt8)
  getFrameContentSize : List UInt8 → Option ℕ
  decoder : List UInt8 → Except String (List (Except String (List UInt8)))

/-- A payload type : its place in the data model, and its JSON codec. -/
structure PayloadType where
  ι : Type
  schema : Schema ι
  name : ι
  jsonToVec : Value → Except String (List UInt8)
  jsonFromSlice : List UInt8 → Except String Value

/-! ## Sealing -/

/-- A call of `encrypt` that gave a ciphertext. -/
structure SealCall where
  key : Key
  nonce : Nonce
  aad : List UInt8
  plain : List UInt8
  cipher : List UInt8
  deriving DecidableEq

/-- Sealing, with the calls of `encrypt` so far as a history variable. -/
def SealM (α : Type) := List SealCall → Except FormatError α × List SealCall

namespace SealM

instance : Monad SealM where
  pure a := fun calls => (.ok a, calls)
  bind x f := fun calls => match x calls with
    | (.ok a, calls) => f a calls
    | (.error e, calls) => (.error e, calls)

theorem bind_of_ok {α β : Type} {x : SealM α} {f : α → SealM β} {calls calls' : List SealCall}
    {a : α} (h : x calls = (.ok a, calls')) : (x >>= f) calls = f a calls' := by
  show (match x calls with
    | (.ok a, calls) => f a calls
    | (.error e, calls) => (.error e, calls)) = _
  rw [h]

theorem bind_of_error {α β : Type} {x : SealM α} {f : α → SealM β} {calls calls' : List SealCall}
    {e : FormatError} (h : x calls = (.error e, calls')) :
    (x >>= f) calls = (.error e, calls') := by
  show (match x calls with
    | (.ok a, calls) => f a calls
    | (.error e, calls) => (.error e, calls)) = _
  rw [h]

def ofExcept {α : Type} (x : Except FormatError α) : SealM α := fun calls => (x, calls)

/-- The result alone, without the history. -/
def result {α : Type} (x : SealM α) : Except FormatError α := (x []).1

@[simp] theorem result_ofExcept {α : Type} (x : Except FormatError α) :
    (ofExcept x).result = x := rfl

theorem result_bind_ofExcept {α β : Type} (x : Except FormatError α) (f : α → SealM β) :
    (ofExcept x >>= f).result = x >>= fun a => (f a).result := by
  cases x <;> rfl

end SealM

/-- Encrypt under a fresh nonce : the nonce, then the ciphertext. -/
def encryptBytes (A : Aead) (nonce : Option Nonce) (plain : List UInt8) (key : Key)
    (aad : List UInt8) : SealM (List UInt8) := fun calls =>
  match nonce with
  | none => (.error (.encryptionError "nonce generation failed"), calls)
  | some nonce =>
    match A.encrypt key nonce aad plain with
    | none => (.error (.encryptionError "encryption failed"), calls)
    | some cipher => (.ok (nonce.bytes ++ cipher), calls ++ [⟨key, nonce, aad, plain, cipher⟩])

def decryptBytes (A : Aead) (data : List UInt8) (key : Key) (aad : List UInt8) :
    Except FormatError (List UInt8) :=
  if h : data.length < 12 then
    .error (.encryptionError "ciphertext too short to contain nonce")
  else
    match A.decrypt key ⟨data.take 12, by simp; omega⟩ aad (data.drop 12) with
    | some plain => .ok plain
    | none => .error (.encryptionError ("decryption failed — wrong key, corrupted data, " ++
        "or the entry was moved from another path"))

/-! ## The codecs and compression -/

inductive Codec
  | bincode
  | json
  deriving DecidableEq, Repr

section Layers

variable (P : PayloadType) (Z : Zstd)

def serializeBincode (payload : Value) : Except FormatError (List UInt8) :=
  (toVec payload).mapError fun e => .serialization e.text

def deserializeBincode (bytes : List UInt8) : Except FormatError Value :=
  match fromSlice P.schema P.name bytes with
  | .ok (v, _) => .ok v
  | .error e => .error (.serialization e.text)

def serializeJson (payload : Value) : Except FormatError (List UInt8) :=
  (P.jsonToVec payload).mapError fun e => .serialization ("json serialization error: " ++ e)

def deserializeJson (bytes : List UInt8) : Except FormatError Value :=
  (P.jsonFromSlice bytes).mapError fun e => .serialization ("json deserialization error: " ++ e)

def serializeWithCodec (payload : Value) : Codec → Except FormatError (List UInt8)
  | .bincode => serializeBincode payload
  | .json => serializeJson P payload

def compressBytes (data : List UInt8) : Except FormatError (List UInt8) :=
  (Z.encodeAll data).mapError .io

/-- Collect the reads of a stream, refusing one that would pass the limit. -/
def readToLimit (limit : ℕ) : List (Except String (List UInt8)) → List UInt8 →
    Except FormatError (List UInt8)
  | [], out => .ok out
  | .error e :: _, _ => .error (.io e)
  | .ok chunk :: rest, out =>
    if chunk.length > limit - out.length then .error (.payloadTooLarge limit)
    else readToLimit limit rest (out ++ chunk)

/-- Decompress a zstd frame into at most `limit` bytes. -/
def decompressBytes (data : List UInt8) (limit : ℕ) : Except FormatError (List UInt8) :=
  if (Z.getFrameContentSize data).any (· > limit) then .error (.payloadTooLarge limit)
  else
    match Z.decoder data with
    | .error e => .error (.io e)
    | .ok reads => readToLimit limit reads []

end Layers

/-! ## Encode and decode -/

/-- How payloads are turned into stored bytes and back. -/
structure PayloadFormat where
  codec : Codec
  compress : Bool
  maxDecompressedBytes : ℕ
  deriving DecidableEq, Repr

/-- A payload ready to be stored : the bytes and the encoding tag. -/
structure Encoded where
  bytes : List UInt8
  tag : String
  deriving DecidableEq, Repr

section Payload

variable (f : Features) (A : Aead) (Z : Zstd) (P : PayloadType)

/-- The codec and compression steps of `encodePayload`. -/
def encodeLayers (F : PayloadFormat) (payload : Value) : Except FormatError Encoded := do
  let serialized ← serializeWithCodec P payload F.codec
  if F.compress then
    if serialized.length > F.maxDecompressedBytes then
      throw (.payloadTooLarge F.maxDecompressedBytes)
    let compressed ← compressBytes Z serialized
    return ⟨compressed, match F.codec with
      | .bincode => "zstd"
      | .json => "json-zstd"⟩
  else
    return ⟨serialized, match F.codec with
      | .bincode => "raw"
      | .json => "json"⟩

/-- Encode a payload for storage under `path`. The tag of a sealed payload is chosen
before it is sealed, because it is part of the associated data. -/
def encodePayload (F : PayloadFormat) (nonce : Option Nonce) (payload : Value) (path : String)
    (key : Option Key) : SealM Encoded := do
  let layers ← SealM.ofExcept (encodeLayers Z P F payload)
  match key with
  | none => return layers
  | some key =>
    match boundTag f layers.tag with
    | none => SealM.ofExcept (.error (.serialization
        ("no encrypted tag for base tag '" ++ layers.tag ++ "'")))
    | some tag =>
      let bytes ← encryptBytes A nonce layers.bytes key (associatedData tag path)
      return ⟨bytes, tag⟩

/-- The gate of `decodePayload` : the bytes handed to decompression and deserialization,
and the base tag that says how. With a key only a bound payload passes. -/
def decodeGate (bytes : List UInt8) (encoding path : String) (key : Option Key) :
    Except FormatError Encoded :=
  match parseTag encoding with
  | (base, .plain) =>
    if key.isSome && isKnownBase f base then .error .unsealedEntry else .ok ⟨bytes, encoding⟩
  | (base, sealing) =>
    match key with
    | none => .error .missingEncryptionKey
    | some key =>
      if !isKnownBase f base then .error (.unknownEncoding base)
      else if sealing = .unbound then .error .unsealedEntry
      else do
        let decrypted ← decryptBytes A bytes key (associatedData encoding path)
        return ⟨decrypted, base⟩

/-- Decompression and deserialization, as the base tag says. -/
def decodeLayers (maxDecompressedBytes : ℕ) (inner : Encoded) : Except FormatError Value :=
  if inner.tag = "raw" then deserializeBincode P inner.bytes
  else if inner.tag = "zstd" ∧ f.compression then do
    deserializeBincode P (← decompressBytes Z inner.bytes maxDecompressedBytes)
  else if inner.tag = "json" ∧ f.json then deserializeJson P inner.bytes
  else if inner.tag = "json-zstd" ∧ f.json ∧ f.compression then do
    deserializeJson P (← decompressBytes Z inner.bytes maxDecompressedBytes)
  else .error (.unknownEncoding inner.tag)

/-- Decode stored bytes back into a payload. -/
def decodePayload (F : PayloadFormat) (bytes : List UInt8) (encoding path : String)
    (key : Option Key) : Except FormatError Value := do
  let inner ← decodeGate f A bytes encoding path key
  decodeLayers f Z P F.maxDecompressedBytes inner

/-- Re-seal one stored payload under `new`, bound to `path`, whatever state it is in. -/
def reseal (nonce : Option Nonce) (content : List UInt8) (tag path : String) (old new : Key) :
    SealM Encoded := do
  let (base, sealing) := parseTag tag
  if !isKnownBase f base then
    SealM.ofExcept (.error (.unknownEncoding tag))
  else
    match boundTag f base with
    | none => SealM.ofExcept (.error (.unknownEncoding tag))
    | some newTag =>
      let plain ← SealM.ofExcept (match sealing with
        | .plain => .ok content
        | .unbound => decryptBytes A content old []
        | .bound => decryptBytes A content old (associatedData tag path))
      let sealed ← encryptBytes A nonce plain new (associatedData newTag path)
      return ⟨sealed, newTag⟩

end Payload

/-! ## What sealing calls -/

/-- An encryption that returned bytes made exactly one call, which it appended. -/
theorem encryptBytes_ok {A : Aead} {nonce : Option Nonce} {plain aad out : List UInt8} {key : Key}
    {calls calls' : List SealCall}
    (h : encryptBytes A nonce plain key aad calls = (.ok out, calls')) :
    ∃ n cipher, A.encrypt key n aad plain = some cipher ∧ out = n.bytes ++ cipher ∧
      calls' = calls ++ [⟨key, n, aad, plain, cipher⟩] := by
  unfold encryptBytes at h
  cases nonce with
  | none => exact absurd h (by simp)
  | some n =>
    cases hc : A.encrypt key n aad plain with
    | none =>
      simp only [hc] at h
      exact absurd h (by simp)
    | some cipher =>
      simp only [hc] at h
      obtain ⟨hout, hcalls⟩ := Prod.mk.inj h
      exact ⟨n, cipher, hc, (Except.ok.inj hout).symm, hcalls.symm⟩

/-- An encryption that returned no bytes made no call. -/
theorem encryptBytes_error {A : Aead} {nonce : Option Nonce} {plain aad : List UInt8} {key : Key}
    {calls calls' : List SealCall} {e : FormatError}
    (h : encryptBytes A nonce plain key aad calls = (.error e, calls')) : calls' = calls := by
  unfold encryptBytes at h
  cases nonce with
  | none => exact (Prod.mk.inj h).2.symm
  | some n =>
    cases hc : A.encrypt key n aad plain with
    | none =>
      simp only [hc] at h
      exact (Prod.mk.inj h).2.symm
    | some cipher =>
      simp only [hc] at h
      exact absurd h (by simp)

/-- A key opens bytes only by a call of `decrypt` on their first 12 as the nonce. -/
theorem decryptBytes_ok {A : Aead} {data aad plain : List UInt8} {key : Key}
    (h : decryptBytes A data key aad = .ok plain) :
    ∃ n : Nonce, ∃ cipher, data = n.bytes ++ cipher ∧ A.decrypt key n aad cipher = some plain := by
  unfold decryptBytes at h
  split_ifs at h with hlen
  split at h
  · next p hp =>
    obtain rfl := Except.ok.inj h
    exact ⟨_, data.drop 12, (List.take_append_drop 12 data).symm, hp⟩
  · exact absurd h (by simp)

/-- Bytes sealed and not changed since are opened. -/
theorem decryptBytes_append {A : Aead} {nonce : Nonce} {cipher aad plain : List UInt8} {key : Key}
    (h : A.decrypt key nonce aad cipher = some plain) :
    decryptBytes A (nonce.bytes ++ cipher) key aad = .ok plain := by
  obtain ⟨bytes, hlen⟩ := nonce
  have htake : (bytes ++ cipher).take 12 = bytes := by rw [← hlen, List.take_left]
  have hdrop : (bytes ++ cipher).drop 12 = cipher := by rw [← hlen, List.drop_left]
  unfold decryptBytes
  rw [dif_neg (by simp [hlen])]
  simp only [htake, hdrop, h]

end LocalCache
