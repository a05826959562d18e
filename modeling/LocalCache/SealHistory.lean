import LocalCache.Format

/-!
# What an opened payload was sealed for

A history is a list of seals : `encode` and `reseal` calls under any keys, tags and paths,
and seals without associated data, as earlier releases made them. `History.calls` is every
call of `encrypt` it made. `Ideal` is the assumption on the AEAD : a decryption succeeds
only on what one of those calls produced, with the same key, nonce and associated data.

`Seal.Sealed` says what one seal sealed for which key, path and tag. A payload that passes
the gate with a key was sealed under that key for exactly its path and tag
(`sealed_of_decodeGate`), because the associated data of bound seals is injective and that
of the others is empty.
-/

namespace LocalCache

variable (f : Features) (A : Aead) (Z : Zstd) (P : PayloadType)

/-- One seal : an `encode`, a `reseal`, or a seal of an earlier release, which gave the
AEAD no associated data. -/
inductive Seal
  | encode (format : PayloadFormat) (nonce : Option Nonce) (payload : Value) (path : String)
      (key : Option Key)
  | reseal (nonce : Option Nonce) (content : List UInt8) (tag path : String) (old new : Key)
  | legacy (nonce : Option Nonce) (base : String) (plain : List UInt8) (key : Key)

namespace Seal

/-- The path a seal is given. -/
def path? : Seal → Option String
  | .encode _ _ _ path _ => some path
  | .reseal _ _ _ path _ _ => some path
  | .legacy _ _ _ _ => none

def run : Seal → SealM Encoded
  | .encode format nonce payload path key => encodePayload f A Z P format nonce payload path key
  | .reseal nonce content tag path old new => LocalCache.reseal f A nonce content tag path old new
  | .legacy nonce base plain key => do
    let bytes ← encryptBytes A nonce plain key []
    return ⟨bytes, base ++ legacySuffix⟩

/-- The calls of `encrypt` one seal makes. -/
def calls (s : Seal) : List SealCall := (s.run f A Z P []).2

/-- The seal sealed `plain` under `key` for `path` and `tag`. -/
def Sealed (s : Seal) (key : Key) (path tag : String) (plain : List UInt8) : Prop :=
  s.path? = some path ∧ ∃ bytes nonce aad cipher,
    s.run f A Z P [] = (.ok ⟨bytes, tag⟩, [⟨key, nonce, aad, plain, cipher⟩])

end Seal

/-- Every call of `encrypt` in a history of seals. -/
def History.calls (history : List Seal) : List SealCall :=
  history.flatMap (Seal.calls f A Z P)

/-- The AEAD opens only what an earlier call sealed, with the same key, nonce and
associated data. -/
def Ideal (calls : List SealCall) : Prop :=
  ∀ key nonce aad cipher plain, A.decrypt key nonce aad cipher = some plain →
    ⟨key, nonce, aad, plain, cipher⟩ ∈ calls

/-! ## What one seal calls -/

/-- A seal of `path` that encrypts makes one call, and only when it returns bytes. A call
with associated data is for the seal's path and the bound tag it returns. -/
def CallsFor (path : Option String) (x : SealM Encoded) : Prop :=
  ∀ call ∈ (x []).2, call.aad ≠ [] → ∃ p out base, path = some p ∧ x [] = (.ok out, [call]) ∧
    boundTag f base = some out.tag ∧ call.aad = associatedData out.tag p

variable {f A Z P}

/-- A step that seals nothing, before one that does. -/
theorem CallsFor.bind {α : Type} {path : Option String} {y : Except FormatError α}
    {g : α → SealM Encoded} (h : ∀ a, CallsFor f path (g a)) :
    CallsFor f path (SealM.ofExcept y >>= g) := by
  cases y with
  | ok a => exact h a
  | error e => exact fun call (hcall : call ∈ []) => absurd hcall List.not_mem_nil

theorem callsFor_error {path : Option String} {e : FormatError} :
    CallsFor f path (SealM.ofExcept (.error e)) :=
  fun call hcall => absurd hcall (by simp [SealM.ofExcept])

/-- The step that `encode` and `reseal` end with. -/
theorem callsFor_encryptBytes {nonce : Option Nonce} {plain : List UInt8} {key : Key}
    {base tag path : String} (htag : boundTag f base = some tag) :
    CallsFor f (some path) (do
      let bytes ← encryptBytes A nonce plain key (associatedData tag path)
      return ⟨bytes, tag⟩) := by
  intro call hcall _
  rcases h : encryptBytes A nonce plain key (associatedData tag path) [] with ⟨result, calls⟩
  cases result with
  | error e =>
    rw [SealM.bind_of_error h, encryptBytes_error h] at hcall
    exact absurd hcall (by simp)
  | ok bytes =>
    rw [SealM.bind_of_ok h] at hcall ⊢
    obtain ⟨n, cipher, -, rfl, rfl⟩ := encryptBytes_ok h
    obtain rfl : call = _ := List.mem_singleton.mp hcall
    exact ⟨path, _, base, rfl, rfl, htag, rfl⟩

theorem Seal.callsFor_run (s : Seal) : CallsFor f s.path? (s.run f A Z P) := by
  cases s with
  | encode format nonce payload path key =>
    refine CallsFor.bind fun layers => ?_
    cases key with
    | none => exact fun call hcall => absurd hcall (by simp [pure])
    | some key =>
      cases htag : boundTag f layers.tag with
      | none => exact callsFor_error
      | some tag => exact callsFor_encryptBytes htag
  | reseal nonce content tag path old new =>
    simp only [Seal.run, LocalCache.reseal]
    split_ifs with hbase
    · exact callsFor_error
    · cases htag : boundTag f (parseTag tag).1 with
      | none => exact callsFor_error
      | some newTag => exact CallsFor.bind fun plain => callsFor_encryptBytes htag
  | legacy nonce base plain key =>
    intro call hcall haad
    rcases h : encryptBytes A nonce plain key [] [] with ⟨result, calls⟩
    cases result with
    | error e =>
      rw [Seal.run, SealM.bind_of_error h, encryptBytes_error h] at hcall
      exact absurd hcall (by simp)
    | ok bytes =>
      rw [Seal.run, SealM.bind_of_ok h] at hcall
      obtain ⟨n, cipher, -, rfl, rfl⟩ := encryptBytes_ok h
      obtain rfl : call = _ := List.mem_singleton.mp hcall
      exact absurd rfl haad

/-- A call of a history on the associated data of a path and a bound tag sealed its
plaintext for that path and tag. -/
theorem sealed_of_mem_calls {history : List Seal} {call : SealCall} {base tag path : String}
    (hcall : call ∈ History.calls f A Z P history) (htag : boundTag f base = some tag)
    (haad : call.aad = associatedData tag path) :
    ∃ s ∈ history, s.Sealed f A Z P call.key path tag call.plain := by
  obtain ⟨s, hs, hcall⟩ := List.mem_flatMap.mp hcall
  obtain ⟨p, out, base', hp, hrun, htag', haad'⟩ :=
    s.callsFor_run call hcall (haad ▸ associatedData_ne_nil tag path)
  obtain ⟨rfl, rfl⟩ := associatedData_inj (nul_notMem_boundTag htag') (nul_notMem_boundTag htag)
    (haad'.symm.trans haad)
  exact ⟨s, hs, hp, out.bytes, call.nonce, call.aad, call.cipher, hrun⟩

/-! ## What the gate lets through -/

/-- Bytes that a key lets through to a known layer were decrypted with the associated data
of their path and tag, a bound tag. -/
theorem decodeGate_ok {bytes : List UInt8} {tag path : String} {key : Key} {inner : Encoded}
    (h : decodeGate f A bytes tag path (some key) = .ok inner)
    (hbase : isKnownBase f inner.tag = true) :
    boundTag f inner.tag = some tag ∧
      decryptBytes A bytes key (associatedData tag path) = .ok inner.bytes := by
  unfold decodeGate at h
  rcases hp : parseTag tag with ⟨base, sealing⟩
  rw [hp] at h
  cases sealing with
  | plain =>
    have hplain : base = tag := by
      unfold parseTag at hp
      cases h₁ : stripSuffix tag boundSuffix <;> cases h₂ : stripSuffix tag legacySuffix <;>
        simp_all
    subst hplain
    simp only [Option.isSome_some, Bool.true_and] at h
    split_ifs at h with hknown
    obtain rfl := Except.ok.inj h
    exact absurd hbase hknown
  | unbound =>
    simp only at h
    split_ifs at h
  | bound =>
    simp only at h
    split_ifs at h with hknown
    cases hd : decryptBytes A bytes key (associatedData tag path) with
    | error e =>
      rw [hd] at h
      exact absurd h (by simp [bind, Except.bind])
    | ok plain =>
      rw [hd] at h
      obtain rfl := Except.ok.inj h
      exact ⟨boundTag_eq_some.mpr ⟨hbase, parseTag_eq_bound.mp hp⟩, rfl⟩

/-- Bytes under a base tag the build does not know reach no decompression and no
deserialization. -/
theorem decodeLayers_of_not_isKnownBase {limit : ℕ} {inner : Encoded}
    (h : isKnownBase f inner.tag = false) :
    decodeLayers f Z P limit inner = .error (.unknownEncoding inner.tag) := by
  unfold isKnownBase at h
  unfold decodeLayers
  split_ifs at h ⊢ <;> simp_all

theorem isKnownBase_of_decodeLayers {limit : ℕ} {inner : Encoded} {payload : Value}
    (h : decodeLayers f Z P limit inner = .ok payload) : isKnownBase f inner.tag = true := by
  by_contra hbase
  rw [decodeLayers_of_not_isKnownBase (by simpa using hbase)] at h
  exact absurd h (by simp)

/-! ## No relocation, retagging or downgrade -/

/-- With a key, whatever bytes and tag are stored for a path : what passes the gate to
decompression and deserialization has a bound tag, and was sealed under that key for
exactly that path and tag. A payload decoded with a key is never from a plain or unbound
row. -/
theorem sealed_of_decodeGate {history : List Seal} (hideal : Ideal A (History.calls f A Z P history))
    (key : Key) (bytes : List UInt8) (tag path : String) :
    (∀ inner, decodeGate f A bytes tag path (some key) = .ok inner →
      isKnownBase f inner.tag = true → boundTag f inner.tag = some tag ∧
        ∃ s ∈ history, s.Sealed f A Z P key path tag inner.bytes) ∧
      ∀ format payload, decodePayload f A Z P format bytes tag path (some key) = .ok payload →
        sealState tag = .bound := by
  constructor
  · intro inner hgate hbase
    obtain ⟨htag, hopen⟩ := decodeGate_ok hgate hbase
    obtain ⟨n, cipher, -, hdecrypt⟩ := decryptBytes_ok hopen
    exact ⟨htag, sealed_of_mem_calls (hideal key n _ cipher _ hdecrypt) htag rfl⟩
  · intro format payload h
    unfold decodePayload at h
    cases hgate : decodeGate f A bytes tag path (some key) with
    | error e =>
      rw [hgate] at h
      exact absurd h (by simp [bind, Except.bind])
    | ok inner =>
      rw [hgate] at h
      have htag := (decodeGate_ok hgate (isKnownBase_of_decodeLayers h)).1
      rw [sealState, parseTag_of_boundTag htag]

section Witness

/-- A key for the runs on fixed inputs. -/
def sampleKey : Key := ⟨List.replicate 32 7, by decide⟩

def sampleNonce : Nonce := ⟨List.replicate 12 9, by decide⟩

/-- An AEAD for one call : it adds one to each byte and opens only that call's output. -/
def sampleAead : Aead where
  encrypt _ _ _ plain := some (plain.map (· + 1))
  decrypt key nonce aad cipher :=
    if key = sampleKey ∧ nonce = sampleNonce ∧ aad = associatedData "raw-aes256gcm-bound" "/a" ∧
        cipher = [2] then some [1]
    else none

def sampleType : PayloadType where
  ι := Unit
  schema _ := .bool
  name := ()
  jsonToVec _ := .error "no json"
  jsonFromSlice _ := .error "no json"

def sampleZstd : Zstd where
  encodeAll := .ok
  getFrameContentSize _ := none
  decoder data := .ok [.ok data]

def sampleFormat : PayloadFormat := ⟨.bincode, false, 64⟩

/-- One `bool`, sealed for `/a`. -/
def sampleHistory : List Seal := [.encode sampleFormat sampleNonce (.bool true) "/a" sampleKey]

/-- The sealed `bool`, read at its path, was sealed for that path and tag. -/
theorem sealed_of_decodeGate_sample : ∃ s ∈ sampleHistory,
    s.Sealed ⟨true, true⟩ sampleAead sampleZstd sampleType sampleKey "/a" "raw-aes256gcm-bound"
      [1] := by
  have hcalls : History.calls ⟨true, true⟩ sampleAead sampleZstd sampleType sampleHistory =
      [⟨sampleKey, sampleNonce, associatedData "raw-aes256gcm-bound" "/a", [1], [2]⟩] := by rfl
  have hideal : Ideal sampleAead
      (History.calls ⟨true, true⟩ sampleAead sampleZstd sampleType sampleHistory) := by
    intro key nonce aad cipher plain h
    simp only [sampleAead, Option.ite_none_right_eq_some, Option.some.injEq] at h
    obtain ⟨⟨rfl, rfl, rfl, rfl⟩, rfl⟩ := h
    simp [hcalls]
  exact ((sealed_of_decodeGate hideal sampleKey (sampleNonce.bytes ++ [2]) "raw-aes256gcm-bound"
    "/a").1 ⟨[1], "raw"⟩ (by rfl) (by decide)).2

end Witness

end LocalCache
