import LocalCache.SealHistory

/-!
# The table of the decode gate

The documentation of `decode` gives the outcome for every tag, with a key and without one. `reseal`
refuses the same tags. `decodePayload` asks for the key before it looks at the base of a sealed tag,
so a sealed tag of an unknown base is `MissingEncryptionKey` without a key, where the table has
`UnknownEncoding`. Everything else is as documented (`followsTable_iff`).
-/

namespace LocalCache

/-! ## Tags -/

/-- The tag is the base with the suffix of its state, the longest that it ends with. -/
def ReadsTag (tag base : String) : SealState → Prop
  | .bound => tag = base ++ boundSuffix
  | .unbound => tag = base ++ legacySuffix
  | .plain => base = tag ∧ (∀ b, tag ≠ b ++ boundSuffix) ∧ ∀ b, tag ≠ b ++ legacySuffix

/-- The base tags of a build with all features. -/
def baseTags : List String := ["raw", "zstd", "json", "json-zstd"]

def Features.all : Features := ⟨true, true⟩

/-- No tag ends with both suffixes. -/
theorem append_boundSuffix_ne (b b' : String) : b ++ boundSuffix ≠ b' ++ legacySuffix := by
  intro h
  have hlast := congrArg (fun s => s.toList.getLast?) h
  simp only [String.toList_append] at hlast
  rw [show boundSuffix.toList = "-aes256gcm-boun".toList ++ ['d'] by decide,
    show legacySuffix.toList = "-aes256gc".toList ++ ['m'] by decide, ← List.append_assoc,
    ← List.append_assoc, List.getLast?_concat, List.getLast?_concat] at hlast
  exact absurd (Option.some.inj hlast) (by decide)

theorem parseTag_eq {tag base : String} {sealing : SealState} :
    parseTag tag = (base, sealing) ↔ ReadsTag tag base sealing := by
  cases hbound : stripSuffix tag boundSuffix with
  | some b =>
    have htag := stripSuffix_eq_some.mp hbound
    have hparse := parseTag_eq_bound.mpr htag
    rw [hparse]
    cases sealing with
    | plain => exact iff_of_false (by simp) fun h => h.2.1 b htag
    | unbound =>
      exact iff_of_false (by simp) fun h => append_boundSuffix_ne b base (htag.symm.trans h)
    | bound => exact hparse ▸ parseTag_eq_bound
  | none =>
    have hnotBound : ∀ b, tag ≠ b ++ boundSuffix := fun b h => by
      rw [stripSuffix_eq_some.mpr h] at hbound
      exact absurd hbound (by simp)
    rw [parseTag, hbound]
    cases hlegacy : stripSuffix tag legacySuffix with
    | some b =>
      have htag := stripSuffix_eq_some.mp hlegacy
      cases sealing with
      | plain => exact iff_of_false (by simp) fun h => h.2.2 b htag
      | unbound =>
        simp only [Prod.mk.injEq, and_true, ReadsTag]
        exact ⟨fun h => h ▸ htag, fun h => Option.some.inj
          (hlegacy.symm.trans (stripSuffix_eq_some.mpr h))⟩
      | bound => exact iff_of_false (by simp) (hnotBound base)
    | none =>
      have hnotLegacy : ∀ b, tag ≠ b ++ legacySuffix := fun b h => by
        rw [stripSuffix_eq_some.mpr h] at hlegacy
        exact absurd hlegacy (by simp)
      cases sealing with
      | plain =>
        simp only [Prod.mk.injEq, and_true]
        exact ⟨fun h => ⟨h.symm, hnotBound, hnotLegacy⟩, fun h => h.1.symm⟩
      | unbound => exact iff_of_false (by simp) (hnotLegacy base)
      | bound => exact iff_of_false (by simp) (hnotBound base)

theorem isKnownBase_all {base : String} : isKnownBase .all base = true ↔ base ∈ baseTags := by
  unfold isKnownBase baseTags Features.all
  split_ifs with h₁ h₂ h₃ h₄
  · simp [h₁]
  · simp [h₂]
  · simp [h₃]
  · simp [h₄]
  · simp [h₁, h₂, h₃, h₄]

/-! ## The table -/

section Table

variable (A : Aead) (Z : Zstd) (P : PayloadType) (F : PayloadFormat) (bytes : List UInt8)
  (tag path : String) (key : Option Key)

/-- The outcomes that the documentation of `decode` gives for a tag, and what `reseal` refuses. -/
structure FollowsTable : Prop where
  /-- A tag whose base is not known is unknown, whatever the key. -/
  unknown : ∀ base sealing, ReadsTag tag base sealing → base ∉ baseTags →
    ∃ t, decodePayload .all A Z P F bytes tag path key = .error (.unknownEncoding t)
  /-- With a key a plain or unbound payload is refused, whatever its bytes. -/
  unsealed : ∀ base sealing, ReadsTag tag base sealing → base ∈ baseTags → sealing ≠ .bound →
    key.isSome = true → decodePayload .all A Z P F bytes tag path key = .error .unsealedEntry
  /-- With a key a bound payload is opened under it, with the data of its tag and path. -/
  opened : ∀ base k, ReadsTag tag base .bound → base ∈ baseTags → key = some k →
    decodePayload .all A Z P F bytes tag path key =
      decryptBytes A bytes k (associatedData tag path) >>= fun plain =>
        decodeLayers .all Z P F.maxDecompressedBytes ⟨plain, base⟩
  /-- Without a key a sealed payload is refused. -/
  missing : ∀ base sealing, ReadsTag tag base sealing → base ∈ baseTags → sealing ≠ .plain →
    key = none → decodePayload .all A Z P F bytes tag path key = .error .missingEncryptionKey
  /-- Without a key a plain payload is decoded as it is. -/
  plain : ReadsTag tag tag .plain → tag ∈ baseTags → key = none →
    decodePayload .all A Z P F bytes tag path key =
      decodeLayers .all Z P F.maxDecompressedBytes ⟨bytes, tag⟩
  /-- `reseal` refuses a tag as unknown exactly when its base is. -/
  reseals : ∀ base sealing, ReadsTag tag base sealing → ∀ nonce old new,
    ((∃ t, (reseal .all A nonce bytes tag path old new).result = .error (.unknownEncoding t)) ↔
      base ∉ baseTags)
  /-- What `reseal` refuses as unknown, so does `decode`. -/
  refused : ∀ nonce old new t,
    (reseal .all A nonce bytes tag path old new).result = .error (.unknownEncoding t) →
      ∃ t', decodePayload .all A Z P F bytes tag path key = .error (.unknownEncoding t')

end Table

section Outcomes

variable {A : Aead} {Z : Zstd} {P : PayloadType} {F : PayloadFormat} {bytes : List UInt8}
  {tag base path : String} {key : Option Key} {sealing : SealState}

theorem not_known_of_notMem (h : base ∉ baseTags) : isKnownBase .all base = false := by
  rw [← Bool.not_eq_true, isKnownBase_all]
  exact h

theorem decodePayload_of_plain (h : ReadsTag tag base .plain) :
    decodePayload .all A Z P F bytes tag path key =
      if key.isSome && isKnownBase .all base then .error .unsealedEntry
      else decodeLayers .all Z P F.maxDecompressedBytes ⟨bytes, tag⟩ := by
  unfold decodePayload decodeGate
  rw [parseTag_eq.mpr h]
  dsimp only
  split_ifs <;> rfl

/-- The order of the tests on a sealed tag : the key, the base, the seal. -/
theorem decodePayload_of_sealed (h : ReadsTag tag base sealing) (hsealed : sealing ≠ .plain) :
    decodePayload .all A Z P F bytes tag path key =
      match key with
      | none => .error .missingEncryptionKey
      | some k =>
        if base ∉ baseTags then .error (.unknownEncoding base)
        else if sealing = .unbound then .error .unsealedEntry
        else decryptBytes A bytes k (associatedData tag path) >>= fun plain =>
          decodeLayers .all Z P F.maxDecompressedBytes ⟨plain, base⟩ := by
  have hgate : decodeGate .all A bytes tag path key =
      match key with
      | none => .error .missingEncryptionKey
      | some k =>
        if !isKnownBase .all base then .error (.unknownEncoding base)
        else if sealing = .unbound then .error .unsealedEntry
        else decryptBytes A bytes k (associatedData tag path) >>= fun plain =>
          .ok ⟨plain, base⟩ := by
    unfold decodeGate
    rw [parseTag_eq.mpr h]
    cases sealing with
    | plain => exact absurd rfl hsealed
    | unbound => rfl
    | bound => rfl
  rw [decodePayload, hgate]
  cases key with
  | none => rfl
  | some k =>
    dsimp only
    by_cases hbase : base ∈ baseTags
    · rw [isKnownBase_all.mpr hbase, if_neg (not_not.mpr hbase), if_neg (by decide)]
      split_ifs with hunbound
      · rfl
      · cases decryptBytes A bytes k (associatedData tag path) <;> rfl
    · rw [not_known_of_notMem hbase, if_pos hbase, if_pos (by decide)]
      rfl

theorem decryptBytes_ne_unknown {key : Key} {aad : List UInt8} {t : String} :
    decryptBytes A bytes key aad ≠ .error (.unknownEncoding t) := by
  unfold decryptBytes
  split_ifs
  · simp
  · split <;> simp

theorem encryptBytes_ne_unknown {nonce : Option Nonce} {plain aad : List UInt8} {key : Key}
    {t : String} : (encryptBytes A nonce plain key aad).result ≠ .error (.unknownEncoding t) := by
  unfold encryptBytes SealM.result
  cases nonce with
  | none => simp
  | some nonce => cases hcipher : A.encrypt key nonce aad plain <;> simp [hcipher]

theorem SealM.result_bind_pure {α β : Type} (x : SealM α) (g : α → β) :
    (x >>= fun a => pure (g a)).result = x.result.map g := by
  unfold SealM.result
  rcases hx : x [] with ⟨_ | a, calls⟩
  · rw [SealM.bind_of_error hx]
    rfl
  · rw [SealM.bind_of_ok hx]
    rfl

/-- `reseal` refuses the tags of unknown bases as unknown, and no others. -/
theorem reseal_unknown_iff (h : ReadsTag tag base sealing) {nonce : Option Nonce} {old new : Key} :
    (∃ t, (reseal .all A nonce bytes tag path old new).result = .error (.unknownEncoding t)) ↔
      base ∉ baseTags := by
  unfold reseal
  rw [parseTag_eq.mpr h]
  dsimp only
  by_cases hbase : base ∈ baseTags
  · have hknown := isKnownBase_all.mpr hbase
    refine iff_of_false ?_ (not_not.mpr hbase)
    rintro ⟨t, ht⟩
    rw [boundTag_eq, hknown, if_neg (by decide), if_pos rfl] at ht
    simp only [SealM.result_bind_ofExcept, SealM.result_bind_pure] at ht
    have hopen : ∀ plain : Except FormatError (List UInt8),
        (∀ t, plain ≠ .error (.unknownEncoding t)) →
          (plain >>= fun plain => (encryptBytes A nonce plain new
            (associatedData (base ++ boundSuffix) path)).result.map fun bytes =>
              (⟨bytes, base ++ boundSuffix⟩ : Encoded)) ≠ .error (.unknownEncoding t) := by
      intro plain hplain heq
      cases plain with
      | error err => exact hplain t (congrArg Except.error (Except.error.inj heq))
      | ok plain =>
        cases hsealed : (encryptBytes A nonce plain new
            (associatedData (base ++ boundSuffix) path)).result with
        | error err =>
          simp only [bind, Except.bind, hsealed] at heq
          exact encryptBytes_ne_unknown (hsealed.trans (congrArg _ (Except.error.inj heq)))
        | ok sealed =>
          simp only [bind, Except.bind, hsealed] at heq
          exact absurd heq (by simp [Except.map])
    refine hopen _ ?_ ht
    intro t
    cases sealing with
    | plain => simp
    | unbound => exact decryptBytes_ne_unknown
    | bound => exact decryptBytes_ne_unknown
  · refine iff_of_true ⟨tag, ?_⟩ hbase
    rw [not_known_of_notMem hbase, if_pos (by decide)]
    rfl

end Outcomes

/-- The outcomes are as documented unless a sealed tag of an unknown base is read without a key. -/
theorem followsTable_iff (A : Aead) (Z : Zstd) (P : PayloadType) (F : PayloadFormat)
    (bytes : List UInt8) (tag path : String) (key : Option Key) :
    FollowsTable A Z P F bytes tag path key ↔
      ¬(key = none ∧ ∃ base sealing, ReadsTag tag base sealing ∧ sealing ≠ .plain ∧
        base ∉ baseTags) := by
  obtain ⟨base, sealing, hread⟩ : ∃ base sealing, ReadsTag tag base sealing :=
    ⟨_, _, parseTag_eq.mp rfl⟩
  have hunique : ∀ {base' sealing'}, ReadsTag tag base' sealing' →
      base' = base ∧ sealing' = sealing := by
    intro base' sealing' h
    exact Prod.mk.inj ((parseTag_eq.mpr h).symm.trans (parseTag_eq.mpr hread))
  constructor
  · rintro h ⟨rfl, base', sealing', hread', hsealed, hbase⟩
    obtain ⟨t, ht⟩ := h.unknown base' sealing' hread' hbase
    rw [decodePayload_of_sealed hread' hsealed] at ht
    exact absurd ht (by simp)
  · intro hnot
    have hunknown : base ∉ baseTags →
        ∃ t, decodePayload .all A Z P F bytes tag path key = .error (.unknownEncoding t) := by
      intro hbase
      by_cases hsealed : sealing = .plain
      · rw [hsealed] at hread
        rw [decodePayload_of_plain hread, not_known_of_notMem hbase, Bool.and_false,
          if_neg Bool.false_ne_true]
        exact ⟨tag, decodeLayers_of_not_isKnownBase (hread.1 ▸ not_known_of_notMem hbase)⟩
      · cases key with
        | none => exact absurd ⟨rfl, base, sealing, hread, hsealed, hbase⟩ hnot
        | some k => exact ⟨base, by rw [decodePayload_of_sealed hread hsealed]; exact if_pos hbase⟩
    refine ⟨?_, ?_, ?_, ?_, ?_, ?_, ?_⟩
    · intro base' sealing' hread' hbase
      rw [(hunique hread').1] at hbase
      exact hunknown hbase
    · intro base' sealing' hread' hbase hstate hkey
      by_cases hsealed : sealing' = .plain
      · rw [hsealed] at hread'
        rw [decodePayload_of_plain hread', hkey, isKnownBase_all.mpr hbase]
        rfl
      · obtain ⟨k, rfl⟩ := Option.isSome_iff_exists.mp hkey
        have hunbound : sealing' = .unbound := by
          cases sealing' with
          | plain => exact absurd rfl hsealed
          | unbound => rfl
          | bound => exact absurd rfl hstate
        rw [decodePayload_of_sealed hread' hsealed]
        simp only [hbase, not_true_eq_false, if_false, hunbound, if_true]
    · rintro base' k hread' hbase rfl
      rw [decodePayload_of_sealed hread' (by decide)]
      simp only [hbase, not_true_eq_false, if_false, reduceCtorEq]
    · rintro base' sealing' hread' hbase hsealed rfl
      rw [decodePayload_of_sealed hread' hsealed]
    · rintro hread' hbase rfl
      rw [decodePayload_of_plain hread']
      rfl
    · exact fun base' sealing' hread' nonce old new => reseal_unknown_iff hread'
    · intro nonce old new t ht
      exact hunknown ((reseal_unknown_iff hread).mp ⟨t, ht⟩)

/-- A sealed tag of an unknown base is refused for the missing key, which no key repairs. -/
theorem unknownSealed_missesKey :
    decodePayload .all sampleAead sampleZstd sampleType sampleFormat [] "foo-aes256gcm-bound" "/a"
        none = .error .missingEncryptionKey ∧
      ¬FollowsTable sampleAead sampleZstd sampleType sampleFormat [] "foo-aes256gcm-bound" "/a"
        none := by
  have hmissing : decodePayload .all sampleAead sampleZstd sampleType sampleFormat []
      "foo-aes256gcm-bound" "/a" none = .error .missingEncryptionKey := by rfl
  refine ⟨hmissing, fun h => ?_⟩
  obtain ⟨t, ht⟩ := h.unknown "foo" .bound (by decide : _ = _) (by decide)
  exact absurd (hmissing.symm.trans ht) (by simp)

end LocalCache
