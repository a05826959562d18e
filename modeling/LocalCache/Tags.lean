import LocalCache.Bytes

/-!
# Encoding tags and associated data

A stored payload carries a tag : a base tag that names its layers, and a suffix that says
how it is sealed. `parseTag` splits them. The tags a build knows depend on its features.

The associated data of a bound payload joins a fixed prefix, the tag and the path with
NUL bytes. A path may hold anything, NUL included, so the join is injective only because
no tag this build writes holds a NUL (`associatedData_inj`).
-/

namespace LocalCache

/-- The cargo features that decide which tags a build can decode. -/
structure Features where
  compression : Bool
  json : Bool
  deriving DecidableEq, Repr

/-- How a stored payload is sealed, read from its encoding tag. -/
inductive SealState
  | plain
  | unbound
  | bound
  deriving DecidableEq, Repr

/-- The suffix of a payload sealed without binding. -/
def legacySuffix : String := "-aes256gcm"

/-- The suffix of a payload sealed bound to its path. -/
def boundSuffix : String := "-aes256gcm-bound"

/-- `tag` without `suffix`, if it ends with it. -/
def stripSuffix (tag suffix : String) : Option String :=
  if suffix.toList <:+ tag.toList then
    some (String.ofList (tag.toList.take (tag.toList.length - suffix.toList.length)))
  else none

/-- Split a stored tag into its base tag and how it is sealed. -/
def parseTag (tag : String) : String × SealState :=
  match stripSuffix tag boundSuffix with
  | some base => (base, .bound)
  | none =>
    match stripSuffix tag legacySuffix with
    | some base => (base, .unbound)
    | none => (tag, .plain)

def sealState (tag : String) : SealState := (parseTag tag).2

/-- Whether `base` is one of the base tags this build can decode. -/
def isKnownBase (f : Features) (base : String) : Bool :=
  if base = "raw" then true
  else if base = "zstd" then f.compression
  else if base = "json" then f.json
  else if base = "json-zstd" then f.json && f.compression
  else false

/-- The bound tag for a base tag, if the build has the layers it names. -/
def boundTag (f : Features) (base : String) : Option String :=
  if base = "raw" then some "raw-aes256gcm-bound"
  else if base = "zstd" then if f.compression then some "zstd-aes256gcm-bound" else none
  else if base = "json" then if f.json then some "json-aes256gcm-bound" else none
  else if base = "json-zstd" then
    if f.json && f.compression then some "json-zstd-aes256gcm-bound" else none
  else none

/-- The associated data of a bound payload. -/
def associatedData (tag path : String) : List UInt8 :=
  strBytes "localcache/seal/1" ++ 0 :: (strBytes tag ++ 0 :: strBytes path)

/-! ## Splitting a tag -/

theorem stripSuffix_eq_some {tag suffix base : String} :
    stripSuffix tag suffix = some base ↔ tag = base ++ suffix := by
  unfold stripSuffix
  constructor
  · intro h
    split_ifs at h with hs
    obtain ⟨pre, hpre⟩ := hs
    obtain rfl := Option.some.inj h
    rw [← String.toList_inj, String.toList_append, String.toList_ofList, ← hpre]
    simp
  · rintro rfl
    rw [if_pos (by simp)]
    simp

/-- A tag parses as bound exactly when it is a base tag followed by the bound suffix. -/
theorem parseTag_eq_bound {tag base : String} :
    parseTag tag = (base, .bound) ↔ tag = base ++ boundSuffix := by
  unfold parseTag
  cases h : stripSuffix tag boundSuffix with
  | some base' =>
    have htag := stripSuffix_eq_some.mp h
    simp only [Prod.mk.injEq, and_true]
    exact ⟨fun hb => hb ▸ htag, fun ht => (Option.some.inj
      ((stripSuffix_eq_some.mpr ht).symm.trans h)).symm⟩
  | none =>
    have hne : tag ≠ base ++ boundSuffix := fun ht => by
      rw [stripSuffix_eq_some.mpr ht] at h
      exact absurd h (by simp)
    simp only [hne, iff_false]
    cases stripSuffix tag legacySuffix <;> simp

/-- The bound tag of a base tag is the base tag with the bound suffix, and it exists
exactly for the base tags the build knows. -/
theorem boundTag_eq (f : Features) (base : String) :
    boundTag f base = if isKnownBase f base then some (base ++ boundSuffix) else none := by
  unfold boundTag isKnownBase
  split_ifs <;> subst_vars <;> first | rfl | simp_all

theorem boundTag_eq_some {f : Features} {base tag : String} :
    boundTag f base = some tag ↔ isKnownBase f base = true ∧ tag = base ++ boundSuffix := by
  rw [boundTag_eq]
  split_ifs with h
  · simp [h, eq_comm]
  · simp [h]

/-- The bound tag of a base is parsed back as that base, bound. -/
theorem parseTag_of_boundTag {f : Features} {base tag : String} (h : boundTag f base = some tag) :
    parseTag tag = (base, .bound) :=
  parseTag_eq_bound.mpr (boundTag_eq_some.mp h).2

/-- No tag this build seals under holds a NUL. -/
theorem nul_notMem_boundTag {f : Features} {base tag : String} (h : boundTag f base = some tag) :
    0 ∉ strBytes tag := by
  unfold boundTag at h
  split_ifs at h <;> obtain rfl := Option.some.inj h <;> decide

/-! ## The associated data is injective -/

/-- Two joins around a separator that neither first part holds have the same parts. -/
theorem append_cons_inj {α : Type*} {sep : α} : ∀ {as bs xs ys : List α}, sep ∉ as → sep ∉ bs →
    as ++ sep :: xs = bs ++ sep :: ys → as = bs ∧ xs = ys
  | [], [], _, _, _, _, h => ⟨rfl, (List.cons.inj h).2⟩
  | [], b :: bs, _, _, _, hb, h => by
    obtain rfl : sep = b := (List.cons.inj h).1
    exact absurd (List.mem_cons_self) hb
  | a :: as, [], _, _, ha, _, h => by
    obtain rfl : a = sep := (List.cons.inj h).1
    exact absurd (List.mem_cons_self) ha
  | a :: as, b :: bs, _, _, ha, hb, h => by
    rw [List.mem_cons, not_or] at ha hb
    rw [List.cons_append, List.cons_append, List.cons.injEq] at h
    obtain ⟨has, hxs⟩ := append_cons_inj ha.2 hb.2 h.2
    exact ⟨by rw [h.1, has], hxs⟩

/-- Tags without NUL : the associated data determines the tag and the path. -/
theorem associatedData_inj {tag tag' path path' : String} (h : 0 ∉ strBytes tag)
    (h' : 0 ∉ strBytes tag') (heq : associatedData tag path = associatedData tag' path') :
    tag = tag' ∧ path = path' := by
  obtain ⟨-, hrest⟩ := append_cons_inj (by decide) (by decide) heq
  obtain ⟨htag, hpath⟩ := append_cons_inj h h' hrest
  exact ⟨strBytes_injective htag, strBytes_injective hpath⟩

theorem associatedData_ne_nil (tag path : String) : associatedData tag path ≠ [] := by
  simp [associatedData]

end LocalCache
