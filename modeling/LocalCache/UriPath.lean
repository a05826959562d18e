import LocalCache.Bytes

/-!
# The URI of a shared read-only open

A database file that is shared is opened by a `file:` URI, with its path percent-encoded.
`parseUri` is what SQLite reads from a URI. A path that starts with two slashes is read as an
authority, which no encoding prevents : every other path is read back as it is, with the parameters
of a shared read-only open (`parseUri_sharedFileUri_iff`).
-/

namespace LocalCache

/-! ## The URI that is opened -/

/-- The characters with a meaning inside the path of a `file:` URI, and the space. -/
def uriEncodeChar (c : Char) : List Char :=
  if c = '%' then ['%', '2', '5']
  else if c = '#' then ['%', '2', '3']
  else if c = '?' then ['%', '3', 'F']
  else if c = ' ' then ['%', '2', '0']
  else [c]

def uriEncodePath (path : String) : String := String.ofList (path.toList.flatMap uriEncodeChar)

/-- The URI of `Location::SharedFile`. -/
def sharedFileUri (path : String) : String :=
  "file:" ++ uriEncodePath path ++ "?mode=ro&cache=shared"

/-! ## What SQLite reads from a URI -/

/-- The value of a hexadecimal digit. -/
def hexValue (b : UInt8) : Option UInt8 :=
  if 48 ≤ b ∧ b ≤ 57 then some (b - 48)
  else if 65 ≤ b ∧ b ≤ 70 then some (b - 55)
  else if 97 ≤ b ∧ b ≤ 102 then some (b - 87)
  else none

/-- Decode the escapes `%HH`. -/
def percentDecode : List UInt8 → List UInt8
  | 37 :: high :: low :: rest =>
    match hexValue high, hexValue low with
    | some h, some l => (16 * h + l) :: percentDecode rest
    | _, _ => 37 :: percentDecode (high :: low :: rest)
  | b :: rest => b :: percentDecode rest
  | [] => []

structure Uri where
  path : List UInt8
  params : List (List UInt8 × List UInt8)
  deriving DecidableEq

/-- What follows the scheme `file:`. -/
def stripScheme : List UInt8 → Option (List UInt8)
  | 102 :: 105 :: 108 :: 101 :: 58 :: rest => some rest
  | _ => none

/-- What follows the authority : two slashes start one, the next slash ends it, and it has to be
empty or `localhost`. -/
def stripAuthority : List UInt8 → Option (List UInt8)
  | 47 :: 47 :: rest =>
    let authority := rest.takeWhile (· ≠ 47)
    if authority = [] ∨ authority = strBytes "localhost" then some (rest.dropWhile (· ≠ 47)) else none
  | rest => some rest

/-- A parameter, split at its first `=`. -/
def parseParam (param : List UInt8) : List UInt8 × List UInt8 :=
  (percentDecode (param.takeWhile (· ≠ 61)), percentDecode ((param.dropWhile (· ≠ 61)).drop 1))

/-- The path runs to the first `?` or `#`, and the parameters from the `?` to the `#`. A parameter
without a name is ignored. -/
def parseBody (body : List UInt8) : Uri :=
  let body := body.takeWhile (· ≠ 35)
  let query := (body.dropWhile (· ≠ 63)).drop 1
  ⟨percentDecode (body.takeWhile (· ≠ 63)),
    ((query.splitOn 38).map parseParam).filter fun param => param.1 ≠ []⟩

def parseUri (uri : List UInt8) : Option Uri := do
  return parseBody (← stripAuthority (← stripScheme uri))

/-! ## The encoding, byte by byte -/

/-- `uriEncodeChar` on the bytes of a text. -/
def uriEncodeByte (b : UInt8) : List UInt8 :=
  if b = 37 then [37, 50, 53]
  else if b = 35 then [37, 50, 51]
  else if b = 63 then [37, 51, 70]
  else if b = 32 then [37, 50, 48]
  else [b]

theorem uriEncodeByte_of_le {b : UInt8} (h : 128 ≤ b.toNat) : uriEncodeByte b = [b] := by
  have hne : ∀ c : UInt8, c.toNat < 128 → b ≠ c := by
    rintro c hc rfl
    omega
  rw [uriEncodeByte, if_neg (hne 37 (by decide)), if_neg (hne 35 (by decide)),
    if_neg (hne 63 (by decide)), if_neg (hne 32 (by decide))]

theorem flatMap_uriEncodeByte_of_le : ∀ {bs : List UInt8}, (∀ b ∈ bs, 128 ≤ b.toNat) →
    bs.flatMap uriEncodeByte = bs
  | [], _ => rfl
  | b :: bs, h => by
    rw [List.flatMap_cons, uriEncodeByte_of_le (h b List.mem_cons_self),
      flatMap_uriEncodeByte_of_le fun b' hb' => h b' (List.mem_cons_of_mem b hb'), List.singleton_append]

theorem flatMap_uriEncodeByte_utf8EncodeChar (c : Char) :
    (String.utf8EncodeChar c).flatMap uriEncodeByte =
      (uriEncodeChar c).flatMap String.utf8EncodeChar := by
  unfold uriEncodeChar
  split_ifs with h₁ h₂ h₃ h₄
  · rw [h₁]
    decide
  · rw [h₂]
    decide
  · rw [h₃]
    decide
  · rw [h₄]
    decide
  rw [List.flatMap_singleton]
  rcases utf8EncodeChar_cases c with ⟨hlt, hbytes⟩ | ⟨-, hbytes⟩
  · have hne : ∀ (d : Char) (b : UInt8), b.toNat = d.toNat → c ≠ d → UInt8.ofNat c.toNat ≠ b := by
      rintro d b hb hcd rfl
      rw [UInt8.toNat_ofNat'] at hb
      exact hcd (Char.toNat_inj.mp (by omega))
    rw [hbytes, List.flatMap_singleton, uriEncodeByte, if_neg (hne '%' 37 rfl h₁),
      if_neg (hne '#' 35 rfl h₂), if_neg (hne '?' 63 rfl h₃), if_neg (hne ' ' 32 rfl h₄)]
  · exact flatMap_uriEncodeByte_of_le hbytes

theorem strBytes_uriEncodePath (path : String) :
    strBytes (uriEncodePath path) = (strBytes path).flatMap uriEncodeByte := by
  simp only [strBytes, uriEncodePath, String.toList_ofList, List.flatMap_assoc,
    flatMap_uriEncodeByte_utf8EncodeChar]

/-- The bytes of an encoded byte are those of an escape, or it is kept. -/
theorem mem_uriEncodeByte {b c : UInt8} (hc : c ∈ uriEncodeByte b) :
    c ∈ ([37, 48, 50, 51, 53, 70] : List UInt8) ∨ c = b ∧ b ≠ 35 ∧ b ≠ 63 := by
  unfold uriEncodeByte at hc
  have hescape : ∀ escape : List UInt8, escape ⊆ [37, 48, 50, 51, 53, 70] → c ∈ escape →
      c ∈ ([37, 48, 50, 51, 53, 70] : List UInt8) ∨ c = b ∧ b ≠ 35 ∧ b ≠ 63 :=
    fun _ hsubset hmem => .inl (hsubset hmem)
  split_ifs at hc with h₁ h₂ h₃ h₄
  · exact hescape _ (by simp) hc
  · exact hescape _ (by simp) hc
  · exact hescape _ (by simp) hc
  · exact hescape _ (by simp) hc
  · exact .inr ⟨List.mem_singleton.mp hc, h₂, h₃⟩

theorem notMem_uriEncodeByte {b c : UInt8} (hc : c ∈ uriEncodeByte b) : c ≠ 35 ∧ c ≠ 63 := by
  rcases mem_uriEncodeByte hc with hescape | ⟨rfl, hkept⟩
  · refine ⟨?_, ?_⟩ <;> rintro rfl <;> simp at hescape
  · exact hkept

theorem percentDecode_cons_of_ne {b : UInt8} (h : b ≠ 37) (bs : List UInt8) :
    percentDecode (b :: bs) = b :: percentDecode bs := by
  rw [percentDecode]
  rintro high low rest rfl
  exact absurd rfl h

theorem percentDecode_uriEncodeByte (b : UInt8) (bs : List UInt8) :
    percentDecode (uriEncodeByte b ++ bs) = b :: percentDecode bs := by
  unfold uriEncodeByte
  split_ifs with h₁ h₂ h₃ h₄
  · rw [h₁]
    rfl
  · rw [h₂]
    rfl
  · rw [h₃]
    rfl
  · rw [h₄]
    rfl
  · exact percentDecode_cons_of_ne h₁ bs

/-- Every byte string is read back from its encoding. -/
theorem percentDecode_flatMap : ∀ bs : List UInt8, percentDecode (bs.flatMap uriEncodeByte) = bs
  | [] => rfl
  | b :: bs => by rw [List.flatMap_cons, percentDecode_uriEncodeByte, percentDecode_flatMap bs]

/-! ## What SQLite reads back -/

/-- The parameters of a shared read-only open. -/
def sharedParams : List (List UInt8 × List UInt8) :=
  [(strBytes "mode", strBytes "ro"), (strBytes "cache", strBytes "shared")]

def sharedQuery : List UInt8 := strBytes "?mode=ro&cache=shared"

theorem parseBody_encoded (bs : List UInt8) :
    parseBody (bs.flatMap uriEncodeByte ++ sharedQuery) = ⟨bs, sharedParams⟩ := by
  have hencoded : ∀ c ∈ bs.flatMap uriEncodeByte, c ≠ 35 ∧ c ≠ 63 := by
    intro c hc
    obtain ⟨b, -, hb⟩ := List.mem_flatMap.mp hc
    exact notMem_uriEncodeByte hb
  have hfragment : (bs.flatMap uriEncodeByte ++ sharedQuery).takeWhile (· ≠ 35) =
      bs.flatMap uriEncodeByte ++ sharedQuery := by
    rw [List.takeWhile_append_of_pos fun c hc => by simpa using (hencoded c hc).1]
    rfl
  have hpath : (bs.flatMap uriEncodeByte ++ sharedQuery).takeWhile (· ≠ 63) =
      bs.flatMap uriEncodeByte := by
    rw [List.takeWhile_append_of_pos fun c hc => by simpa using (hencoded c hc).2]
    exact List.append_nil _
  have hquery : (bs.flatMap uriEncodeByte ++ sharedQuery).dropWhile (· ≠ 63) = sharedQuery := by
    rw [List.dropWhile_append_of_pos fun c hc => by simpa using (hencoded c hc).2]
    rfl
  rw [parseBody, hfragment, hpath, hquery, percentDecode_flatMap]
  rfl

/-- What a body after an authority starts with : a shorter path, or nothing. -/
theorem dropWhile_encoded : ∀ bs : List UInt8,
    (∃ rest : List UInt8, rest.length ≤ bs.length ∧
      (bs.flatMap uriEncodeByte ++ sharedQuery).dropWhile (· ≠ 47) =
        rest.flatMap uriEncodeByte ++ sharedQuery) ∨
      (bs.flatMap uriEncodeByte ++ sharedQuery).dropWhile (· ≠ 47) = []
  | [] => .inr rfl
  | b :: bs => by
    by_cases hb : b = 47
    · exact .inl ⟨b :: bs, le_rfl, by rw [hb]; rfl⟩
    have hslash : ∀ c ∈ uriEncodeByte b, c ≠ 47 := by
      intro c hc
      rcases mem_uriEncodeByte hc with hescape | ⟨rfl, -⟩
      · rintro rfl
        simp at hescape
      · exact hb
    rw [List.flatMap_cons, List.append_assoc,
      List.dropWhile_append_of_pos fun c hc => by simpa using hslash c hc]
    rcases dropWhile_encoded bs with ⟨rest, hle, heq⟩ | hnil
    · exact .inl ⟨rest, by rw [List.length_cons]; omega, heq⟩
    · exact .inr hnil

theorem eq_slash_of_cons {b : UInt8} {bs cs : List UInt8} (h : uriEncodeByte b ++ bs = 47 :: cs) :
    b = 47 ∧ bs = cs := by
  unfold uriEncodeByte at h
  split_ifs at h
  · exact absurd (List.cons.inj h).1 (by decide)
  · exact absurd (List.cons.inj h).1 (by decide)
  · exact absurd (List.cons.inj h).1 (by decide)
  · exact absurd (List.cons.inj h).1 (by decide)
  · exact List.cons.inj h

/-- Without two slashes the rest of the URI is the body. -/
theorem stripAuthority_of_not_isPrefix {bs : List UInt8} (h : ¬[47, 47] <+: bs) :
    stripAuthority (bs.flatMap uriEncodeByte ++ sharedQuery) =
      some (bs.flatMap uriEncodeByte ++ sharedQuery) := by
  unfold stripAuthority
  split
  · next rest heq =>
    refine absurd ?_ h
    cases bs with
    | nil => exact absurd (List.cons.inj heq).1 (by decide)
    | cons b bs =>
      rw [List.flatMap_cons, List.append_assoc] at heq
      obtain ⟨hb, htail⟩ := eq_slash_of_cons heq
      cases bs with
      | nil => exact absurd (List.cons.inj htail).1 (by decide)
      | cons c cs =>
        rw [List.flatMap_cons, List.append_assoc] at htail
        obtain ⟨hc, -⟩ := eq_slash_of_cons htail
        exact ⟨cs, by rw [hb, hc]; rfl⟩
  · rfl

theorem parseUri_sharedFileUri (path : String) :
    parseUri (strBytes (sharedFileUri path)) =
      (stripAuthority ((strBytes path).flatMap uriEncodeByte ++ sharedQuery)).map parseBody := by
  have hbytes : strBytes (sharedFileUri path) =
      strBytes "file:" ++ ((strBytes path).flatMap uriEncodeByte ++ sharedQuery) := by
    rw [sharedFileUri, strBytes_append, strBytes_append, strBytes_uriEncodePath, List.append_assoc]
    rfl
  have hscheme : ∀ rest, stripScheme (strBytes "file:" ++ rest) = some rest := fun _ => rfl
  rw [hbytes, parseUri, hscheme, Option.bind_eq_bind, Option.bind_some]
  cases stripAuthority ((strBytes path).flatMap uriEncodeByte ++ sharedQuery) <;> rfl

/-- Two slashes and what SQLite takes for the authority are not read back. -/
theorem path_ne_of_isPrefix {bs : List UInt8} {uri : Uri} (h : [47, 47] <+: bs)
    (huri : (stripAuthority (bs.flatMap uriEncodeByte ++ sharedQuery)).map parseBody = some uri) :
    uri.path ≠ bs := by
  obtain ⟨rest, rfl⟩ := h
  obtain ⟨body, hbody, rfl⟩ := Option.map_eq_some_iff.mp huri
  have hslashes : ([47, 47] ++ rest).flatMap uriEncodeByte ++ sharedQuery =
      47 :: 47 :: (rest.flatMap uriEncodeByte ++ sharedQuery) := rfl
  rw [hslashes, stripAuthority] at hbody
  split_ifs at hbody
  obtain rfl := Option.some.inj hbody
  rcases dropWhile_encoded rest with ⟨shorter, hle, heq⟩ | hnil
  · rw [heq, parseBody_encoded]
    rintro rfl
    simp only [List.length_append, List.length_cons, List.length_nil] at hle
    omega
  · rw [hnil]
    exact (List.cons_ne_nil 47 (47 :: rest)).symm

/-- The URI is accepted and names exactly the path, with exactly the parameters of a shared read-only
open, unless the path starts with two slashes. -/
theorem parseUri_sharedFileUri_iff (path : String) :
    parseUri (strBytes (sharedFileUri path)) = some ⟨strBytes path, sharedParams⟩ ↔
      ¬['/', '/'] <+: path.toList := by
  have hslashes : [47, 47] <+: strBytes path ↔ ['/', '/'] <+: path.toList :=
    strBytes_isPrefix_iff (s := "//")
  rw [parseUri_sharedFileUri, ← hslashes]
  constructor
  · exact fun h hprefix => path_ne_of_isPrefix hprefix h rfl
  · intro h
    rw [stripAuthority_of_not_isPrefix h, Option.map_some, parseBody_encoded]

/-- `//tmp/cache` is taken for an authority that is not local, and refused. -/
theorem doubleSlash_refused :
    parseUri (strBytes (sharedFileUri "//tmp/cache")) = none ∧
      parseUri (strBytes (sharedFileUri "//tmp/cache")) ≠
        some ⟨strBytes "//tmp/cache", sharedParams⟩ := by
  decide +kernel

example : parseUri (strBytes (sharedFileUri "/a b%?#é")) =
    some ⟨strBytes "/a b%?#é", sharedParams⟩ := by
  decide +kernel

end LocalCache
