import Mathlib.Tactic.Common
import Mathlib.Algebra.Order.Ring.Nat

/-!
# Little-endian bytes and UTF-8 text

Byte strings are lists of `UInt8`. A natural number is written in a fixed number of
bytes, least significant first (`leBytes`), and read back by `ofLe`. On numbers that
fit the two are inverse (`ofLe_leBytes`), and every byte list is the writing of the
number it reads as (`leBytes_ofLe`), so a fixed-width field has one representation.

Text is Lean's `String`, whose UTF-8 bytes are `strBytes`. `fromUtf8` validates and
reads, `strBytes` writes, and each undoes the other (`fromUtf8_strBytes`,
`strBytes_of_fromUtf8`).
-/

namespace LocalCache

/-! ## Numbers of a fixed width -/

/-- The low `n` bytes of `v`, least significant first. -/
def leBytes : ℕ → ℕ → List UInt8
  | 0, _ => []
  | n + 1, v => UInt8.ofNat v :: leBytes n (v / 256)

/-- The number whose little-endian bytes are the list. -/
def ofLe : List UInt8 → ℕ
  | [] => 0
  | b :: bs => b.toNat + 256 * ofLe bs

@[simp] theorem length_leBytes : ∀ n v, (leBytes n v).length = n
  | 0, _ => rfl
  | n + 1, v => by simp [leBytes, length_leBytes n]

theorem ofLe_lt : ∀ bs : List UInt8, ofLe bs < 256 ^ bs.length
  | [] => by simp [ofLe]
  | b :: bs => by
    have ih := ofLe_lt bs
    have hb : b.toNat < 256 := b.toNat_lt
    rw [ofLe, List.length_cons, pow_succ]
    omega

/-- A number that fits its width is read back. -/
theorem ofLe_leBytes : ∀ {n v}, v < 256 ^ n → ofLe (leBytes n v) = v
  | 0, v, h => by
    rw [pow_zero, Nat.lt_one_iff] at h
    exact h.symm
  | n + 1, v, h => by
    have hv : v / 256 < 256 ^ n := by
      rw [pow_succ] at h
      exact Nat.div_lt_of_lt_mul (by omega)
    rw [leBytes, ofLe, ofLe_leBytes hv]
    simp only [UInt8.toNat_ofNat']
    omega

/-- Every byte list is the writing of the number it reads as. -/
theorem leBytes_ofLe : ∀ bs : List UInt8, leBytes bs.length (ofLe bs) = bs
  | [] => rfl
  | b :: bs => by
    have hb : b.toNat < 256 := b.toNat_lt
    have hlow : UInt8.ofNat (b.toNat + 256 * ofLe bs) = b := by
      apply UInt8.toNat_inj.mp
      rw [UInt8.toNat_ofNat']
      omega
    have hhigh : (b.toNat + 256 * ofLe bs) / 256 = ofLe bs := by omega
    rw [ofLe, List.length_cons, leBytes, hlow, hhigh, leBytes_ofLe bs]

/-- A byte list of the width's length, read and written again. -/
theorem leBytes_ofLe_of_length {n : ℕ} {bs : List UInt8} (h : bs.length = n) :
    leBytes n (ofLe bs) = bs := by
  subst h
  exact leBytes_ofLe bs

/-! ## Text -/

/-- The UTF-8 bytes of a text. -/
def strBytes (s : String) : List UInt8 :=
  s.toList.flatMap String.utf8EncodeChar

/-- Validate bytes as UTF-8 and read the text they encode. -/
def fromUtf8 (bs : List UInt8) : Option String :=
  String.fromUTF8? bs.toByteArray

theorem toByteArray_strBytes (s : String) : (strBytes s).toByteArray = s.toByteArray := by
  conv_rhs => rw [← String.ofList_toList (s := s), String.toByteArray_ofList]
  rfl

/-- The bytes of a text are read back as that text. -/
@[simp] theorem fromUtf8_strBytes (s : String) : fromUtf8 (strBytes s) = some s := by
  have hv : (strBytes s).toByteArray.IsValidUTF8 := toByteArray_strBytes s ▸ s.isValidUTF8
  rw [fromUtf8, String.fromUTF8?, dif_pos hv, Option.some.injEq, ← String.toByteArray_inj]
  exact toByteArray_strBytes s

/-- Bytes that validate are the bytes of the text they read as. -/
theorem strBytes_of_fromUtf8 {bs : List UInt8} {s : String} (h : fromUtf8 bs = some s) :
    strBytes s = bs := by
  unfold fromUtf8 String.fromUTF8? at h
  split_ifs at h with hv
  obtain rfl := Option.some.inj h
  exact List.toByteArray_inj.mp (toByteArray_strBytes _)

theorem strBytes_injective : Function.Injective strBytes := fun s t h => by
  have := congrArg fromUtf8 h
  simpa using this

theorem strBytes_eq_cons {s : String} {c : Char} {cs : List Char} (h : s.toList = c :: cs) :
    strBytes s = String.utf8EncodeChar c ++ strBytes (String.ofList cs) := by
  simp [strBytes, h]

theorem strBytes_singleton (c : Char) :
    strBytes (String.singleton c) = String.utf8EncodeChar c := by
  simp [strBytes]

/-- An encoded character is one ASCII byte, or no ASCII byte at all. -/
theorem utf8EncodeChar_cases (c : Char) :
    c.toNat < 128 ∧ String.utf8EncodeChar c = [UInt8.ofNat c.toNat] ∨
      128 ≤ c.toNat ∧ ∀ b ∈ String.utf8EncodeChar c, 128 ≤ b.toNat := by
  have hmax : c.val.toNat < 0x110000 := by
    rcases c.valid with hc | hc
    · exact hc.trans (by decide)
    · exact hc.2
  have htoNat : c.toNat = c.val.toNat := rfl
  rw [htoNat]
  unfold String.utf8EncodeChar
  simp only
  split_ifs with h₁ h₂ h₃
  · exact .inl ⟨by omega, rfl⟩
  · refine .inr ⟨by omega, ?_⟩
    simp only [List.mem_cons, List.not_mem_nil, or_false]
    rintro b (rfl | rfl) <;> simp only [UInt8.toNat_ofNat'] <;> omega
  · refine .inr ⟨by omega, ?_⟩
    simp only [List.mem_cons, List.not_mem_nil, or_false]
    rintro b (rfl | rfl | rfl) <;> simp only [UInt8.toNat_ofNat'] <;> omega
  · refine .inr ⟨by omega, ?_⟩
    simp only [List.mem_cons, List.not_mem_nil, or_false]
    rintro b (rfl | rfl | rfl | rfl) <;> simp only [UInt8.toNat_ofNat'] <;> omega

/-- No encoded character starts with another. -/
theorem utf8EncodeChar_append_inj {c d : Char} {as bs : List UInt8}
    (h : String.utf8EncodeChar c ++ as = String.utf8EncodeChar d ++ bs) : c = d ∧ as = bs := by
  have hdecode : ∀ (c : Char) (as : List UInt8),
      (String.utf8EncodeChar c ++ as).toByteArray.utf8DecodeChar? 0 = some c := fun c as => by
    rw [List.toByteArray_append, ByteArray.utf8DecodeChar?_utf8EncodeChar_append]
  have hc := hdecode c as
  rw [h, hdecode d bs] at hc
  obtain rfl := Option.some.inj hc
  exact ⟨rfl, List.append_cancel_left h⟩

theorem flatMap_utf8EncodeChar_isPrefix : ∀ {cs ds : List Char},
    cs.flatMap String.utf8EncodeChar <+: ds.flatMap String.utf8EncodeChar ↔ cs <+: ds
  | [], ds => by simp
  | c :: cs, [] => by simp [String.utf8EncodeChar_ne_nil]
  | c :: cs, d :: ds => by
    rw [List.cons_prefix_cons, ← @flatMap_utf8EncodeChar_isPrefix cs ds,
      List.flatMap_cons, List.flatMap_cons]
    constructor
    · rintro ⟨rest, h⟩
      rw [List.append_assoc] at h
      obtain ⟨hcd, hrest⟩ := utf8EncodeChar_append_inj h
      exact ⟨hcd, rest, hrest⟩
    · rintro ⟨rfl, hrest⟩
      exact (List.prefix_append_right_inj _).mpr hrest

/-- A text starts with another exactly when its bytes do. -/
theorem strBytes_isPrefix_iff {s t : String} : strBytes s <+: strBytes t ↔ s.toList <+: t.toList :=
  flatMap_utf8EncodeChar_isPrefix

theorem strBytes_append (s t : String) : strBytes (s ++ t) = strBytes s ++ strBytes t := by
  simp [strBytes]

/-- What follows an ASCII byte of a text is the encoding of the characters after it. -/
theorem flatMap_utf8EncodeChar_split {b : UInt8} (hb : b.toNat < 128) {after : List UInt8} :
    ∀ {cs : List Char} {before : List UInt8},
      cs.flatMap String.utf8EncodeChar = before ++ b :: after →
        ∃ rest : List Char, after = rest.flatMap String.utf8EncodeChar
  | [], before, h => by simp at h
  | c :: cs, before, h => by
    rw [List.flatMap_cons] at h
    rcases utf8EncodeChar_cases c with ⟨-, hone⟩ | ⟨-, hmany⟩
    · rw [hone] at h
      cases before with
      | nil => exact ⟨cs, ((List.cons_eq_cons.mp h).2).symm⟩
      | cons x before =>
        have hcs : cs.flatMap String.utf8EncodeChar = before ++ b :: after := (List.cons_eq_cons.mp h).2
        exact flatMap_utf8EncodeChar_split hb hcs
    · rcases List.append_eq_append_iff.mp h with ⟨before', -, hrest⟩ | ⟨more, hchar, hrest⟩
      · exact flatMap_utf8EncodeChar_split hb hrest
      · cases more with
        | nil =>
          have hcs : cs.flatMap String.utf8EncodeChar = [] ++ b :: after := hrest.symm
          exact flatMap_utf8EncodeChar_split hb hcs
        | cons x more =>
          obtain ⟨rfl, -⟩ := List.cons_eq_cons.mp hrest
          have hx := hmany b (by rw [hchar]; simp)
          omega

/-- What follows an ASCII byte of a text is a text. -/
theorem fromUtf8_after {s : String} {before after : List UInt8} {b : UInt8} (hb : b.toNat < 128)
    (h : strBytes s = before ++ b :: after) : ∃ t, fromUtf8 after = some t := by
  obtain ⟨rest, rfl⟩ := flatMap_utf8EncodeChar_split hb h
  refine ⟨String.ofList rest, ?_⟩
  have hbytes : rest.flatMap String.utf8EncodeChar = strBytes (String.ofList rest) := by
    rw [strBytes, String.toList_ofList]
  rw [hbytes, fromUtf8_strBytes]

end LocalCache
