import LocalCache.Detection

/-!
# Hashes of files

A full hash covers the whole content, read in pieces of any length. A partial hash covers a small
file whole, and the first and the last 64 KiB of a larger one, and is marked by its prefix. The
digest is written in hexadecimal, so no full hash has that prefix (`isPartialHash_fullHash`).

BLAKE3 is a parameter. For one that is injective, equal full hashes are those of equal contents
(`fullHash_inj`), and equal partial hashes of contents of one length are those of equal samples
(`sameSample_of_sample_eq`).
-/

namespace LocalCache

/-! ## Digests as text -/

def hexDigit (n : ℕ) : Char := if n < 10 then Char.ofNat (48 + n) else Char.ofNat (87 + n)

def hexByte (b : UInt8) : List Char := [hexDigit (b.toNat / 16), hexDigit (b.toNat % 16)]

/-- `to_hex` : two lowercase digits for each byte. -/
def toHex (digest : List UInt8) : String := String.ofList (digest.flatMap hexByte)

theorem hexDigit_inj {m n : ℕ} (hm : m < 16) (hn : n < 16) (h : hexDigit m = hexDigit n) : m = n :=
  Fin.val_eq_of_eq ((by decide : ∀ a b : Fin 16, hexDigit a = hexDigit b → a = b) ⟨m, hm⟩ ⟨n, hn⟩ h)

theorem hexDigit_ne {n : ℕ} (hn : n < 16) : hexDigit n ≠ 'p' :=
  (by decide : ∀ a : Fin 16, hexDigit a ≠ 'p') ⟨n, hn⟩

theorem hexByte_inj {a b : UInt8} (h : hexByte a = hexByte b) : a = b := by
  obtain ⟨hhigh, hrest⟩ := List.cons.inj h
  obtain ⟨hlow, -⟩ := List.cons.inj hrest
  have ha := UInt8.toNat_lt a
  have hb := UInt8.toNat_lt b
  have hdiv := hexDigit_inj (by omega) (by omega) hhigh
  have hmod := hexDigit_inj (by omega) (by omega) hlow
  exact UInt8.toNat_inj.mp (by omega)

theorem flatMap_hexByte_inj : ∀ {as bs : List UInt8}, as.flatMap hexByte = bs.flatMap hexByte →
    as = bs
  | [], [], _ => rfl
  | [], _ :: _, h => absurd h (by simp [hexByte])
  | _ :: _, [], h => absurd h (by simp [hexByte])
  | a :: as, b :: bs, h => by
    rw [List.flatMap_cons, List.flatMap_cons] at h
    obtain ⟨hhead, htail⟩ := List.append_inj h rfl
    rw [hexByte_inj hhead, flatMap_hexByte_inj htail]

theorem toHex_inj {as bs : List UInt8} (h : toHex as = toHex bs) : as = bs :=
  flatMap_hexByte_inj (String.ofList_injective h)

/-! ## Reading and hashing -/

/-- The bytes sampled at each end of a large file. -/
def sampleSize : ℕ := 64 * 1024

/-- The buffer a file is read through. -/
def bufSize : ℕ := 64 * 1024

/-- BLAKE3's hasher : it has the bytes it was given, in order. -/
structure Hasher where
  input : List UInt8

def Hasher.new : Hasher := ⟨[]⟩

def Hasher.update (hasher : Hasher) (bytes : List UInt8) : Hasher := ⟨hasher.input ++ bytes⟩

section Hashing

variable (blake3 : List UInt8 → List UInt8) (short : ℕ → ℕ)

def Hasher.finalize (hasher : Hasher) : List UInt8 := blake3 hasher.input

/-- How much the `i`th read returns : as much as the system likes, at least a byte, at most the
buffer and what is left. -/
def readLen (i : ℕ) (rest : List UInt8) : ℕ := min (max 1 (short i)) (min bufSize rest.length)

theorem readLen_pos (i : ℕ) (b : UInt8) (rest : List UInt8) : 1 ≤ readLen short i (b :: rest) := by
  unfold readLen bufSize
  rw [List.length_cons]
  omega

/-- Read to the end, and hash what each read returns. -/
def updateAll (i : ℕ) (rest : List UInt8) (hasher : Hasher) : Hasher :=
  match rest with
  | [] => hasher
  | b :: rest =>
    let n := readLen short i (b :: rest)
    updateAll (i + 1) ((b :: rest).drop n) (hasher.update ((b :: rest).take n))
termination_by rest.length
decreasing_by
  have hpos := readLen_pos short i b rest
  simp only [List.length_drop, List.length_cons]
  omega

def computeFullHash (content : List UInt8) : String :=
  toHex ((updateAll short 0 content .new).finalize blake3)

/-- `read_exact` : the file ends early or the buffer is filled. -/
def readExact (n : ℕ) (rest : List UInt8) : Except Error (List UInt8) :=
  if n ≤ rest.length then .ok (rest.take n) else .error (.io "failed to fill whole buffer")

def computePartialHash (content : List UInt8) : Except Error String := do
  if content.length ≤ sampleSize * 2 then
    return partialPrefix ++ toHex ((updateAll short 0 content .new).finalize blake3)
  else
    let head ← readExact sampleSize content
    let tail ← readExact sampleSize (content.drop (content.length - sampleSize))
    let hasher := ((Hasher.new.update head).update [0xFF]).update tail
    return partialPrefix ++ toHex (hasher.finalize blake3)

end Hashing

/-! ## What is hashed -/

/-- What a partial hash covers. -/
def sample (content : List UInt8) : List UInt8 :=
  if content.length ≤ sampleSize * 2 then content
  else content.take sampleSize ++ 0xFF :: content.drop (content.length - sampleSize)

/-- Equal whole, for a small file, or at both ends. -/
def SameSample (content content' : List UInt8) : Prop :=
  if content.length ≤ sampleSize * 2 then content = content'
  else content.take sampleSize = content'.take sampleSize ∧
    content.drop (content.length - sampleSize) = content'.drop (content'.length - sampleSize)

section Hashing

variable {blake3 : List UInt8 → List UInt8} {short : ℕ → ℕ}

/-- However the content is read, all of it is hashed. -/
theorem input_updateAll (i : ℕ) (rest : List UInt8) (hasher : Hasher) :
    (updateAll short i rest hasher).input = hasher.input ++ rest := by
  induction i, rest, hasher using updateAll.induct short with
  | case1 i hasher => rw [updateAll, List.append_nil]
  | case2 i hasher b rest n ih =>
    rw [updateAll, ih, Hasher.update, List.append_assoc, List.take_append_drop]

theorem finalize_updateAll (content : List UInt8) :
    (updateAll short 0 content .new).finalize blake3 = blake3 content := by
  rw [Hasher.finalize, input_updateAll]
  rfl

theorem computeFullHash_eq (content : List UInt8) :
    computeFullHash blake3 short content = toHex (blake3 content) := by
  rw [computeFullHash, finalize_updateAll]

theorem finalize_samples (head tail : List UInt8) :
    (((Hasher.new.update head).update [0xFF]).update tail).finalize blake3 =
      blake3 (head ++ 0xFF :: tail) := by
  rw [Hasher.finalize, Hasher.update, Hasher.update, Hasher.update, Hasher.new, List.nil_append,
    List.append_assoc, List.singleton_append]

/-- The two samples of a large file are there. -/
theorem computePartialHash_eq (content : List UInt8) :
    computePartialHash blake3 short content =
      .ok (partialPrefix ++ toHex (blake3 (sample content))) := by
  unfold computePartialHash sample
  split_ifs with hsmall
  · rw [finalize_updateAll]
    rfl
  · have hhead : readExact sampleSize content = .ok (content.take sampleSize) := by
      rw [readExact, if_pos (by omega)]
    have htail : readExact sampleSize (content.drop (content.length - sampleSize)) =
        .ok (content.drop (content.length - sampleSize)) := by
      rw [readExact, if_pos (by rw [List.length_drop]; omega), List.take_of_length_le]
      rw [List.length_drop]
      omega
    rw [hhead, htail]
    simp only [bind, Except.bind, pure, Except.pure, finalize_samples]

theorem isPartialHash_prefixed (digest : List UInt8) :
    isPartialHash (partialPrefix ++ toHex digest) = true := by
  rw [isPartialHash, String.toList_append, List.isPrefixOf_iff_prefix]
  exact List.prefix_append _ _

/-- No digest starts like the mark of a partial hash. -/
theorem isPartialHash_toHex (digest : List UInt8) : isPartialHash (toHex digest) = false := by
  have hprefix : partialPrefix.toList = 'p' :: "artial:".toList := by decide
  rw [isPartialHash, toHex, String.toList_ofList, hprefix]
  cases digest with
  | nil => rfl
  | cons b digest =>
    have hb := UInt8.toNat_lt b
    have hne : ('p' == hexDigit (b.toNat / 16)) = false :=
      beq_false_of_ne (hexDigit_ne (by omega)).symm
    rw [List.flatMap_cons, hexByte, List.cons_append, List.isPrefixOf_cons_cons, hne, Bool.false_and]

theorem fullHash_inj (hinj : Function.Injective blake3) {content content' : List UInt8}
    (h : toHex (blake3 content) = toHex (blake3 content')) : content = content' :=
  hinj (toHex_inj h)

theorem sample_inj (hinj : Function.Injective blake3) {content content' : List UInt8}
    (h : partialPrefix ++ toHex (blake3 (sample content)) =
      partialPrefix ++ toHex (blake3 (sample content'))) : sample content = sample content' :=
  hinj (toHex_inj (String.append_right_inj partialPrefix |>.mp h))

/-- Samples of contents of one length are made in one way. -/
theorem sameSample_of_sample_eq {content content' : List UInt8}
    (hlen : content.length = content'.length) (h : sample content = sample content') :
    SameSample content content' := by
  unfold sample at h
  unfold SameSample
  rw [← hlen] at h ⊢
  split_ifs at h ⊢ with hsmall
  · exact h
  · have hhead : (content.take sampleSize).length = (content'.take sampleSize).length := by
      rw [List.length_take, List.length_take, hlen]
    obtain ⟨heq, htail⟩ := List.append_inj h hhead
    exact ⟨heq, (List.cons.inj htail).2⟩

end Hashing

end LocalCache
