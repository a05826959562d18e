import LocalCache.Prefixes
import LocalCache.SqliteGlob

/-!
# The SQL of the path filters

`pathFilterClauses` writes the path filters of a query as the clauses of a WHERE, with the texts
bound to their placeholders. A directory filter is a range of texts in byte order, and without its
subdirectories also a search for a separator behind the prefix, which SQLite places by counting
characters. The range holds what starts with the prefix and the search keeps the directory's own
files (`dirFilter_spec`), so a query with the filter selects the intersection with what it selects
without. `whereHolds_pathFilterClauses` reads the clauses as `PreparedPathFilters.matches`.
-/

namespace LocalCache

/-! ## The clauses -/

inductive Platform
  | unix
  | windows
  deriving DecidableEq, Repr

/-- `std::path::MAIN_SEPARATOR`. -/
def Platform.mainSeparator : Platform → Char
  | .unix => '/'
  | .windows => '\\'

namespace Sql

/-- A clause on the namespace or the path of a file. -/
inductive PathClause
  | namespaceEq
  | pathLike
  | pathRange
  | noSeparator
  | pathGlob (terms : ℕ)
  deriving DecidableEq, Repr

def PathClause.sql : PathClause → String
  | .namespaceEq => "namespace = ?"
  | .pathLike => "path LIKE ? ESCAPE '\\'"
  | .pathRange => "path >= ? AND path < ?"
  | .noSeparator => "instr(substr(path, CAST(? AS INTEGER)), ?) = 0"
  | .pathGlob terms => "(" ++ " OR ".intercalate (List.replicate terms "path GLOB ?") ++ ")"

/-- The placeholders of a clause. -/
def PathClause.arity : PathClause → ℕ
  | .namespaceEq => 1
  | .pathLike => 1
  | .pathRange => 2
  | .noSeparator => 2
  | .pathGlob terms => terms

/-- Clauses with the texts for their placeholders, in order. -/
abbrev BoundClauses := List PathClause × List String

def likeClauses : Option String → BoundClauses
  | none => ([], [])
  | some pattern => ([.pathLike], [pattern])

/-- The range of the prefix, and without subdirectories no separator after it. -/
def dirClauses (platform : Platform) : Option (String × Bool) → BoundClauses
  | none => ([], [])
  | some (pre, true) => ([.pathRange], [pre, rangeUpperBound pre])
  | some (pre, false) =>
    ([.pathRange, .noSeparator],
      [pre, rangeUpperBound pre, toString (pre.toList.length + 1),
        String.singleton platform.mainSeparator])

def globClauses : Option (List String) → BoundClauses
  | none => ([], [])
  | some globs => if globs.isEmpty then ([], []) else ([.pathGlob globs.length], globs)

/-- `path_filter_clauses`. -/
def pathFilterClauses (platform : Platform) (ns : String) (pattern : Option String)
    (pathInDir : Option (String × Bool)) (pathGlob : Option (List String)) : BoundClauses :=
  let like := likeClauses pattern
  let dir := dirClauses platform pathInDir
  let glob := globClauses pathGlob
  (.namespaceEq :: (like.1 ++ (dir.1 ++ glob.1)), ns :: (like.2 ++ (dir.2 ++ glob.2)))

/-- `build_path_sql`. -/
def buildPathSql (platform : Platform) (ns : String) (pattern : Option String)
    (pathInDir : Option (String × Bool)) (pathGlob : Option (List String)) :
    String × List String :=
  let bound := pathFilterClauses platform ns pattern pathInDir pathGlob
  ("SELECT path FROM main.files WHERE " ++ " AND ".intercalate (bound.1.map PathClause.sql) ++
    " ORDER BY path", bound.2)

/-! ## What SQLite computes -/

/-- The blanks of SQLite. -/
def isSpace (c : Char) : Bool := c ∈ [' ', '\t', '\n', '\x0b', '\x0c', '\r']

/-- `CAST(text AS INTEGER)` : the number at the start of a text, after blanks and a sign, and 0
if there is none. -/
def castInteger (text : String) : ℤ :=
  let number (chars : List Char) := Nat.ofDigitChars 10 (chars.takeWhile Char.isDigit) 0
  match text.toList.dropWhile isSpace with
  | '-' :: chars => -number chars
  | '+' :: chars => number chars
  | chars => number chars

/-- `substr(text, start)`, in characters counted from one. A negative start counts from the
end. -/
def substr (text : String) (start : ℤ) : List Char :=
  let chars := Sqlite.upToNul text
  if 0 ≤ start then chars.drop (start.toNat - 1) else chars.drop (chars.length - (-start).toNat)

/-- `instr(haystack, needle)`. -/
def instr (haystack needle : List Char) : ℕ := position needle haystack

variable {T : Type} (lib : QueryLib T)

/-- A clause holds of a file, with these texts for its placeholders. The columns compare by the
bytes of their texts. -/
def PathClause.holds (r : FileRow) : PathClause → List String → Bool
  | .namespaceEq, [ns] => r.ns = ns
  | .pathLike, [pattern] => lib.like pattern r.path
  | .pathRange, [low, high] => textKey low ≤ textKey r.path ∧ textKey r.path < textKey high
  | .noSeparator, [start, separator] =>
    instr (substr r.path (castInteger start)) separator.toList = 0
  | .pathGlob _, patterns => patterns.any fun pattern => lib.glob pattern r.path
  | _, _ => false

/-- The clauses hold together. Their placeholders take the texts from left to right, and use all
of them. -/
def whereHolds (r : FileRow) : List PathClause → List String → Bool
  | [], params => params.isEmpty
  | clause :: clauses, params =>
    clause.holds lib r (params.take clause.arity) &&
      whereHolds r clauses (params.drop clause.arity)

/-- The bound clauses hold of a file. -/
def BoundClauses.Holds (clauses : BoundClauses) (r : FileRow) : Prop :=
  whereHolds lib r clauses.1 clauses.2 = true

end Sql

/-! ## Readings -/

/-- The count of characters that the search starts from is read back. -/
theorem castInteger_toString (n : ℕ) : Sql.castInteger (toString n) = n := by
  have hdigits : ∀ c ∈ Nat.toDigits 10 n, c.isDigit = true := fun c hc =>
    Nat.isDigit_of_mem_toDigits (by omega) (by omega) hc
  have hnumber : Nat.ofDigitChars 10 ((Nat.toDigits 10 n).takeWhile Char.isDigit) 0 = n := by
    rw [List.takeWhile_eq_self_iff.mpr hdigits, Nat.ofDigitChars_ten_toDigits]
  have hother : ∀ c : Char, c.isDigit = false → ∀ chars, Nat.toDigits 10 n ≠ c :: chars :=
    fun c hc chars heq => by simp [hdigits c (heq ▸ List.mem_cons_self)] at hc
  have hspace : (Nat.toDigits 10 n).dropWhile Sql.isSpace = Nat.toDigits 10 n := by
    cases hchars : Nat.toDigits 10 n with
    | nil => rfl
    | cons c chars =>
      refine List.dropWhile_cons_of_neg fun hc => ?_
      have hblank : c.isDigit = false := by
        simp only [Sql.isSpace, List.mem_cons, List.not_mem_nil, or_false, decide_eq_true_eq] at hc
        rcases hc with rfl | rfl | rfl | rfl | rfl | rfl <;> decide
      exact hother c hblank chars hchars
  rw [Sql.castInteger, Nat.toString_eq_repr, Nat.toList_repr, hspace]
  split
  · rename_i chars heq
    exact absurd heq (hother '-' (by decide) chars)
  · rename_i chars heq
    exact absurd heq (hother '+' (by decide) chars)
  · exact congrArg Nat.cast hnumber

theorem Sql.substr_of_not_mem {text : String} (h : Glob.nul ∉ text.toList) (n : ℕ) :
    Sql.substr text ((n + 1 : ℕ) : ℤ) = text.toList.drop n := by
  rw [Sql.substr, if_pos (Int.natCast_nonneg _), Sqlite.upToNul_of_not_mem h]
  simp

theorem Sql.instr_eq_zero_iff {haystack : List Char} {c : Char} :
    Sql.instr haystack [c] = 0 ↔ c ∉ haystack := by
  rw [Sql.instr, position_eq_zero_iff, List.singleton_infix_iff]

/-! ## The range of a prefix -/

theorem textKey_append (s t : String) : textKey (s ++ t) = textKey s ++ textKey t := by
  rw [textKey, strBytes_append, List.map_append]
  rfl

theorem textKey_isPrefix_iff {s t : String} : textKey s <+: textKey t ↔ s.toList <+: t.toList := by
  rw [← strBytes_isPrefix_iff]
  constructor
  · intro h
    rw [List.prefix_iff_eq_take, textKey, textKey, List.length_map, ← List.map_take] at h
    rw [List.prefix_iff_eq_take]
    exact List.map_injective_iff.mpr (fun _ _ => UInt8.toNat_inj.mp) h
  · exact fun h => h.map UInt8.toNat

theorem isPrefix_iff_exists_append {s t : String} :
    s.toList <+: t.toList ↔ ∃ rest, t = s ++ rest := by
  constructor
  · rintro ⟨rest, h⟩
    exact ⟨String.ofList rest, by rw [← String.toList_inj]; simp [h]⟩
  · rintro ⟨rest, rfl⟩
    simp

theorem textKey_singleton {c : Char} (h : c.toNat < 128) :
    textKey (String.singleton c) = [c.toNat] := by
  rw [textKey, strBytes_singleton]
  rcases utf8EncodeChar_cases c with ⟨-, hc⟩ | ⟨hc, -⟩
  · simp only [hc, List.map_cons, List.map_nil, UInt8.toNat_ofNat']
    rw [Nat.mod_eq_of_lt (by omega)]
  · omega

/-- The character that `range_upper_bound` puts in the place of a separator. -/
def Platform.nextSeparator : Platform → Char
  | .unix => '0'
  | .windows => ']'

theorem rangeUpperBound_append (platform : Platform) (dir : String) :
    rangeUpperBound (dir ++ String.singleton platform.mainSeparator) =
      dir ++ String.singleton platform.nextSeparator := by
  rw [← String.toList_inj, rangeUpperBound, String.toList_append, String.toList_singleton,
    List.getLast?_concat, List.dropLast_concat, String.toList_append, String.toList_singleton]
  cases platform
  · exact String.toList_ofList
  · exact String.toList_ofList

theorem exists_of_getLast? {pre : String} {c : Char} (h : pre.toList.getLast? = some c) :
    ∃ dir, pre = dir ++ String.singleton c := by
  obtain ⟨chars, hchars⟩ := List.getLast?_eq_some_iff.mp h
  exact ⟨String.ofList chars, by rw [← String.toList_inj, hchars]; simp⟩

/-- The range of a prefix that ends in the separator holds the texts that start with it. -/
theorem mem_range_iff {platform : Platform} {pre : String}
    (hpre : pre.toList.getLast? = some platform.mainSeparator) (path : String) :
    textKey pre ≤ textKey path ∧ textKey path < textKey (rangeUpperBound pre) ↔
      ∃ rest, path = pre ++ rest := by
  obtain ⟨dir, rfl⟩ := exists_of_getLast? hpre
  have hval : platform.nextSeparator.toNat = platform.mainSeparator.toNat + 1 := by
    cases platform <;> rfl
  have hnext : platform.mainSeparator.toNat ⋖ platform.nextSeparator.toNat :=
    ⟨by omega, fun n hlow hhigh => by omega⟩
  rw [← isPrefix_iff_exists_append, ← textKey_isPrefix_iff, rangeUpperBound_append,
    textKey_append, textKey_append, textKey_singleton, textKey_singleton]
  · exact (isPrefix_iff_between hnext _ _).symm
  · cases platform <;> decide
  · cases platform <;> decide

/-! ## The WHERE -/

section Where

variable {T : Type} (lib : QueryLib T)

/-- Every placeholder of the clauses has its text. -/
def Sql.BoundClauses.WellBound (clauses : Sql.BoundClauses) : Prop :=
  clauses.2.length = (clauses.1.map Sql.PathClause.arity).sum

theorem Sql.whereHolds_append (r : FileRow) : ∀ (clauses more : List Sql.PathClause)
    (params rest : List String), params.length = (clauses.map Sql.PathClause.arity).sum →
    Sql.whereHolds lib r (clauses ++ more) (params ++ rest) =
      (Sql.whereHolds lib r clauses params && Sql.whereHolds lib r more rest)
  | [], more, params, rest, h => by
    obtain rfl := List.length_eq_zero_iff.mp h
    rfl
  | clause :: clauses, more, params, rest, h => by
    rw [List.map_cons, List.sum_cons] at h
    have ih := whereHolds_append r clauses more (params.drop clause.arity) rest
      (by rw [List.length_drop]; omega)
    rw [List.cons_append, Sql.whereHolds, Sql.whereHolds, List.take_append_of_le_length (by omega),
      List.drop_append_of_le_length (by omega), ih, Bool.and_assoc]

theorem Sql.wellBound_likeClauses (pattern : Option String) :
    Sql.BoundClauses.WellBound (Sql.likeClauses pattern) := by
  cases pattern <;> rfl

theorem Sql.wellBound_dirClauses (platform : Platform) :
    ∀ pathInDir, Sql.BoundClauses.WellBound (Sql.dirClauses platform pathInDir)
  | none => rfl
  | some (_, true) => rfl
  | some (_, false) => rfl

theorem Sql.wellBound_globClauses (pathGlob : Option (List String)) :
    Sql.BoundClauses.WellBound (Sql.globClauses pathGlob) := by
  cases pathGlob with
  | none => rfl
  | some globs =>
    rw [Sql.globClauses]
    split_ifs
    · rfl
    · simp [Sql.BoundClauses.WellBound, Sql.PathClause.arity]

/-- The clauses of a query bind as many texts as they have placeholders. -/
theorem Sql.wellBound_pathFilterClauses (platform : Platform) (ns : String)
    (pattern : Option String) (pathInDir : Option (String × Bool))
    (pathGlob : Option (List String)) :
    Sql.BoundClauses.WellBound
      (Sql.pathFilterClauses platform ns pattern pathInDir pathGlob) := by
  have hlike := Sql.wellBound_likeClauses pattern
  have hdir := Sql.wellBound_dirClauses platform pathInDir
  have hglob := Sql.wellBound_globClauses pathGlob
  unfold Sql.BoundClauses.WellBound at hlike hdir hglob ⊢
  simp only [Sql.pathFilterClauses, List.length_cons, List.length_append, List.map_cons,
    List.map_append, List.sum_cons, List.sum_append, hlike, hdir, hglob, Sql.PathClause.arity]
  omega

theorem count_intercalate {α : Type*} [DecidableEq α] {c : α} {sep : List α} (hc : c ∉ sep) :
    ∀ ls : List (List α), (sep.intercalate ls).count c = (ls.map (List.count c)).sum
  | [] => rfl
  | [l] => by simp
  | l :: l' :: ls => by
    rw [List.intercalate_cons_cons, List.count_append, List.count_append,
      List.count_eq_zero_of_not_mem hc, count_intercalate hc (l' :: ls), add_zero]
    rfl

theorem count_toList_between {c : Char} {before after : String} (hb : c ∉ before.toList)
    (ha : c ∉ after.toList) (text : String) :
    (before ++ text ++ after).toList.count c = text.toList.count c := by
  rw [String.toList_append, String.toList_append, List.count_append, List.count_append,
    List.count_eq_zero_of_not_mem hb, List.count_eq_zero_of_not_mem ha, zero_add, add_zero]

theorem Sql.PathClause.count_sql (clause : Sql.PathClause) :
    clause.sql.toList.count '?' = clause.arity := by
  cases clause with
  | pathGlob terms =>
    have hterm : "path GLOB ?".toList.count '?' = 1 := by decide
    rw [Sql.PathClause.sql, count_toList_between (by decide) (by decide),
      String.toList_intercalate, count_intercalate (by decide), List.map_replicate,
      List.map_replicate, hterm, List.sum_replicate_nat, Sql.PathClause.arity, mul_one]
  | _ => decide

/-- The SQL has as many placeholders as texts are bound to it. -/
theorem Sql.count_buildPathSql (platform : Platform) (ns : String) (pattern : Option String)
    (pathInDir : Option (String × Bool)) (pathGlob : Option (List String)) :
    (Sql.buildPathSql platform ns pattern pathInDir pathGlob).1.toList.count '?' =
      (Sql.buildPathSql platform ns pattern pathInDir pathGlob).2.length := by
  have hbound := Sql.wellBound_pathFilterClauses platform ns pattern pathInDir pathGlob
  rw [Sql.BoundClauses.WellBound] at hbound
  unfold Sql.buildPathSql
  rw [count_toList_between (by simp) (by simp), hbound, String.toList_intercalate,
    count_intercalate (by decide), List.map_map, List.map_map]
  exact congrArg List.sum (List.map_congr_left fun clause _ => clause.count_sql)

/-- A WHERE is the conjunction of its filters. -/
theorem Sql.holds_pathFilterClauses (platform : Platform) (ns : String) (pattern : Option String)
    (pathInDir : Option (String × Bool)) (pathGlob : Option (List String)) (r : FileRow) :
    (Sql.pathFilterClauses platform ns pattern pathInDir pathGlob).Holds lib r ↔
      r.ns = ns ∧ (Sql.likeClauses pattern).Holds lib r ∧
        (Sql.dirClauses platform pathInDir).Holds lib r ∧
        (Sql.globClauses pathGlob).Holds lib r := by
  unfold Sql.BoundClauses.Holds
  rw [Sql.pathFilterClauses, Sql.whereHolds]
  simp only [Sql.PathClause.arity, List.take_one, List.head?_cons, List.drop_one, List.tail_cons]
  rw [Sql.whereHolds_append _ _ _ _ _ _ (Sql.wellBound_likeClauses pattern),
    Sql.whereHolds_append _ _ _ _ _ _ (Sql.wellBound_dirClauses platform pathInDir)]
  simp [Sql.PathClause.holds]

/-! ## The directory filter -/

/-- The path is in the directory of the prefix, or without `recursive` one of its own files. -/
def InDirectory (platform : Platform) (pre : String) (recursive : Bool) (path : String) : Prop :=
  ∃ rest, path = pre ++ rest ∧ (recursive = false → platform.mainSeparator ∉ rest.toList)

/-- The search of a directory's own files starts behind the prefix. -/
theorem Sql.noSeparator_iff (platform : Platform) {r : FileRow}
    (hnul : Glob.nul ∉ r.path.toList) (pre : String) :
    Sql.PathClause.noSeparator.holds lib r
        [toString (pre.toList.length + 1), String.singleton platform.mainSeparator] = true ↔
      platform.mainSeparator ∉ r.path.toList.drop pre.toList.length := by
  rw [Sql.PathClause.holds, castInteger_toString, Sql.substr_of_not_mem hnul,
    String.toList_singleton, decide_eq_true_eq, Sql.instr_eq_zero_iff]

theorem Sql.holds_dirClauses {platform : Platform} {r : FileRow}
    (hnul : Glob.nul ∉ r.path.toList) (pre : String) (recursive : Bool) :
    (Sql.dirClauses platform (some (pre, recursive))).Holds lib r ↔
      (textKey pre ≤ textKey r.path ∧ textKey r.path < textKey (rangeUpperBound pre)) ∧
        (recursive = false →
          platform.mainSeparator ∉ r.path.toList.drop pre.toList.length) := by
  have hchild := Sql.noSeparator_iff lib platform hnul pre
  unfold Sql.BoundClauses.Holds
  cases recursive with
  | true => simp [Sql.dirClauses, Sql.whereHolds, Sql.PathClause.arity, Sql.PathClause.holds]
  | false =>
    simp only [Sql.dirClauses, Sql.whereHolds, Sql.PathClause.arity, List.take_succ_cons,
      List.take_zero, List.drop_succ_cons, List.drop_zero, Bool.and_eq_true, List.isEmpty_nil,
      and_true, forall_const]
    rw [hchild]
    simp [Sql.PathClause.holds]

theorem Sql.holds_dirClauses_iff {platform : Platform} {pre : String}
    (hpre : pre.toList.getLast? = some platform.mainSeparator) {r : FileRow}
    (hnul : Glob.nul ∉ r.path.toList) (recursive : Bool) :
    (Sql.dirClauses platform (some (pre, recursive))).Holds lib r ↔
      InDirectory platform pre recursive r.path := by
  rw [Sql.holds_dirClauses lib hnul, mem_range_iff hpre, InDirectory]
  constructor
  · rintro ⟨⟨rest, hrest⟩, hchild⟩
    refine ⟨rest, hrest, fun hrec => ?_⟩
    simpa [hrest] using hchild hrec
  · rintro ⟨rest, hrest, hchild⟩
    refine ⟨⟨rest, hrest⟩, fun hrec => ?_⟩
    simpa [hrest] using hchild hrec

/-- The files of the database that pass a WHERE. -/
def Sql.selected (clauses : Sql.BoundClauses) (db : Db) : Set FileRow :=
  {r | r ∈ db.files ∧ clauses.Holds lib r}

/-- A directory filter selects what its directory holds : the range of its prefix everything that
starts with the prefix, with the search only what has no separator after it. With other filters
it selects the intersection. -/
theorem dirFilter_spec {platform : Platform} {pre : String}
    (hpre : pre.toList.getLast? = some platform.mainSeparator) {db : Db}
    (hnul : ∀ r ∈ db.files, Glob.nul ∉ r.path.toList) :
    (∀ r ∈ db.files, (Sql.dirClauses platform (some (pre, true))).Holds lib r ↔
      ∃ rest, r.path = pre ++ rest) ∧
    (∀ r ∈ db.files, (Sql.dirClauses platform (some (pre, false))).Holds lib r ↔
      ∃ rest, r.path = pre ++ rest ∧ platform.mainSeparator ∉ rest.toList) ∧
    ∀ (ns : String) (pattern : Option String) (recursive : Bool) (pathGlob : Option (List String)),
      Sql.selected lib
          (Sql.pathFilterClauses platform ns pattern (some (pre, recursive)) pathGlob) db =
        Sql.selected lib (Sql.pathFilterClauses platform ns pattern none pathGlob) db ∩
          {r | InDirectory platform pre recursive r.path} := by
  refine ⟨fun r hr => ?_, fun r hr => ?_, fun ns pattern recursive pathGlob => ?_⟩
  · rw [Sql.holds_dirClauses_iff lib hpre (hnul r hr)]
    simp [InDirectory]
  · rw [Sql.holds_dirClauses_iff lib hpre (hnul r hr)]
    simp [InDirectory]
  · ext r
    have hnone : (Sql.dirClauses platform none).Holds lib r := rfl
    simp only [Sql.selected, Set.mem_ofPred_eq, Set.mem_inter_iff, Sql.holds_pathFilterClauses]
    constructor
    · rintro ⟨hr, hns, hlike, hdir, hglob⟩
      exact ⟨⟨hr, hns, hlike, hnone, hglob⟩,
        (Sql.holds_dirClauses_iff lib hpre (hnul r hr) recursive).mp hdir⟩
    · rintro ⟨⟨hr, hns, hlike, -, hglob⟩, hdir⟩
      exact ⟨hr, hns, hlike,
        (Sql.holds_dirClauses_iff lib hpre (hnul r hr) recursive).mpr hdir, hglob⟩

end Where

/-- Patterns that match everything, and payloads without JSON. -/
def everyLib : QueryLib Unit :=
  ⟨fun _ _ => true, fun _ _ => true, fun _ => .ok [], fun _ _ => .ok none, fun _ => .ok .null,
    fun _ => .ok ""⟩

/-- A file in a subdirectory of a directory whose name holds characters of patterns. -/
def nestedFile : FileRow := ⟨1, "n", "/é%_[/a/b", ⟨0, 0, none⟩, 0, 0, 0⟩

theorem dirFilter_spec_sample :
    (Sql.dirClauses .unix (some ("/é%_[/", true))).Holds everyLib nestedFile ∧
      ¬ (Sql.dirClauses .unix (some ("/é%_[/", false))).Holds everyLib nestedFile := by
  have hspec := @dirFilter_spec Unit everyLib .unix "/é%_[/" (by decide) ⟨[nestedFile], [], 1⟩
    (by decide)
  have hmem : nestedFile ∈ [nestedFile] := List.mem_singleton_self _
  constructor
  · exact (hspec.1 nestedFile hmem).mpr ⟨"a/b", by decide⟩
  · rw [hspec.2.1 nestedFile hmem]
    rintro ⟨rest, hrest, hsep⟩
    have hchars : "/é%_[/".toList ++ "a/b".toList = "/é%_[/".toList ++ rest.toList := calc
      "/é%_[/".toList ++ "a/b".toList = nestedFile.path.toList := by decide
      _ = "/é%_[/".toList ++ rest.toList := by rw [hrest, String.toList_append]
    rw [← List.append_cancel_left hchars] at hsep
    exact hsep (by decide)

section Where

variable {T : Type} (lib : QueryLib T)

/-! ## The filters of a query -/

theorem Sql.holds_likeClauses (pattern : Option String) (r : FileRow) :
    (Sql.likeClauses pattern).Holds lib r ↔ ∀ pat ∈ pattern, lib.like pat r.path = true := by
  cases pattern <;>
    simp [Sql.BoundClauses.Holds, Sql.likeClauses, Sql.whereHolds, Sql.PathClause.arity,
      Sql.PathClause.holds]

theorem Sql.holds_globClauses (pathGlob : Option (List String)) (r : FileRow) :
    (Sql.globClauses pathGlob).Holds lib r ↔
      ∀ globs ∈ pathGlob, globs = [] ∨ ∃ pattern ∈ globs, lib.glob pattern r.path = true := by
  unfold Sql.BoundClauses.Holds
  cases pathGlob with
  | none => simp [Sql.globClauses, Sql.whereHolds]
  | some globs =>
    rw [Sql.globClauses]
    split_ifs with hempty
    · simp [Sql.whereHolds, List.isEmpty_iff.mp hempty]
    · have hne : globs ≠ [] := fun h => hempty (List.isEmpty_iff.mpr h)
      simp [Sql.whereHolds, Sql.PathClause.arity, Sql.PathClause.holds, hne]

/-- The WHERE of a query on Unix reads as its prepared filters. -/
theorem whereHolds_pathFilterClauses (ns : String) (filters : PreparedPathFilters) {r : FileRow}
    (hnul : Glob.nul ∉ r.path.toList) :
    (Sql.pathFilterClauses .unix ns filters.pathLike filters.pathInDir filters.pathGlob).Holds
        lib r ↔ r.ns = ns ∧ filters.matches lib r.path = true := by
  obtain ⟨pathLike, pathInDir, pathGlob⟩ := filters
  rw [Sql.holds_pathFilterClauses, Sql.holds_likeClauses, Sql.holds_globClauses,
    PreparedPathFilters.matches, Bool.and_eq_true, Bool.and_eq_true, and_assoc]
  refine and_congr_right fun _ => and_congr ?_ (and_congr ?_ ?_)
  · cases pathLike <;> simp
  · cases pathInDir with
    | none => simp [Sql.BoundClauses.Holds, Sql.dirClauses, Sql.whereHolds]
    | some dir =>
      rw [Sql.holds_dirClauses lib hnul]
      cases hrec : dir.2 <;> simp [Platform.mainSeparator, hrec]
  · cases pathGlob <;> simp

/-- A query reads the files of its namespace that pass its WHERE. -/
theorem mem_filteredRows_iff {ns : String} {filters : PreparedPathFilters} {db : Db}
    (hnul : ∀ r ∈ db.files, Glob.nul ∉ r.path.toList) {r : FileRow} :
    r ∈ Sql.filteredRows lib ns filters db ↔
      r ∈ Sql.selected lib (Sql.pathFilterClauses .unix ns filters.pathLike filters.pathInDir
        filters.pathGlob) db := by
  rw [Sql.filteredRows, mem_sortBy, List.mem_filter, Db.mem_inNamespace, and_assoc]
  exact and_congr_right fun hr => (whereHolds_pathFilterClauses lib ns filters (hnul r hr)).symm

/-- The prefix of a query's directory ends in the separator. -/
theorem getLast?_prepareDir {src : Sources T} {dir : Path} {pre : String}
    (h : prepareDir src dir = .ok pre) :
    pre.toList.getLast? = some Platform.unix.mainSeparator := by
  have hend : ∀ resolved : Path, ((pathToStr resolved).bind fun text =>
      Except.ok (if text.toList.getLast? = some '/' then text else text ++ "/")) = .ok pre →
      pre.toList.getLast? = some '/' := by
    intro resolved h
    cases hstr : pathToStr resolved with
    | error err =>
      rw [hstr] at h
      cases h
    | ok text =>
      rw [hstr] at h
      obtain rfl := Except.ok.inj h
      split_ifs with hlast
      · exact hlast
      · simp
  unfold prepareDir at h
  cases hresolved : src.normalizePath dir with
  | ok canonical =>
    rw [hresolved] at h
    exact hend canonical h
  | error err =>
    rw [hresolved] at h
    cases err with
    | fileNotFound path => exact hend dir h
    | _ => cases h

end Where

end LocalCache
