import LocalCache.Versions
import Mathlib.Data.List.Infix

/-!
# The text of a table

SQLite keeps the `CREATE TABLE` a table was made with as text, and a `CHECK` can be seen only there.
The classifier compares that text token by token : `tokenize` leaves out white space, reads words in
any case and in any of the quotes of SQLite, and refuses everything else. `validateTableDdl` then
looks for the words of the constraints.

What `tokenize` accepts is a small lexical grammar. `Lexeme` is one token with what follows it, and
`Spells` a whole text; the tokenizer finds the tokens a text spells, and fails on a text that spells
none (`tokenize_eq_ok_iff`). So how a table was written makes no difference to its validation
(`validateTableDdl_spelling`), and the only `CHECK` of an accepted one is the constraint on the use
value (`useCheck_of_validateTableDdl`).
-/

namespace LocalCache

/-! ## Characters -/

/-- `char::is_whitespace`, the property `White_Space` of Unicode. -/
def isWhitespace (c : Char) : Bool :=
  (9 ≤ c.toNat && c.toNat ≤ 13) || c.toNat = 32 || c.toNat = 0x85 || c.toNat = 0xa0 ||
    c.toNat = 0x1680 || (0x2000 ≤ c.toNat && c.toNat ≤ 0x200a) || c.toNat = 0x2028 ||
    c.toNat = 0x2029 || c.toNat = 0x202f || c.toNat = 0x205f || c.toNat = 0x3000

/-- A character a bare word may start with. -/
def startsWord (c : Char) : Bool := c.isAlpha || c = '_'

def isWordChar (c : Char) : Bool := c.isAlphanum || c = '_'

/-- The grave accent. -/
def backquote : Char := Char.ofNat 96

/-- The quotes around an identifier. -/
def quotes : List (Char × Char) := [('"', '"'), (backquote, backquote), ('[', ']')]

def isSymbol (c : Char) : Bool := c = '(' || c = ')' || c = ',' || c = ';' || c = '=' || c = '<' || c.isDigit

/-! ## The tokenizer -/

inductive DdlToken
  | word (s : String)
  | stringLiteral (s : String)
  | symbol (c : Char)
  deriving DecidableEq, Repr

/-- `to_ascii_lowercase` of a word. -/
def lowercase (cs : List Char) : String := String.ofList (cs.map Char.toLower)

/-- What stands before the closing quote, and what follows it. A quote written twice is one in the
text, but for brackets. -/
def scanQuoted (closing : Char) : List Char → Option (List Char × List Char)
  | [] => none
  | next :: rest =>
    if next = closing then
      match rest with
      | [] => some ([], [])
      | next' :: rest' =>
        if closing ≠ ']' ∧ next' = closing then
          (scanQuoted closing rest').map fun found => (closing :: found.1, found.2)
        else some ([], next' :: rest')
    else (scanQuoted closing rest).map fun found => (next :: found.1, found.2)

/-- One round of the tokenizer : a token, or white space, and what follows. -/
def nextToken (ch : Char) (rest : List Char) : Except String (Option DdlToken × List Char) :=
  if isWhitespace ch then .ok (none, rest)
  else if startsWord ch then
    .ok (some (.word (lowercase (ch :: rest.takeWhile isWordChar))), rest.dropWhile isWordChar)
  else if ch = '"' ∨ ch = backquote ∨ ch = '[' then
    match scanQuoted (if ch = '[' then ']' else ch) rest with
    | none => .error "unterminated quoted identifier"
    | some (identifier, rest) =>
      if identifier.isEmpty ∨ ¬identifier.all isWordChar then .error "unsupported quoted identifier"
      else .ok (some (.word (lowercase identifier)), rest)
  else if ch = '\'' then
    match scanQuoted '\'' rest with
    | none => .error "unterminated string literal"
    | some (value, rest) => .ok (some (.stringLiteral (String.ofList value)), rest)
  else if isSymbol ch then .ok (some (.symbol ch), rest)
  else .error "unsupported token in table DDL"

/-- At most `n` rounds. Each takes a character at least, so as many as there are do. -/
def tokenizeLoop : (n : ℕ) → List Char → Except String (List DdlToken)
  | _, [] => .ok []
  | 0, _ :: _ => .error "unsupported token in table DDL"
  | n + 1, ch :: rest => do
    let (token, rest) ← nextToken ch rest
    let tokens ← tokenizeLoop n rest
    return token.toList ++ tokens

def tokenize (sql : String) : Except String (List DdlToken) :=
  tokenizeLoop sql.toList.length sql.toList

/-! ## The validation -/

def DdlToken.word? : DdlToken → Option String
  | .word s => some s
  | _ => none

def words (tokens : List DdlToken) : List String := tokens.filterMap DdlToken.word?

def useValueCheckSql : String :=
  "check (typeof(last_used_us) = 'integer' and last_used_us < 4611686018427387904)"

def forbiddenWords : List String :=
  ["as", "check", "collate", "constraint", "deferrable", "generated", "match", "strict", "virtual",
    "without"]

/-- Whether the constraints of the words are those of the table. -/
def constraintsFit (tableName : String) (words : List String) : Bool :=
  let files := decide (tableName = "files")
  let payloads := decide (tableName = "payloads")
  let idContract :=
    if files then ["id", "integer", "primary", "key", "autoincrement"]
    else ["file_id", "integer", "primary", "key", ""]
  decide (idContract.take 4 <:+: words) && (!files || decide (idContract <:+: words)) &&
    words.count "primary" == 1 && words.count "key" == (if files then 1 else 2) &&
    words.count "autoincrement" == files.toNat && words.count "unique" == files.toNat &&
    words.count "foreign" == payloads.toNat && words.count "references" == payloads.toNat

/-- Refuse the table for a reason. -/
def refuseIf (physicalVersion : ℤ) (bad : Bool) (reason : String) : Except SchemaError Unit :=
  if bad then .error (unrecognized physicalVersion reason) else .ok ()

/-- The constraint on the use value, compared as tokens. -/
def validateUseCheck (physicalVersion : ℤ) (tokens : List DdlToken) : Except SchemaError Unit := do
  let expected ← (tokenize useValueCheckSql).mapError (unrecognized 0)
  refuseIf physicalVersion (decide ((words tokens).count "check" ≠ 1) || !decide (expected <:+: tokens))
    "the use value constraint is missing or different"

def validateTableDdl (sql tableName : String) (physicalVersion : ℤ) (version : ℕ) :
    Except SchemaError Unit := do
  let tokens ← (tokenize sql).mapError (unrecognized physicalVersion)
  let words := words tokens
  let expectsUseCheck := decide (6 ≤ version ∧ tableName = "files")
  refuseIf physicalVersion (decide (words.take 3 ≠ ["create", "table", tableName]))
    "unsupported table DDL prefix"
  (if expectsUseCheck then validateUseCheck physicalVersion tokens else .ok ())
  refuseIf physicalVersion
    (forbiddenWords.any fun forbidden =>
      words.contains forbidden && !(forbidden == "check" && expectsUseCheck))
    "unsupported table DDL grammar"
  refuseIf physicalVersion (decide (["on", "conflict"] <:+: words)) "non-released constraint conflict policy"
  refuseIf physicalVersion (!constraintsFit tableName words) "table DDL constraint mismatch"
  refuseIf physicalVersion
    (decide (tableName = "payloads" ∧ (¬["foreign", "key", "file_id"] <:+: words ∨
      ¬["references", "files", "id"] <:+: words ∨ ¬["on", "delete", "cascade"] <:+: words)))
    "payload foreign-key DDL mismatch"

/-! ## The lexical grammar -/

/-- A character of a quoted text, as it is written. -/
def escapeQuote (closing c : Char) : List Char := if closing ≠ ']' ∧ c = closing then [c, c] else [c]

/-- The first token of a text, or its white space, and what follows. -/
inductive Lexeme : List Char → Option DdlToken → List Char → Prop
  | space {c : Char} (text : List Char) (h : isWhitespace c = true) : Lexeme (c :: text) none text
  | bare {c : Char} {cs text : List Char} (hc : startsWord c = true)
      (hcs : ∀ d ∈ cs, isWordChar d = true) (hend : ∀ d ∈ text.head?, isWordChar d = false) :
      Lexeme (c :: (cs ++ text)) (some (.word (lowercase (c :: cs)))) text
  | quoted {opening closing : Char} {cs text : List Char} (hquotes : (opening, closing) ∈ quotes)
      (hne : cs ≠ []) (hcs : ∀ d ∈ cs, isWordChar d = true)
      (hend : closing ≠ ']' → text.head? ≠ some closing) :
      Lexeme (opening :: (cs ++ closing :: text)) (some (.word (lowercase cs))) text
  | literal (value : List Char) {text : List Char} (hend : text.head? ≠ some '\'') :
      Lexeme ('\'' :: (value.flatMap (escapeQuote '\'') ++ '\'' :: text))
        (some (.stringLiteral (String.ofList value))) text
  | symbol {c : Char} (text : List Char) (h : isSymbol c = true) :
      Lexeme (c :: text) (some (.symbol c)) text

/-- The tokens of a text. -/
inductive Spells : List Char → List DdlToken → Prop
  | done : Spells [] []
  | next {text rest : List Char} {token : Option DdlToken} {tokens : List DdlToken}
      (first : Lexeme text token rest) (others : Spells rest tokens) :
      Spells text (token.toList ++ tokens)

section Lexing

variable {closing c ch : Char} {cs value text rest rest' : List Char} {token : Option DdlToken}
  {tokens : List DdlToken}

theorem startsWord_cases (h : startsWord c = true) :
    65 ≤ c.val.toNat ∧ c.val.toNat ≤ 90 ∨ 97 ≤ c.val.toNat ∧ c.val.toNat ≤ 122 ∨ c = '_' := by
  have hletters : (decide (c.val ≥ 'A'.val ∧ c.val ≤ 'Z'.val) ||
      decide (c.val ≥ 'a'.val) && decide (c.val ≤ 'z'.val) || decide (c = '_')) = true := h
  simp only [Bool.or_eq_true, Bool.and_eq_true, decide_eq_true_eq] at hletters
  rcases hletters with (hupper | hlower) | hline
  · exact Or.inl hupper
  · exact Or.inr (Or.inl hlower)
  · exact Or.inr (Or.inr hline)

/-- No character is of two of the classes the tokenizer tells apart. -/
theorem not_isWhitespace_of_startsWord (h : startsWord c = true) : isWhitespace c = false := by
  by_contra hspace
  simp only [isWhitespace, Bool.not_eq_false, Bool.or_eq_true, Bool.and_eq_true, decide_eq_true_eq,
    Char.toNat] at hspace
  rcases startsWord_cases h with hupper | hlower | rfl
  · omega
  · omega
  · exact absurd hspace (by decide)

theorem classes_of_isSymbol (h : isSymbol c = true) : isWhitespace c = false ∧ startsWord c = false ∧
    ¬(c = '"' ∨ c = backquote ∨ c = '[') ∧ c ≠ '\'' := by
  simp only [isSymbol, Bool.or_eq_true, decide_eq_true_eq] at h
  rcases h with (((((rfl | rfl) | rfl) | rfl) | rfl) | rfl) | hdigit
  iterate 6 exact by decide
  simp only [Char.isDigit, Bool.and_eq_true, decide_eq_true_eq] at hdigit
  have h₁ : 48 ≤ c.val.toNat := hdigit.1
  have h₂ : c.val.toNat ≤ 57 := hdigit.2
  have hne : ∀ d : Char, (d.val.toNat < 48 ∨ 57 < d.val.toNat) → c ≠ d := by
    rintro d hd rfl
    omega
  refine ⟨?_, ?_, ?_, hne _ (by decide)⟩
  · by_contra hspace
    simp only [isWhitespace, Bool.not_eq_false, Bool.or_eq_true, Bool.and_eq_true, decide_eq_true_eq,
      Char.toNat] at hspace
    omega
  · by_contra hword
    rw [Bool.not_eq_false] at hword
    rcases startsWord_cases hword with hupper | hlower | hline
    · omega
    · omega
    · exact hne _ (by decide) hline
  · rintro (h | h | h)
    · exact hne _ (by decide) h
    · exact hne _ (by decide) h
    · exact hne _ (by decide) h

/-! ## Quoted texts -/

theorem flatMap_escapeQuote_of_notMem (h : closing ∉ value) :
    value.flatMap (escapeQuote closing) = value := by
  induction value with
  | nil => rfl
  | cons d ds ih =>
    rw [List.mem_cons, not_or] at h
    rw [List.flatMap_cons, ih h.2, escapeQuote, if_neg fun hd => h.1 hd.2.symm]
    rfl

theorem scanQuoted_escape (hbracket : closing = ']' → closing ∉ value)
    (hend : closing ≠ ']' → rest.head? ≠ some closing) :
    scanQuoted closing (value.flatMap (escapeQuote closing) ++ closing :: rest) = some (value, rest) := by
  induction value with
  | nil =>
    rw [List.flatMap_nil, List.nil_append]
    cases rest with
    | nil => rw [scanQuoted, if_pos rfl]
    | cons d ds =>
      rw [scanQuoted, if_pos rfl]
      exact if_neg fun hd => hend hd.1 (by rw [hd.2]; rfl)
  | cons d ds ih =>
    have hrest := ih fun hb hmem => hbracket hb (List.mem_cons_of_mem _ hmem)
    rw [List.flatMap_cons, List.append_assoc, escapeQuote]
    split_ifs with hd
    · obtain ⟨hb, rfl⟩ := hd
      rw [List.cons_append, List.cons_append, List.nil_append, scanQuoted, if_pos rfl, if_pos ⟨hb, rfl⟩, hrest]
      rfl
    · have hne : d ≠ closing := fun hdc => by
        by_cases hb : closing = ']'
        · exact hbracket hb (by rw [hdc]; exact List.mem_cons_self)
        · exact hd ⟨hb, hdc⟩
      rw [List.cons_append, List.nil_append, scanQuoted.eq_def]
      dsimp only
      rw [if_neg hne, hrest]
      rfl

theorem scanQuoted_spec : ∀ {text value rest : List Char}, scanQuoted closing text = some (value, rest) →
    text = value.flatMap (escapeQuote closing) ++ closing :: rest ∧
      (closing ≠ ']' → rest.head? ≠ some closing)
  | [], value, rest, h => by simp [scanQuoted] at h
  | next :: text, value, rest, h => by
    rw [scanQuoted.eq_def] at h
    dsimp only at h
    by_cases hnext : next = closing
    · rw [if_pos hnext] at h
      obtain rfl := hnext.symm
      cases text with
      | nil =>
        obtain ⟨rfl, rfl⟩ := Prod.mk.inj (Option.some.inj h)
        exact ⟨rfl, fun _ => by simp⟩
      | cons next' text =>
        dsimp only at h
        by_cases hdouble : closing ≠ ']' ∧ next' = closing
        · rw [if_pos hdouble] at h
          obtain ⟨⟨value', rest'⟩, hfound, heq⟩ := Option.map_eq_some_iff.mp h
          obtain ⟨rfl, rfl⟩ := Prod.mk.inj heq
          obtain ⟨htext, hend⟩ := scanQuoted_spec hfound
          refine ⟨?_, hend⟩
          rw [List.flatMap_cons, escapeQuote, if_pos ⟨hdouble.1, rfl⟩, hdouble.2, htext]
          rfl
        · rw [if_neg hdouble] at h
          obtain ⟨rfl, rfl⟩ := Prod.mk.inj (Option.some.inj h)
          refine ⟨rfl, fun hb hhead => hdouble ⟨hb, Option.some.inj hhead⟩⟩
    · rw [if_neg hnext] at h
      obtain ⟨⟨value', rest'⟩, hfound, heq⟩ := Option.map_eq_some_iff.mp h
      obtain ⟨rfl, rfl⟩ := Prod.mk.inj heq
      obtain ⟨htext, hend⟩ := scanQuoted_spec hfound
      refine ⟨?_, hend⟩
      rw [List.flatMap_cons, escapeQuote, if_neg fun hd => hnext hd.2, htext]
      rfl

/-! ## The tokenizer finds the tokens a text spells -/

theorem closing_of_quotes {opening : Char} (h : (opening, closing) ∈ quotes) :
    (if opening = '[' then ']' else opening) = closing ∧ isWordChar closing = false ∧
      isWhitespace opening = false ∧ startsWord opening = false ∧
      (opening = '"' ∨ opening = backquote ∨ opening = '[') := by
  simp only [quotes, List.mem_cons, Prod.mk.injEq, List.not_mem_nil, or_false] at h
  rcases h with ⟨rfl, rfl⟩ | ⟨rfl, rfl⟩ | ⟨rfl, rfl⟩ <;> decide

theorem mem_quotes (h : ch = '"' ∨ ch = backquote ∨ ch = '[') :
    (ch, if ch = '[' then ']' else ch) ∈ quotes := by
  rcases h with rfl | rfl | rfl <;> decide

theorem takeWhile_isWordChar (hcs : ∀ d ∈ cs, isWordChar d = true)
    (hend : ∀ d ∈ rest.head?, isWordChar d = false) :
    (cs ++ rest).takeWhile isWordChar = cs ∧ (cs ++ rest).dropWhile isWordChar = rest := by
  rw [List.takeWhile_append_of_pos hcs, List.dropWhile_append_of_pos hcs]
  cases rest with
  | nil => simp
  | cons d ds =>
    have hd := hend d rfl
    rw [List.takeWhile_cons_of_neg (by simp [hd]), List.dropWhile_cons_of_neg (by simp [hd])]
    simp

theorem lexeme_of_nextToken (h : nextToken ch rest = .ok (token, rest')) :
    Lexeme (ch :: rest) token rest' := by
  unfold nextToken at h
  by_cases hspace : isWhitespace ch = true
  · rw [if_pos hspace] at h
    obtain ⟨rfl, rfl⟩ := Prod.mk.inj (Except.ok.inj h)
    exact .space _ hspace
  rw [if_neg hspace] at h
  by_cases hword : startsWord ch = true
  · rw [if_pos hword] at h
    obtain ⟨rfl, rfl⟩ := Prod.mk.inj (Except.ok.inj h)
    have hsplit := List.takeWhile_append_dropWhile (p := isWordChar) (l := rest)
    have hlexeme : Lexeme (ch :: (rest.takeWhile isWordChar ++ rest.dropWhile isWordChar)) _ _ :=
      .bare hword (List.all_eq_true.mp List.all_takeWhile) fun d hd => by
        have hnot := List.head?_dropWhile_not isWordChar rest
        rw [Option.mem_def.mp hd] at hnot
        simpa using hnot
    rwa [hsplit] at hlexeme
  rw [if_neg hword] at h
  by_cases hquote : ch = '"' ∨ ch = backquote ∨ ch = '['
  · rw [if_pos hquote] at h
    generalize hclosing : (if ch = '[' then ']' else ch) = closing at h
    have hmem : (ch, closing) ∈ quotes := hclosing ▸ mem_quotes hquote
    cases hscan : scanQuoted closing rest with
    | none =>
      rw [hscan] at h
      cases h
    | some found =>
      obtain ⟨identifier, after⟩ := found
      rw [hscan] at h
      dsimp only at h
      split_ifs at h with hbad
      obtain ⟨rfl, rfl⟩ := Prod.mk.inj (Except.ok.inj h)
      rw [not_or, not_not, List.all_eq_true, List.isEmpty_iff] at hbad
      obtain ⟨rfl, hend⟩ := scanQuoted_spec hscan
      have hnot : closing ∉ identifier := fun hin => by
        have := hbad.2 closing hin
        simp [(closing_of_quotes hmem).2.1] at this
      rw [flatMap_escapeQuote_of_notMem hnot]
      exact .quoted hmem hbad.1 hbad.2 hend
  rw [if_neg hquote] at h
  by_cases hliteral : ch = '\''
  · rw [if_pos hliteral] at h
    cases hscan : scanQuoted '\'' rest with
    | none =>
      rw [hscan] at h
      cases h
    | some found =>
      obtain ⟨value, after⟩ := found
      rw [hscan] at h
      obtain ⟨rfl, rfl⟩ := Prod.mk.inj (Except.ok.inj h)
      obtain ⟨rfl, hend⟩ := scanQuoted_spec hscan
      rw [hliteral]
      exact .literal value (hend (by decide))
  rw [if_neg hliteral] at h
  split_ifs at h with hsymbol
  obtain ⟨rfl, rfl⟩ := Prod.mk.inj (Except.ok.inj h)
  exact .symbol _ hsymbol

theorem nextToken_of_lexeme (h : Lexeme (ch :: rest) token rest') :
    nextToken ch rest = .ok (token, rest') := by
  cases h with
  | space _ hspace => rw [nextToken, if_pos hspace]
  | bare hc hcs hend =>
    obtain ⟨htake, hdrop⟩ := takeWhile_isWordChar hcs hend
    rw [nextToken, if_neg (by simp [not_isWhitespace_of_startsWord hc]), if_pos hc, htake, hdrop]
  | @quoted _ closing cs _ hquotes hne hcs hend =>
    obtain ⟨hclosing, hword, hspace, hstart, hquote⟩ := closing_of_quotes hquotes
    have hnot : closing ∉ cs := fun hin => by
      have := hcs closing hin
      simp [hword] at this
    have hscan : scanQuoted closing (cs ++ closing :: rest') = some (cs, rest') := by
      have hescape := scanQuoted_escape (fun _ => hnot) hend
      rwa [flatMap_escapeQuote_of_notMem hnot] at hescape
    have hgood : ¬(cs.isEmpty = true ∨ ¬cs.all isWordChar = true) := by
      rw [not_or, not_not, List.all_eq_true, List.isEmpty_iff]
      exact ⟨hne, hcs⟩
    rw [nextToken, if_neg (by simp [hspace]), if_neg (by simp [hstart]), if_pos hquote, hclosing, hscan]
    exact if_neg hgood
  | literal value hend =>
    rw [nextToken, if_neg (by decide), if_neg (by decide), if_neg (by decide), if_pos rfl,
      scanQuoted_escape (fun h => absurd h (by decide)) fun _ => hend]
  | symbol _ hsymbol =>
    obtain ⟨hspace, hstart, hquote, hliteral⟩ := classes_of_isSymbol hsymbol
    rw [nextToken, if_neg (by simp [hspace]), if_neg (by simp [hstart]), if_neg hquote, if_neg hliteral,
      if_pos hsymbol]

/-- A lexeme takes a character at least. -/
theorem Lexeme.length_lt {text : List Char} (h : Lexeme text token rest) : rest.length < text.length := by
  cases h <;> simp <;> omega

theorem tokenizeLoop_eq_ok_iff : ∀ {n : ℕ} {text : List Char} {tokens : List DdlToken},
    text.length ≤ n → (tokenizeLoop n text = .ok tokens ↔ Spells text tokens)
  | n, [], tokens, _ => by
    have hnil : tokenizeLoop n [] = .ok [] := by cases n <;> rfl
    rw [hnil]
    constructor
    · intro h
      obtain rfl := Except.ok.inj h
      exact .done
    · intro h
      cases h with
      | done => rfl
      | next first others => cases first
  | 0, _ :: _, _, hlength => by simp at hlength
  | n + 1, ch :: rest, tokens, hlength => by
    rw [List.length_cons] at hlength
    constructor
    · intro h
      rw [tokenizeLoop] at h
      cases hnext : nextToken ch rest with
      | error e =>
        rw [hnext] at h
        cases h
      | ok found =>
        obtain ⟨token, rest'⟩ := found
        have hlexeme := lexeme_of_nextToken hnext
        have hshort := hlexeme.length_lt
        rw [List.length_cons] at hshort
        rw [hnext] at h
        cases hloop : tokenizeLoop n rest' with
        | error e =>
          simp [hloop, bind, Except.bind] at h
        | ok tokens' =>
          simp only [hloop, bind, Except.bind, pure, Except.pure] at h
          obtain rfl := Except.ok.inj h
          exact .next hlexeme ((tokenizeLoop_eq_ok_iff (by omega)).mp hloop)
    · intro h
      cases h with
      | next first others =>
        have hshort := first.length_lt
        rw [List.length_cons] at hshort
        have hloop := (tokenizeLoop_eq_ok_iff (n := n) (by omega)).mpr others
        rw [tokenizeLoop, nextToken_of_lexeme first]
        simp only [bind, Except.bind, hloop, pure, Except.pure]

/-- The tokenizer finds exactly the tokens a text spells; it fails on a text that spells none. -/
theorem tokenize_eq_ok_iff {sql : String} : tokenize sql = .ok tokens ↔ Spells sql.toList tokens :=
  tokenizeLoop_eq_ok_iff le_rfl

end Lexing

/-! ## What a valid table says -/

section Validation

variable {sql tableName : String} {physicalVersion : ℤ} {version : ℕ} {tokens : List DdlToken}

/-- What a validation that succeeds did first. -/
theorem ok_of_bind {ε α β : Type} {x : Except ε α} {f : α → Except ε β} {b : β}
    (h : (x >>= f) = .ok b) : ∃ a, x = .ok a ∧ f a = .ok b := by
  cases x with
  | error e => cases h
  | ok a => exact ⟨a, rfl, h⟩

theorem not_bad_of_refuseIf {bad : Bool} {reason : String} (h : refuseIf physicalVersion bad reason = .ok ()) :
    bad = false := by
  unfold refuseIf at h
  split_ifs at h with hbad
  simpa using hbad

theorem spells_of_tokenize (h : tokenize sql = .ok tokens) : Spells sql.toList tokens :=
  (tokenizeLoop_eq_ok_iff le_rfl).mp h

theorem tokenize_of_spells (h : Spells sql.toList tokens) : tokenize sql = .ok tokens :=
  (tokenizeLoop_eq_ok_iff le_rfl).mpr h

/-- Tables with the same tokens are both valid, or neither, with the same error. -/
theorem validateTableDdl_spelling {sql' : String} (h : Spells sql.toList tokens)
    (h' : Spells sql'.toList tokens) (tableName : String) (physicalVersion : ℤ) (version : ℕ) :
    validateTableDdl sql tableName physicalVersion version =
      validateTableDdl sql' tableName physicalVersion version := by
  unfold validateTableDdl
  rw [tokenize_of_spells h, tokenize_of_spells h']

/-- The tokens of the constraint on the use value. -/
def useCheckTokens : List DdlToken :=
  [.word "check", .symbol '(', .word "typeof", .symbol '(', .word "last_used_us", .symbol ')',
    .symbol '=', .stringLiteral "integer", .word "and", .word "last_used_us", .symbol '<'] ++
    "4611686018427387904".toList.map .symbol ++ [.symbol ')']

theorem tokenize_useValueCheckSql : tokenize useValueCheckSql = .ok useCheckTokens := by decide +kernel

theorem mem_words {w : String} : w ∈ words tokens ↔ .word w ∈ tokens := by
  rw [words, List.mem_filterMap]
  constructor
  · rintro ⟨token, hmem, hword⟩
    cases token with
    | word s => exact Option.some.inj hword ▸ hmem
    | stringLiteral s => cases hword
    | symbol c => cases hword
  · exact fun h => ⟨_, h, rfl⟩

/-- If a text has one `check` and contains the constraint on the use value, this is it. -/
theorem useCheck_of_count (hcount : (words tokens).count "check" = 1) (hinside : useCheckTokens <:+: tokens) :
    ∃ before after, tokens = before ++ useCheckTokens ++ after ∧
      .word "check" ∉ before ∧ .word "check" ∉ after := by
  obtain ⟨before, after, rfl⟩ := hinside
  have hone : (words useCheckTokens).count "check" = 1 := by decide +kernel
  have hsum : (words before).count "check" + 1 + (words after).count "check" = 1 := by
    rw [words, List.filterMap_append, List.filterMap_append, List.count_append, List.count_append] at hcount
    rw [← hone]
    exact hcount
  refine ⟨before, after, rfl, ?_, ?_⟩
  · rw [← mem_words, ← List.count_eq_zero]
    omega
  · rw [← mem_words, ← List.count_eq_zero]
    omega

/-- A valid table of version 6 has one `CHECK`, the constraint on the use value; any other valid
table has none, and none has a word that would say something else about it. -/
theorem useCheck_of_validateTableDdl
    (h : validateTableDdl sql tableName physicalVersion version = .ok ()) :
    ∃ tokens, Spells sql.toList tokens ∧
      (6 ≤ version ∧ tableName = "files" → ∃ before after, tokens = before ++ useCheckTokens ++ after ∧
        .word "check" ∉ before ∧ .word "check" ∉ after) ∧
      ∀ w ∈ forbiddenWords, (w = "check" → ¬(6 ≤ version ∧ tableName = "files")) → .word w ∉ tokens := by
  unfold validateTableDdl at h
  obtain ⟨tokens, htokens, h⟩ := ok_of_bind h
  obtain ⟨-, -, h⟩ := ok_of_bind h
  obtain ⟨_, hcheck, h⟩ := ok_of_bind h
  obtain ⟨_, hforbidden, -⟩ := ok_of_bind h
  have htokenize : tokenize sql = .ok tokens := by
    cases hresult : tokenize sql with
    | error reason => simp [hresult, Except.mapError] at htokens
    | ok tokens' =>
      rw [hresult] at htokens
      rw [Except.ok.inj htokens]
  refine ⟨tokens, spells_of_tokenize htokenize, fun hfiles => ?_, fun w hw hwcheck hmem => ?_⟩
  · rw [if_pos (by simpa using hfiles), validateUseCheck, tokenize_useValueCheckSql] at hcheck
    have hfits := not_bad_of_refuseIf hcheck
    simp only [Bool.or_eq_false_iff, decide_eq_false_iff_not, not_not, Bool.not_eq_false',
      decide_eq_true_eq] at hfits
    exact useCheck_of_count hfits.1 hfits.2
  · have hnone := List.any_eq_false.mp (not_bad_of_refuseIf hforbidden) w hw
    refine hnone ?_
    rw [Bool.and_eq_true, List.contains_iff_mem, mem_words]
    refine ⟨hmem, ?_⟩
    by_cases hc : w = "check"
    · simp only [hc, beq_self_eq_true, Bool.true_and, Bool.not_eq_true', decide_eq_false_iff_not]
      exact hwcheck hc
    · simp [hc]

/-! ## The tables `create_fresh` makes -/

/-- A text of several lines. -/
def linesText (lines : List String) : String := String.ofList (lines.flatMap String.toList)

def filesDdl : String := linesText [
  "CREATE TABLE files (\n",
  "            id                INTEGER PRIMARY KEY AUTOINCREMENT,\n",
  "            namespace         TEXT    NOT NULL DEFAULT 'default',\n",
  "            path              TEXT    NOT NULL,\n",
  "            mtime             INTEGER NOT NULL,\n",
  "            file_size         INTEGER NOT NULL,\n",
  "            hash              TEXT,\n",
  "            updated_at        INTEGER NOT NULL,\n",
  "            payload_version   INTEGER NOT NULL DEFAULT 0,\n",
  "            last_used_us      INTEGER NOT NULL DEFAULT 0\n",
  "                CHECK (typeof(last_used_us) = 'integer'\n",
  "                       AND last_used_us < 4611686018427387904),\n",
  "            UNIQUE(namespace, path)\n",
  "        )"]

def payloadsDdl : String := linesText [
  "CREATE TABLE payloads (\n",
  "            file_id  INTEGER PRIMARY KEY,\n",
  "            content  BLOB    NOT NULL,\n",
  "            encoding TEXT    NOT NULL DEFAULT 'raw',\n",
  "            FOREIGN KEY(file_id) REFERENCES files(id) ON DELETE CASCADE\n",
  "        )"]

theorem tokenize_linesText (lines : List String) : tokenize (linesText lines) =
    tokenizeLoop (lines.flatMap String.toList).length (lines.flatMap String.toList) := by
  rw [tokenize, linesText, String.toList_ofList]

theorem validateTableDdl_filesDdl : validateTableDdl filesDdl "files" 6 6 = .ok () := by
  rw [validateTableDdl, filesDdl, tokenize_linesText]
  decide +kernel

example : validateTableDdl payloadsDdl "payloads" 6 6 = .ok () := by
  rw [validateTableDdl, payloadsDdl, tokenize_linesText]
  decide +kernel

theorem useCheck_of_validateTableDdl_filesDdl : ∃ before after,
    Spells filesDdl.toList (before ++ useCheckTokens ++ after) ∧
      .word "check" ∉ before ∧ .word "check" ∉ after := by
  obtain ⟨tokens, hspells, hcheck, -⟩ := useCheck_of_validateTableDdl validateTableDdl_filesDdl
  obtain ⟨before, after, rfl, hrest⟩ := hcheck ⟨le_rfl, rfl⟩
  exact ⟨before, after, hspells, hrest⟩

end Validation

end LocalCache
