import LocalCache.Repository
import LocalCache.Traced

/-!
# Globs

`compile` parses a pattern and expands its braces : each of the alternatives is a list of tokens,
and a candidate matches if one of them does. The parser, whose cursor is the list of the
characters left, and the matcher, whose cursors go back to the last star, take fuel, and give
`none` when it runs out. The expansion lists every list of alternatives it builds.
-/

namespace LocalCache

namespace Glob

def maxPatternBytes : ℕ := 16384

def maxBraceDepth : ℕ := 32

def maxAlternatives : ℕ := 256

def nul : Char := Char.ofNat 0

def malformedError : Error := .invalidArgument "path_glob" "malformed brace syntax"

def safetyError : Error := .invalidArgument "path_glob" "safety limit exceeded"

inductive Token
  | anySequence
  | anyScalar
  | literal (c : Char)
  deriving DecidableEq, Repr

/-- `Part`. A `Sequence` is a list of parts. -/
inductive Part
  | token (t : Token)
  | group (branches : List (List Part))

/-- The alternatives of a pattern, each a list of tokens. -/
abbrev Alternatives := List (List Token)

/-! ## Parsing -/

/-- A parser over the characters left, which fails with an error, or with `none` for want of
fuel. -/
abbrev Parsing := StateExcept (List Char) (Option Error)

/-- The token of a character outside the brace syntax. -/
def tokenOf (ch : Char) : Token :=
  if ch = '*' then .anySequence else if ch = '?' then .anyScalar else .literal ch

mutual

/-- `parse_sequence`. -/
def parseSequence : (fuel depth : ℕ) → (insideGroup : Bool) → Parsing (List Part)
  | 0, _, _, _ => .error none
  | _ + 1, _, _, [] => .ok ([], [])
  | fuel + 1, depth, insideGroup, ch :: chars =>
    if ch = '}' then
      if insideGroup then .ok ([], ch :: chars) else .error (some malformedError)
    else if ch = ',' ∧ insideGroup then .ok ([], ch :: chars)
    else if ch = '{' then
      if maxBraceDepth ≤ depth then .error (some safetyError)
      else
        (do
          let alternatives ← parseGroup fuel depth
          let sequence ← parseSequence fuel depth insideGroup
          pure (.group alternatives :: sequence) : Parsing (List Part)) chars
    else
      (do
        let sequence ← parseSequence fuel depth insideGroup
        pure (.token (tokenOf ch) :: sequence) : Parsing (List Part)) chars

/-- The branches of a group, after its brace. -/
def parseGroup : (fuel depth : ℕ) → Parsing (List (List Part))
  | 0, _, _ => .error none
  | fuel + 1, depth, chars =>
    match parseSequence fuel (depth + 1) true chars with
    | .error err => .error err
    | .ok (branch, ',' :: chars) =>
      (do
        let alternatives ← parseGroup fuel depth
        pure (branch :: alternatives) : Parsing (List (List Part))) chars
    | .ok (branch, '}' :: chars) => .ok ([branch], chars)
    | .ok (_, _) => .error (some malformedError)

end

/-- `Parser::parse`. -/
def parse (fuel : ℕ) (chars : List Char) : Except (Option Error) (List Part) :=
  match parseSequence fuel 0 false chars with
  | .error err => .error err
  | .ok (sequence, []) => .ok sequence
  | .ok (_, _ :: _) => .error (some malformedError)

/-! ## Expanding braces -/

/-- A computation of alternatives, with the lists of them that it built. -/
abbrev Expanding := Traced Unit Error Alternatives Alternatives

/-- A list of alternatives that is built. -/
def built (alternatives : Alternatives) : Expanding :=
  fun _ => (.ok (alternatives, ()), [alternatives])

/-- `push_token`. -/
def pushToken (tokens : List Token) (token : Token) : List Token :=
  if token = .anySequence ∧ tokens.getLast? = some .anySequence then tokens else tokens ++ [token]

/-- Every prefix with every suffix after it. -/
def combine (expanded groupExpanded : Alternatives) : Alternatives :=
  expanded.flatMap fun before => groupExpanded.map fun suffix => suffix.foldl pushToken before

mutual

/-- `expand_sequence`, from what its first parts gave. -/
def expandParts : List Part → Alternatives → Expanding
  | [], expanded => pure expanded
  | part :: sequence, expanded => do
    let expanded ← expandPart part expanded
    expandParts sequence expanded

/-- One part, after what came before it. -/
def expandPart : Part → Alternatives → Expanding
  | .token t, expanded => built (expanded.map fun alternative => pushToken alternative t)
  | .group group, expanded => do
    let groupExpanded ← expandGroup group []
    if maxAlternatives < expanded.length * groupExpanded.length then Traced.fail safetyError
    else built (combine expanded groupExpanded)

/-- The branches of a group, after those before them. -/
def expandGroup : List (List Part) → Alternatives → Expanding
  | [], groupExpanded => pure groupExpanded
  | branch :: group, groupExpanded => do
    let expanded ← built [[]]
    let branchExpanded ← expandParts branch expanded
    if maxAlternatives < groupExpanded.length + branchExpanded.length then Traced.fail safetyError
    else do
      let groupExpanded ← built (groupExpanded ++ branchExpanded)
      expandGroup group groupExpanded

end

/-- `expand_sequence`. -/
def expandSequence (sequence : List Part) : Expanding := do
  let expanded ← built [[]]
  expandParts sequence expanded

/-! ## Matching -/

/-- The cursors of `matches_tokens`. -/
structure Cursors where
  pattern : ℕ
  candidate : ℕ
  lastStar : Option ℕ
  retry : ℕ
  deriving DecidableEq

section Matching

variable (pattern : List Token) (candidate : List Char)

/-- What follows a character that does not fit : the last star takes one more, if there is one. -/
def Cursors.backtrack (c : Cursors) : Cursors ⊕ Bool :=
  match c.lastStar with
  | none => .inr false
  | some star => .inl ⟨star + 1, c.retry + 1, some star, c.retry + 1⟩

/-- One round of the loop of `matches_tokens`, and what comes after it. -/
def Cursors.step (c : Cursors) : Cursors ⊕ Bool :=
  match candidate[c.candidate]? with
  | none => .inr ((pattern.drop c.pattern).dropWhile (· = .anySequence)).isEmpty
  | some ch =>
    match pattern[c.pattern]? with
    | some (.literal expected) =>
      if expected = ch then .inl { c with pattern := c.pattern + 1, candidate := c.candidate + 1 }
      else c.backtrack
    | some .anyScalar =>
      .inl { c with pattern := c.pattern + 1, candidate := c.candidate + 1 }
    | some .anySequence =>
      .inl ⟨c.pattern + 1, c.candidate, some c.pattern, c.candidate⟩
    | none => c.backtrack

def matchesFrom : (fuel : ℕ) → Cursors → Option Bool
  | 0, _ => none
  | fuel + 1, c =>
    match c.step pattern candidate with
    | .inl c => matchesFrom fuel c
    | .inr matched => some matched

/-- `matches_tokens`. -/
def matchesTokens (fuel : ℕ) : Option Bool := matchesFrom pattern candidate fuel ⟨0, 0, none, 0⟩

end Matching

/-! ## A compiled glob -/

/-- The text of a token for SQLite : a bracket is a class of its own. -/
def sqliteToken : Token → List Char
  | .anySequence => ['*']
  | .anyScalar => ['?']
  | .literal c => if c = '[' then ['[', '[', ']'] else [c]

/-- `sqlite_pattern`. -/
def sqlitePattern (tokens : List Token) : String := String.ofList (tokens.flatMap sqliteToken)

end Glob

open Glob

structure CompiledGlob where
  alternatives : Alternatives
  sqliteAlternatives : List String

/-- Whether one of the alternatives matches, in their order. -/
def matchesAny (candidate : List Char) (fuel : ℕ) : Alternatives → Option Bool
  | [] => some false
  | tokens :: alternatives =>
    match matchesTokens tokens candidate fuel with
    | none => none
    | some true => some true
    | some false => matchesAny candidate fuel alternatives

/-- `CompiledGlob::matches`. -/
def CompiledGlob.matches (glob : CompiledGlob) (fuel : ℕ) (candidate : String) : Option Bool :=
  matchesAny candidate.toList fuel glob.alternatives

/-- `compile`, with the lists of alternatives that the expansion built. The branches the parser kept
are no part of them. -/
def compileTraced (fuel : ℕ) (pattern : String) :
    Except (Option Error) CompiledGlob × List Alternatives :=
  if maxPatternBytes < pattern.utf8ByteSize ∨ nul ∈ pattern.toList then
    (.error (some safetyError), [])
  else
    match parse fuel pattern.toList with
    | .error err => (.error err, [])
    | .ok sequence =>
      match expandSequence sequence () with
      | (.error err, lists) => (.error (some err), lists)
      | (.ok (alternatives, ()), lists) =>
        (.ok ⟨alternatives, alternatives.map sqlitePattern⟩, lists)

/-- `compile`. -/
def compile (fuel : ℕ) (pattern : String) : Except (Option Error) CompiledGlob :=
  (compileTraced fuel pattern).1

end LocalCache
