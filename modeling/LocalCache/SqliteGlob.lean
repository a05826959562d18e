import LocalCache.GlobExpand
import LocalCache.Query
import Mathlib.Algebra.Order.BigOperators.Group.List
import Mathlib.Data.List.TakeWhile

/-!
# The globs that SQLite matches

A path filter binds each alternative of a glob to a term `path GLOB ?`. SQLite knows no braces, but
classes in brackets, so a bracket of the pattern becomes a class of its own. SQLite then matches the
paths that the compiled glob matches (`sqliteAlternatives_spec`). As each alternative uses a
character of the pattern at most once, none is longer than three times the longest pattern, which
is under SQLite's limit of 50000 bytes.
-/

namespace LocalCache

/-! ## SQLite's globs -/

namespace Sqlite

/-- What a part of a pattern stands for. -/
inductive GlobItem
  | anySequence
  | anyCharacter
  /-- The characters in some of the ranges, or in none. -/
  | charClass (negated : Bool) (ranges : List (Char × Char))
  | literal (c : Char)

def GlobItem.language : GlobItem → Language Char
  | .anySequence => ⊤
  | .anyCharacter => .letters
  | .charClass negated ranges =>
    {w | ∃ c, w = [c] ∧ (ranges.any fun r => decide (r.1 ≤ c ∧ c ≤ r.2)) ≠ negated}
  | .literal c => {[c]}

def itemsLanguage : List GlobItem → Language Char
  | [] => 1
  | item :: items => item.language * itemsLanguage items

/-- The ranges of a class up to its bracket, and what follows it. A hyphen makes a range after a
character that ends none, and before one that is not the bracket. -/
def classRanges : (prior : Option Char) → List Char → Option (List (Char × Char) × List Char)
  | _, [] => none
  | some low, '-' :: high :: rest =>
    if high = ']' then some ([('-', '-')], rest)
    else (classRanges none rest).map fun ranges => ((low, high) :: ranges.1, ranges.2)
  | _, c :: rest =>
    if c = ']' then some ([], rest)
    else (classRanges (some c) rest).map fun ranges => ((c, c) :: ranges.1, ranges.2)

/-- A class after its bracket : whether it is negated, its ranges, and what follows it. A bracket
that comes first is one of its characters. -/
def readClass (chars : List Char) : Option (GlobItem × List Char) :=
  let negated := chars.head? = some '^'
  let chars := if negated then chars.tail else chars
  let ranges := if chars.head? = some ']' then
      (classRanges none chars.tail).map fun ranges => ((']', ']') :: ranges.1, ranges.2)
    else classRanges none chars
  ranges.map fun ranges => (.charClass negated ranges.1, ranges.2)

/-- How SQLite reads a pattern. One with a class that does not end matches nothing. -/
inductive ReadsGlob : List Char → List GlobItem → Prop
  | nil : ReadsGlob [] []
  | star {rest : List Char} {items : List GlobItem} (hrest : ReadsGlob rest items) :
      ReadsGlob ('*' :: rest) (.anySequence :: items)
  | question {rest : List Char} {items : List GlobItem} (hrest : ReadsGlob rest items) :
      ReadsGlob ('?' :: rest) (.anyCharacter :: items)
  | bracket {chars rest : List Char} {item : GlobItem} {items : List GlobItem}
      (hclass : readClass chars = some (item, rest)) (hrest : ReadsGlob rest items) :
      ReadsGlob ('[' :: chars) (item :: items)
  | literal {c : Char} {rest : List Char} {items : List GlobItem}
      (hc : c ≠ '*' ∧ c ≠ '?' ∧ c ≠ '[') (hrest : ReadsGlob rest items) :
      ReadsGlob (c :: rest) (.literal c :: items)

/-- The text as SQLite sees it, which ends at the first NUL. -/
def upToNul (text : String) : List Char := text.toList.takeWhile (· ≠ Glob.nul)

/-- `path GLOB pattern`. -/
def MatchesGlob (pattern path : String) : Prop :=
  ∃ items, ReadsGlob (upToNul pattern) items ∧ upToNul path ∈ itemsLanguage items

theorem upToNul_of_not_mem {text : String} (h : Glob.nul ∉ text.toList) :
    upToNul text = text.toList := by
  refine List.takeWhile_eq_self_iff.mpr fun c hc => ?_
  rw [decide_eq_true_eq]
  rintro rfl
  exact h hc

end Sqlite

namespace Sqlite

section Reading

variable {c : Char} {rest : List Char} {items : List GlobItem}

theorem readsGlob_star : ReadsGlob ('*' :: rest) items ↔
    ∃ items', items = .anySequence :: items' ∧ ReadsGlob rest items' := by
  constructor
  · intro h
    cases h with
    | star hrest => exact ⟨_, rfl, hrest⟩
    | literal hc => exact absurd rfl hc.1
  · rintro ⟨items', rfl, h⟩
    exact .star h

theorem readsGlob_question : ReadsGlob ('?' :: rest) items ↔
    ∃ items', items = .anyCharacter :: items' ∧ ReadsGlob rest items' := by
  constructor
  · intro h
    cases h with
    | question hrest => exact ⟨_, rfl, hrest⟩
    | literal hc => exact absurd rfl hc.2.1
  · rintro ⟨items', rfl, h⟩
    exact .question h

theorem readsGlob_bracket : ReadsGlob ('[' :: rest) items ↔
    ∃ item rest' items', readClass rest = some (item, rest') ∧ items = item :: items' ∧
      ReadsGlob rest' items' := by
  constructor
  · intro h
    cases h with
    | bracket hclass hrest => exact ⟨_, _, _, hclass, rfl, hrest⟩
    | literal hc => exact absurd rfl hc.2.2
  · rintro ⟨item, rest', items', hclass, rfl, h⟩
    exact .bracket hclass h

theorem readsGlob_literal (hc : c ≠ '*' ∧ c ≠ '?' ∧ c ≠ '[') : ReadsGlob (c :: rest) items ↔
    ∃ items', items = .literal c :: items' ∧ ReadsGlob rest items' := by
  constructor
  · intro h
    cases h with
    | star => exact absurd rfl hc.1
    | question => exact absurd rfl hc.2.1
    | bracket => exact absurd rfl hc.2.2
    | literal _ hrest => exact ⟨_, rfl, hrest⟩
  · rintro ⟨items', rfl, h⟩
    exact .literal hc h

/-- A bracket in brackets is that bracket only. -/
theorem readClass_bracket (rest : List Char) :
    readClass ('[' :: ']' :: rest) = some (.charClass false [('[', '[')], rest) := rfl

end Reading

end Sqlite

namespace Glob

open Sqlite

/-! ## The text of an alternative -/

/-- A literal that stands for itself, and does not end the text. -/
def Token.plain : Token → Bool
  | .literal c => c ≠ '*' && c ≠ '?' && c ≠ nul
  | _ => true

/-- What SQLite makes of a token's text. -/
def Token.item : Token → GlobItem
  | .anySequence => .anySequence
  | .anyScalar => .anyCharacter
  | .literal c => if c = '[' then .charClass false [('[', '[')] else .literal c

theorem language_item (t : Token) : t.item.language = t.language := by
  cases t with
  | anySequence => rfl
  | anyScalar => rfl
  | literal c =>
    by_cases hc : c = '['
    · subst hc
      ext w
      have hclass : ∀ c : Char, ([(('[' : Char), ('[' : Char))].any fun r =>
          decide (r.1 ≤ c ∧ c ≤ r.2)) ≠ false ↔ c = '[' := by
        intro c
        rw [List.any_cons, List.any_nil, Bool.or_false, Bool.ne_false_iff, decide_eq_true_eq]
        exact ⟨fun h => Char.le_antisymm h.2 h.1, fun h => h ▸ ⟨Char.le_refl _, Char.le_refl _⟩⟩
      show (∃ c, w = [c] ∧ _) ↔ w = ['[']
      simp only [hclass, exists_eq_right]
    · rw [Token.item, if_neg hc]
      rfl

theorem itemsLanguage_map_item : ∀ tokens : List Token,
    itemsLanguage (tokens.map Token.item) = tokensLanguage tokens
  | [] => rfl
  | t :: tokens => by
    rw [List.map_cons, itemsLanguage, language_item, itemsLanguage_map_item tokens,
      tokensLanguage_cons]

/-- SQLite reads the text of an alternative token by token. -/
theorem readsGlob_iff : ∀ {tokens : List Token} {items : List GlobItem},
    (∀ t ∈ tokens, t.plain = true) →
      (ReadsGlob (tokens.flatMap sqliteToken) items ↔ items = tokens.map Token.item)
  | [], items, _ => by
    constructor
    · intro h
      cases h
      rfl
    · rintro rfl
      exact .nil
  | t :: tokens, items, hplain => by
    have hrest : ∀ {items}, ReadsGlob (tokens.flatMap sqliteToken) items ↔
        items = tokens.map Token.item :=
      readsGlob_iff fun t ht => hplain t (List.mem_cons_of_mem _ ht)
    cases t with
    | anySequence =>
      show ReadsGlob ('*' :: tokens.flatMap sqliteToken) items ↔ _
      simp only [readsGlob_star, hrest, exists_eq_right]
      rfl
    | anyScalar =>
      show ReadsGlob ('?' :: tokens.flatMap sqliteToken) items ↔ _
      simp only [readsGlob_question, hrest, exists_eq_right]
      rfl
    | literal c =>
      have hplain' := hplain (.literal c) List.mem_cons_self
      simp only [Token.plain, Bool.and_eq_true, decide_eq_true_eq] at hplain'
      by_cases hc : c = '['
      · subst hc
        show ReadsGlob ('[' :: '[' :: ']' :: tokens.flatMap sqliteToken) items ↔ _
        rw [readsGlob_bracket, readClass_bracket]
        constructor
        · rintro ⟨item, rest, items', hclass, rfl, h⟩
          obtain ⟨rfl, rfl⟩ := Prod.mk.inj (Option.some.inj hclass)
          rw [hrest.mp h]
          rfl
        · rintro rfl
          exact ⟨_, _, _, rfl, rfl, hrest.mpr rfl⟩
      · rw [List.flatMap_cons, List.map_cons, sqliteToken, if_neg hc, Token.item, if_neg hc]
        show ReadsGlob (c :: tokens.flatMap sqliteToken) items ↔ _
        simp only [readsGlob_literal ⟨hplain'.1.1, hplain'.1.2, hc⟩, hrest, exists_eq_right]

/-! ## The alternatives of a compiled glob -/

theorem sqliteToken_literal (c : Char) :
    sqliteToken (.literal c) = if c = '[' then ['[', '[', ']'] else [c] := rfl

theorem utf8ByteSize_ofList : ∀ chars : List Char,
    (String.ofList chars).utf8ByteSize = (chars.map Char.utf8Size).sum
  | [] => rfl
  | c :: chars => by
    rw [← List.singleton_append, String.ofList_append, String.utf8ByteSize_append,
      utf8ByteSize_ofList chars]
    simp

/-- The bytes of a token's text. -/
def tokenBytes (t : Token) : ℕ := ((sqliteToken t).map Char.utf8Size).sum

theorem utf8ByteSize_sqlitePattern (tokens : List Token) :
    (sqlitePattern tokens).utf8ByteSize = weight tokenBytes tokens := by
  rw [sqlitePattern, utf8ByteSize_ofList]
  induction tokens with
  | nil => rfl
  | cons t tokens ih =>
    rw [List.flatMap_cons, List.map_append, List.sum_append, ih]
    exact List.sum_cons.symm

theorem tokenBytes_tokenOf_le (ch : Char) : tokenBytes (tokenOf ch) ≤ 3 * ch.utf8Size := by
  have hpos := Char.utf8Size_pos ch
  unfold tokenOf
  split_ifs with hstar hquestion
  · exact (show 1 ≤ 3 * ch.utf8Size by omega)
  · exact (show 1 ≤ 3 * ch.utf8Size by omega)
  · rw [tokenBytes, sqliteToken_literal]
    split_ifs with hbracket
    · subst hbracket
      decide
    · rw [List.map_singleton, List.sum_singleton]
      omega

/-- Each alternative uses a character of the pattern at most once, for at most three. -/
theorem utf8ByteSize_alternative_le {pattern : String} {sequence : List Part}
    (h : Reads false pattern.toList sequence) : ∀ tokens ∈ sequenceAlternatives sequence [[]],
      (sqlitePattern tokens).utf8ByteSize ≤ 3 * pattern.utf8ByteSize := by
  intro tokens htokens
  have hle := weight_sequenceAlternatives tokenBytes_tokenOf_le h (weight_empty tokenBytes) tokens
    htokens
  rw [utf8ByteSize_sqlitePattern]
  rwa [List.sum_map_mul_left, ← utf8ByteSize_ofList, String.ofList_toList, Nat.zero_add] at hle

/-- The alternatives of a pattern without NUL have none either, and their literals are no
wildcards. -/
theorem plain_of_mem_alternatives {text : List Char} {sequence : List Part} (hnul : nul ∉ text)
    (h : Reads false text sequence) :
    ∀ tokens ∈ sequenceAlternatives sequence [[]], ∀ t ∈ tokens, t.plain = true := by
  have hk : ∀ ch, (if (tokenOf ch).plain then 0 else 1) ≤ if ch = nul then 1 else 0 := by
    intro ch
    unfold tokenOf
    split_ifs with hstar hquestion hplain hch <;> simp_all [Token.plain]
  intro tokens htokens t ht
  have hle := weight_sequenceAlternatives (f := fun t => if t.plain then 0 else 1) hk h
    (weight_empty _) tokens htokens
  have hzero : (text.map fun ch => if ch = nul then 1 else 0).sum = 0 := by
    refine List.sum_eq_zero fun n hn => ?_
    obtain ⟨ch, hch, rfl⟩ := List.mem_map.mp hn
    rw [if_neg]
    rintro rfl
    exact hnul hch
  rw [hzero, Nat.add_zero, Nat.le_zero, weight, List.sum_eq_zero_iff] at hle
  have := hle _ (List.mem_map_of_mem ht)
  by_contra hnot
  rw [if_neg hnot] at this
  exact absurd this one_ne_zero

/-- SQLite matches an alternative's text against a path as the tokens do. -/
theorem matchesGlob_sqlitePattern {tokens : List Token} (hplain : ∀ t ∈ tokens, t.plain = true)
    {path : String} (hpath : nul ∉ path.toList) :
    MatchesGlob (sqlitePattern tokens) path ↔ path.toList ∈ tokensLanguage tokens := by
  have hnul : nul ∉ (sqlitePattern tokens).toList := by
    rw [sqlitePattern, String.toList_ofList]
    intro hmem
    obtain ⟨t, ht, hmem⟩ := List.mem_flatMap.mp hmem
    have := hplain t ht
    cases t with
    | anySequence => exact absurd hmem (by decide)
    | anyScalar => exact absurd hmem (by decide)
    | literal c =>
      rw [sqliteToken_literal] at hmem
      split_ifs at hmem
      · exact absurd hmem (by decide)
      · simp [Token.plain, List.mem_singleton.mp hmem] at this
  unfold MatchesGlob
  rw [upToNul_of_not_mem hnul, upToNul_of_not_mem hpath, sqlitePattern, String.toList_ofList]
  simp only [readsGlob_iff hplain, exists_eq_left, itemsLanguage_map_item]

section Compiled

variable {pattern : String} {fuel : ℕ} {glob : CompiledGlob}

/-- SQLite and the matcher accept the same paths, and every alternative is within SQLite's
limit. -/
theorem sqliteAlternatives_spec (hfuel : 2 * pattern.length + 1 ≤ fuel)
    (hglob : compile fuel pattern = .ok glob) :
    (∀ (path : String) (rounds : ℕ), nul ∉ path.toList →
      path.length * (pattern.length + 1) + pattern.length + 1 ≤ rounds →
        ((∃ alternative ∈ glob.sqliteAlternatives, MatchesGlob alternative path) ↔
          glob.matches rounds path = some true)) ∧
      (∀ alternative ∈ glob.sqliteAlternatives, alternative.utf8ByteSize ≤ 49152) ∧
        glob.sqliteAlternatives.length ≤ 256 := by
  rcases compile_cases hfuel with ⟨sequence, hreads, hcount, haccepted, h⟩ | ⟨err, h, -⟩
  · obtain rfl := Except.ok.inj (h.symm.trans hglob)
    refine ⟨fun path rounds hpath hrounds => ?_, fun alternative halternative => ?_, ?_⟩
    · obtain ⟨matched, hmatched, hiff⟩ := matchesAny_of_reads hreads path hrounds
      have hplain := plain_of_mem_alternatives haccepted.noNul hreads
      rw [CompiledGlob.matches, hmatched, Option.some.injEq, hiff, mem_alternativesLanguage]
      simp only [List.mem_map, exists_exists_and_eq_and]
      exact exists_congr fun tokens => and_congr_right fun htokens =>
        matchesGlob_sqlitePattern (hplain tokens htokens) hpath
    · obtain ⟨tokens, htokens, rfl⟩ := List.mem_map.mp halternative
      exact (utf8ByteSize_alternative_le hreads tokens htokens).trans
        (Nat.mul_le_mul_left 3 haccepted.bytes)
    · rw [List.length_map, length_sequenceAlternatives, List.length_singleton, Nat.one_mul]
      exact hcount
  · rw [h] at hglob
    exact absurd hglob (by simp)

/-- A bracket is an alternative, and so is what closes one. -/
theorem sqliteAlternatives_spec_sample :
    ∃ alternative ∈ ["[[]", "]"], MatchesGlob alternative "[" := by
  have hspec := sqliteAlternatives_spec (show 2 * "{[,]}".length + 1 ≤ 11 by decide)
    (show compile 11 "{[,]}" = .ok ⟨[[.literal '['], [.literal ']']], ["[[]", "]"]⟩ by rfl)
  exact (hspec.1 "[" 12 (by decide) (by decide)).mpr (by decide)

/-- The term of a path filter is the disjunction over the alternatives, as there is one at
least. -/
theorem pathGlob_matches_iff {T : Type} {lib : QueryLib T}
    (hlib : ∀ pattern path, lib.glob pattern path = true ↔ MatchesGlob pattern path)
    (hfuel : 2 * pattern.length + 1 ≤ fuel) (hglob : compile fuel pattern = .ok glob) (path : String) :
    (PreparedPathFilters.mk none none (some glob.sqliteAlternatives)).matches lib path = true ↔
      ∃ alternative ∈ glob.sqliteAlternatives, MatchesGlob alternative path := by
  rcases compile_cases hfuel with ⟨sequence, hreads, -, -, h⟩ | ⟨err, h, -⟩
  · obtain rfl := Except.ok.inj (h.symm.trans hglob)
    have hlength : 1 ≤ ((sequenceAlternatives sequence [[]]).map sqlitePattern).length := by
      rw [List.length_map, length_sequenceAlternatives, List.length_singleton, Nat.one_mul]
      exact one_le_expansions hreads
    have hsome : ((sequenceAlternatives sequence [[]]).map sqlitePattern).isEmpty = false := by
      rw [List.isEmpty_eq_false_iff]
      exact List.ne_nil_of_length_pos hlength
    simp only [PreparedPathFilters.matches, hsome, Bool.true_and, Bool.false_or, List.any_eq_true, hlib]
  · rw [h] at hglob
    exact absurd hglob (by simp)

end Compiled

end Glob

end LocalCache
