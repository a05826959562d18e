import LocalCache.GlobMatch
import LocalCache.GlobParse
import Mathlib.Algebra.BigOperators.Ring.List

/-!
# What a glob means, and which compile

A pattern stands for the words of the sequence it reads as (`patternLanguage`), with a group for
the union of its branches. Expansion multiplies groups out and merges stars that come to stand
next to each other, which keeps the language, so a glob matches the words of its pattern
(`matches_iff_mem_language`).

The limit on alternatives is checked on sums and products of some of the branches. As no group is
empty, these never exceed the number of all expansions, so `compile` accepts exactly the patterns
within the bounds (`compile_ok_iff`), and no list it builds is longer than the limit.
-/

namespace LocalCache

namespace Glob

/-! ## What a sequence stands for -/

mutual

/-- The words a sequence stands for, its parts one after another. -/
def sequenceLanguage : List Part → Language Char
  | [] => 1
  | part :: sequence => part.language * sequenceLanguage sequence

/-- The words a part stands for. -/
def Part.language : Part → Language Char
  | .token t => t.language
  | .group branches => groupLanguage branches

/-- The words that some branch stands for. -/
def groupLanguage : List (List Part) → Language Char
  | [] => 0
  | branch :: branches => sequenceLanguage branch + groupLanguage branches

end

mutual

/-- The number of brace expansions of a sequence. -/
def expansions : List Part → ℕ
  | [] => 1
  | part :: sequence => part.expansions * expansions sequence

def Part.expansions : Part → ℕ
  | .token _ => 1
  | .group branches => groupExpansions branches

def groupExpansions : List (List Part) → ℕ
  | [] => 0
  | branch :: branches => expansions branch + groupExpansions branches

end

/-! ## Expansion without a limit -/

mutual

/-- The alternatives of a sequence, each after each of those before it. -/
def sequenceAlternatives : List Part → Alternatives → Alternatives
  | [], before => before
  | part :: sequence, before => sequenceAlternatives sequence (part.alternatives before)

def Part.alternatives : Part → Alternatives → Alternatives
  | .token t, before => before.map fun alternative => pushToken alternative t
  | .group branches, before => combine before (groupAlternatives branches)

def groupAlternatives : List (List Part) → Alternatives
  | [] => []
  | branch :: branches => sequenceAlternatives branch [[]] ++ groupAlternatives branches

end

@[simp] theorem length_combine (before after : Alternatives) :
    (combine before after).length = before.length * after.length := by
  simp [combine, List.length_flatMap]

mutual

theorem length_sequenceAlternatives : ∀ (sequence : List Part) (before : Alternatives),
    (sequenceAlternatives sequence before).length = before.length * expansions sequence
  | [], before => (Nat.mul_one _).symm
  | part :: sequence, before => by
    rw [sequenceAlternatives, length_sequenceAlternatives sequence, length_partAlternatives part,
      expansions, Nat.mul_assoc]

theorem length_partAlternatives : ∀ (part : Part) (before : Alternatives),
    (part.alternatives before).length = before.length * part.expansions
  | .token t, before => by rw [Part.alternatives, List.length_map, Part.expansions, Nat.mul_one]
  | .group branches, before => by
    rw [Part.alternatives, length_combine, length_groupAlternatives branches, Part.expansions]

theorem length_groupAlternatives : ∀ branches : List (List Part),
    (groupAlternatives branches).length = groupExpansions branches
  | [] => rfl
  | branch :: branches => by
    rw [groupAlternatives, List.length_append, length_sequenceAlternatives branch,
      length_groupAlternatives branches, groupExpansions, List.length_singleton, Nat.one_mul]

end

/-! ## Expansion keeps the language -/

theorem alternativesLanguage_append (before after : Alternatives) :
    alternativesLanguage (before ++ after) =
      alternativesLanguage before + alternativesLanguage after := by
  rw [alternativesLanguage, List.map_append, List.sum_append]
  rfl

/-- Of two stars in a row, one is enough. -/
theorem tokensLanguage_pushToken (tokens : List Token) (t : Token) :
    tokensLanguage (pushToken tokens t) = tokensLanguage tokens * t.language := by
  unfold pushToken
  split_ifs with h
  · obtain ⟨rfl, hlast⟩ := h
    obtain ⟨init, rfl⟩ := List.getLast?_eq_some_iff.mp hlast
    rw [tokensLanguage_append, tokensLanguage_cons, tokensLanguage_nil, mul_one, mul_assoc,
      show (Token.anySequence.language : Language Char) = ⊤ from rfl, Language.top_mul_top]
  · rw [tokensLanguage_append, tokensLanguage_cons, tokensLanguage_nil, mul_one]

theorem tokensLanguage_foldl_pushToken : ∀ (suffix before : List Token),
    tokensLanguage (suffix.foldl pushToken before) = tokensLanguage before * tokensLanguage suffix
  | [], before => (mul_one _).symm
  | t :: suffix, before => by
    rw [List.foldl_cons, tokensLanguage_foldl_pushToken suffix, tokensLanguage_pushToken,
      tokensLanguage_cons, mul_assoc]

theorem alternativesLanguage_combine : ∀ before after : Alternatives,
    alternativesLanguage (combine before after) =
      alternativesLanguage before * alternativesLanguage after
  | [], after => (zero_mul _).symm
  | tokens :: before, after => by
    have hcons : combine (tokens :: before) after =
        (after.map fun suffix => suffix.foldl pushToken tokens) ++ combine before after := rfl
    have hfirst : alternativesLanguage (after.map fun suffix => suffix.foldl pushToken tokens) =
        tokensLanguage tokens * alternativesLanguage after := by
      rw [alternativesLanguage, List.map_map, alternativesLanguage, ← List.sum_map_mul_left]
      exact congrArg List.sum (List.map_congr_left fun suffix _ =>
        tokensLanguage_foldl_pushToken suffix tokens)
    rw [hcons, alternativesLanguage_append, hfirst, alternativesLanguage_combine before after,
      alternativesLanguage_cons, add_mul]

theorem alternativesLanguage_push (t : Token) (before : Alternatives) :
    alternativesLanguage (before.map fun tokens => pushToken tokens t) =
      alternativesLanguage before * t.language := by
  rw [alternativesLanguage, List.map_map, alternativesLanguage, ← List.sum_map_mul_right]
  exact congrArg List.sum (List.map_congr_left fun tokens _ => tokensLanguage_pushToken tokens t)

mutual

/-- The alternatives together stand for what the sequence does. -/
theorem language_sequenceAlternatives : ∀ (sequence : List Part) (before : Alternatives),
    alternativesLanguage (sequenceAlternatives sequence before) =
      alternativesLanguage before * sequenceLanguage sequence
  | [], before => (mul_one _).symm
  | part :: sequence, before => by
    rw [sequenceAlternatives, language_sequenceAlternatives sequence,
      language_partAlternatives part, sequenceLanguage, mul_assoc]

theorem language_partAlternatives : ∀ (part : Part) (before : Alternatives),
    alternativesLanguage (part.alternatives before) = alternativesLanguage before * part.language
  | .token t, before => alternativesLanguage_push t before
  | .group branches, before => by
    rw [Part.alternatives, alternativesLanguage_combine, language_groupAlternatives branches,
      Part.language]

theorem language_groupAlternatives : ∀ branches : List (List Part),
    alternativesLanguage (groupAlternatives branches) = groupLanguage branches
  | [] => rfl
  | branch :: branches => by
    rw [groupAlternatives, alternativesLanguage_append, language_sequenceAlternatives branch,
      language_groupAlternatives branches, groupLanguage, alternativesLanguage_cons,
      alternativesLanguage_nil, tokensLanguage_nil, add_zero, one_mul]

end

/-! ## Each character is used at most once -/

section Weights

variable (f : Token → ℕ) {k : Char → ℕ}

/-- A weight of tokens, added up. -/
def weight (tokens : List Token) : ℕ := (tokens.map f).sum

theorem weight_empty : ∀ tokens ∈ ([[]] : Alternatives), weight f tokens ≤ 0 := by simp [weight]

theorem weight_pushToken_le (tokens : List Token) (t : Token) :
    weight f (pushToken tokens t) ≤ weight f tokens + f t := by
  unfold pushToken
  split_ifs
  · exact Nat.le_add_right _ _
  · simp [weight]

theorem weight_foldl_pushToken_le : ∀ (suffix before : List Token),
    weight f (suffix.foldl pushToken before) ≤ weight f before + weight f suffix
  | [], before => Nat.le_add_right _ _
  | t :: suffix, before => by
    have hrest := weight_foldl_pushToken_le suffix (pushToken before t)
    have hpush := weight_pushToken_le f before t
    rw [List.foldl_cons, show weight f (t :: suffix) = f t + weight f suffix from List.sum_cons]
    omega

variable {f}

mutual

/-- An alternative weighs no more than the text, after what came before. -/
theorem weight_sequenceAlternatives (hk : ∀ ch, f (tokenOf ch) ≤ k ch) {insideGroup : Bool}
    {text : List Char} {sequence : List Part} (h : Reads insideGroup text sequence)
    {before : Alternatives} {n : ℕ} (hn : ∀ tokens ∈ before, weight f tokens ≤ n) :
    ∀ tokens ∈ sequenceAlternatives sequence before, weight f tokens ≤ n + (text.map k).sum :=
  match h with
  | .nil => fun tokens htokens => (hn tokens htokens).trans (Nat.le_add_right _ _)
  | @Reads.char _ ch text _ hopen hclose hcomma hrest => by
    have hpushed : ∀ tokens ∈ (Part.token (tokenOf ch)).alternatives before,
        weight f tokens ≤ n + k ch := by
      intro tokens htokens
      obtain ⟨old, hold, rfl⟩ := List.mem_map.mp htokens
      have hpush := weight_pushToken_le f old (tokenOf ch)
      have := hn old hold
      have := hk ch
      omega
    intro tokens htokens
    have hle := weight_sequenceAlternatives hk hrest hpushed tokens htokens
    rw [List.map_cons, List.sum_cons]
    omega
  | @Reads.group _ text rest branches _ hgroup hrest => by
    have hbranches := weight_groupAlternatives hk hgroup
    have hcombined : ∀ tokens ∈ (Part.group branches).alternatives before,
        weight f tokens ≤ n + (text.map k).sum := by
      intro tokens htokens
      obtain ⟨old, hold, hmem⟩ := List.mem_flatMap.mp htokens
      obtain ⟨suffix, hsuffix, rfl⟩ := List.mem_map.mp hmem
      have hfold := weight_foldl_pushToken_le f suffix old
      have := hn old hold
      have := hbranches suffix hsuffix
      omega
    intro tokens htokens
    have hle := weight_sequenceAlternatives hk hrest hcombined tokens htokens
    simp only [List.map_cons, List.map_append, List.sum_cons, List.sum_append]
    omega

theorem weight_groupAlternatives (hk : ∀ ch, f (tokenOf ch) ≤ k ch) {text : List Char}
    {branches : List (List Part)} (h : ReadsGroup text branches) :
    ∀ tokens ∈ groupAlternatives branches, weight f tokens ≤ (text.map k).sum :=
  match h with
  | .last hbranch => by
    intro tokens htokens
    rw [groupAlternatives, groupAlternatives, List.append_nil] at htokens
    have hle := weight_sequenceAlternatives hk hbranch (weight_empty f) tokens htokens
    rwa [Nat.zero_add] at hle
  | .more hbranch hrest => by
    intro tokens htokens
    rw [groupAlternatives] at htokens
    simp only [List.map_cons, List.map_append, List.sum_cons, List.sum_append]
    rcases List.mem_append.mp htokens with htokens | htokens
    · have hle := weight_sequenceAlternatives hk hbranch (weight_empty f) tokens htokens
      omega
    · have hle := weight_groupAlternatives hk hrest tokens htokens
      omega

end

end Weights

/-! ## The limit -/

mutual

theorem one_le_expansions {insideGroup : Bool} {text : List Char} {sequence : List Part}
    (h : Reads insideGroup text sequence) : 1 ≤ expansions sequence :=
  match h with
  | .nil => le_rfl
  | .char hopen hclose hcomma hrest => by
    rw [expansions, Part.expansions, Nat.one_mul]
    exact one_le_expansions hrest
  | .group hgroup hrest => by
    rw [expansions, Part.expansions]
    exact Nat.mul_pos (one_le_groupExpansions hgroup) (one_le_expansions hrest)

theorem one_le_groupExpansions {text : List Char} {branches : List (List Part)}
    (h : ReadsGroup text branches) : 1 ≤ groupExpansions branches :=
  match h with
  | .last hbranch => by
    rw [groupExpansions]
    exact (one_le_expansions hbranch).trans (Nat.le_add_right _ _)
  | .more hbranch hrest => by
    rw [groupExpansions]
    exact (one_le_expansions hbranch).trans (Nat.le_add_right _ _)

end

/-- What an expansion to `count` alternatives is to give. -/
def limited (count : ℕ) (alternatives : Alternatives) : Except Error (Alternatives × Unit) :=
  if count ≤ maxAlternatives then .ok (alternatives, ()) else .error safetyError

theorem run_built_bind (alternatives : Alternatives) (f : Alternatives → Expanding) :
    (built alternatives >>= f).run () = (f alternatives).run () := by
  rw [Traced.run_bind]
  rfl

/-- The check before a list is built. -/
theorem run_checked {count : ℕ} {x : Expanding} {n : ℕ} {final : Alternatives} (hle : count ≤ n)
    (hx : count ≤ maxAlternatives → x.run () = limited n final) :
    (if maxAlternatives < count then Traced.fail safetyError else x : Expanding).run () =
      limited n final := by
  split_ifs with hover
  · rw [limited, if_neg (by omega)]
    rfl
  · exact hx (not_lt.mp hover)

/-- An expansion that is over the limit already fails, and else goes on. -/
theorem run_bind_limited {x : Expanding} {f : Alternatives → Expanding} {m n : ℕ}
    {alternatives final : Alternatives} (hx : x.run () = limited m alternatives) (hle : m ≤ n)
    (hf : m ≤ maxAlternatives → (f alternatives).run () = limited n final) :
    (x >>= f).run () = limited n final := by
  rw [Traced.run_bind]
  unfold limited at hx
  split_ifs at hx with hm
  · exact (StateExcept.bind_of_ok hx).trans (hf hm)
  · rw [StateExcept.bind_of_error hx, limited, if_neg (by omega)]

/-- A group, if its branches expand as they are to. -/
theorem run_expandPart_group {branches : List (List Part)} {expanded : Alternatives}
    (hpos : 1 ≤ expanded.length) (hgroup : (expandGroup branches []).run () =
      limited (groupExpansions branches) (groupAlternatives branches)) :
    (expandPart (.group branches) expanded).run () =
      limited (expanded.length * groupExpansions branches)
        ((Part.group branches).alternatives expanded) := by
  rw [expandPart]
  refine run_bind_limited hgroup (Nat.le_mul_of_pos_left _ hpos) fun _ => ?_
  rw [length_groupAlternatives]
  refine run_checked le_rfl fun hunder => ?_
  rw [limited, if_pos hunder]
  rfl

mutual

/-- The expansion fails exactly when there are too many alternatives in all : what it counts on
the way never exceeds that number. -/
theorem run_expandParts {insideGroup : Bool} {text : List Char} {sequence : List Part}
    (h : Reads insideGroup text sequence) {expanded : Alternatives} (hpos : 1 ≤ expanded.length)
    (hlimit : expanded.length ≤ maxAlternatives) :
    (expandParts sequence expanded).run () =
      limited (expanded.length * expansions sequence) (sequenceAlternatives sequence expanded) :=
  match h with
  | .nil => by
    rw [expandParts, limited, expansions, Nat.mul_one, if_pos hlimit]
    rfl
  | @Reads.char _ ch text sequence hopen hclose hcomma hrest => by
    have hlength : ((Part.token (tokenOf ch)).alternatives expanded).length = expanded.length :=
      List.length_map _
    have hmore := run_expandParts hrest (hlength ▸ hpos) (hlength ▸ hlimit)
    rw [hlength] at hmore
    rw [expandParts, expandPart, run_built_bind, expansions, Part.expansions, Nat.one_mul]
    exact hmore
  | @Reads.group _ text rest branches sequence hgroup hrest => by
    have hbranches := run_expandGroup hgroup []
    rw [List.length_nil, Nat.zero_add, List.nil_append] at hbranches
    have hlength : ((Part.group branches).alternatives expanded).length =
        expanded.length * groupExpansions branches := length_partAlternatives _ _
    rw [expandParts, expansions, Part.expansions, ← Nat.mul_assoc]
    refine run_bind_limited (run_expandPart_group hpos hbranches)
      (Nat.le_mul_of_pos_right _ (one_le_expansions hrest)) fun hproduct => ?_
    rw [← hlength] at hproduct ⊢
    exact run_expandParts hrest
      (hlength ▸ Nat.mul_pos hpos (one_le_groupExpansions hgroup)) hproduct

theorem run_expandGroup {text : List Char} {branches : List (List Part)}
    (h : ReadsGroup text branches) (expanded : Alternatives) :
    (expandGroup branches expanded).run () =
      limited (expanded.length + groupExpansions branches) (expanded ++ groupAlternatives branches) :=
  match h with
  | @ReadsGroup.last text branch hbranch => by
    have hexpanded := run_expandParts hbranch (le_refl ([[]] : Alternatives).length) (by decide)
    rw [List.length_singleton, Nat.one_mul] at hexpanded
    rw [expandGroup, run_built_bind, groupExpansions, groupExpansions, Nat.add_zero]
    refine run_bind_limited hexpanded (Nat.le_add_left _ _) fun _ => ?_
    rw [length_sequenceAlternatives, List.length_singleton, Nat.one_mul]
    refine run_checked le_rfl fun hsum => ?_
    rw [run_built_bind, expandGroup, groupAlternatives, groupAlternatives, List.append_nil, limited,
      if_pos hsum]
    rfl
  | @ReadsGroup.more text rest branch branches hbranch hrest => by
    have hexpanded := run_expandParts hbranch (le_refl ([[]] : Alternatives).length) (by decide)
    rw [List.length_singleton, Nat.one_mul] at hexpanded
    rw [expandGroup, run_built_bind, groupExpansions, ← Nat.add_assoc]
    refine run_bind_limited hexpanded
      ((Nat.le_add_left _ _).trans (Nat.le_add_right _ _)) fun _ => ?_
    rw [length_sequenceAlternatives, List.length_singleton, Nat.one_mul]
    refine run_checked (Nat.le_add_right _ _) fun _ => ?_
    have hlength : (expanded ++ sequenceAlternatives branch [[]]).length =
        expanded.length + expansions branch := by
      rw [List.length_append, length_sequenceAlternatives, List.length_singleton, Nat.one_mul]
    have hmore := run_expandGroup hrest (expanded ++ sequenceAlternatives branch [[]])
    rw [hlength, List.append_assoc] at hmore
    rw [run_built_bind, groupAlternatives]
    exact hmore

end

/-! ## What is built on the way -/

/-- Every list built is within the limit, and so is the result. -/
def Small (x : Expanding) : Prop :=
  (∀ list ∈ (x ()).2, list.length ≤ maxAlternatives) ∧
    ∀ alternatives, x.run () = .ok (alternatives, ()) → alternatives.length ≤ maxAlternatives

theorem Small.pure {alternatives : Alternatives} (h : alternatives.length ≤ maxAlternatives) :
    Small (pure alternatives) := by
  refine ⟨fun list hlist => absurd hlist List.not_mem_nil, fun out hout => ?_⟩
  obtain ⟨rfl, -⟩ := StateExcept.pure_eq_ok hout
  exact h

theorem Small.fail (err : Error) : Small (Traced.fail err) :=
  ⟨fun list hlist => absurd hlist List.not_mem_nil, fun _ hout => absurd hout (by simp [StateExcept.fail])⟩

theorem Small.built {alternatives : Alternatives} (h : alternatives.length ≤ maxAlternatives) :
    Small (built alternatives) := by
  refine ⟨fun list hlist => ?_, fun out hout => ?_⟩
  · rw [List.mem_singleton.mp hlist]
    exact h
  · rw [← (Prod.mk.inj (Except.ok.inj hout)).1]
    exact h

theorem Small.bind {x : Expanding} {f : Alternatives → Expanding} (hx : Small x)
    (hf : ∀ alternatives, alternatives.length ≤ maxAlternatives → Small (f alternatives)) :
    Small (x >>= f) := by
  rcases hrun : x () with ⟨_ | ⟨alternatives, ⟨⟩⟩, lists⟩
  · unfold Small Traced.run
    rw [Traced.bind_of_error hrun]
    refine ⟨fun list hlist => hx.1 list (hrun ▸ hlist), fun _ hout => absurd hout (by simp)⟩
  · have hnext := hf alternatives (hx.2 alternatives (congrArg Prod.fst hrun))
    unfold Small Traced.run
    rw [Traced.bind_of_ok hrun]
    refine ⟨fun list hlist => ?_, hnext.2⟩
    rcases List.mem_append.mp hlist with hlist | hlist
    · exact hx.1 list (hrun ▸ hlist)
    · exact hnext.1 list hlist

theorem Small.checked {count : ℕ} {x : Expanding} (h : count ≤ maxAlternatives → Small x) :
    Small (if maxAlternatives < count then Traced.fail safetyError else x) := by
  split_ifs with hover
  · exact .fail safetyError
  · exact h (not_lt.mp hover)

mutual

/-- No list that is built exceeds the limit, whether the expansion succeeds or not. -/
theorem small_expandParts : ∀ (sequence : List Part) {expanded : Alternatives},
    expanded.length ≤ maxAlternatives → Small (expandParts sequence expanded)
  | [], _, h => .pure h
  | part :: sequence, _, h => by
    rw [expandParts]
    exact (small_expandPart part h).bind fun _ => small_expandParts sequence

theorem small_expandPart : ∀ (part : Part) {expanded : Alternatives},
    expanded.length ≤ maxAlternatives → Small (expandPart part expanded)
  | .token t, _, h => by
    rw [expandPart]
    exact .built ((List.length_map _).trans_le h)
  | .group branches, _, h => by
    rw [expandPart]
    exact (small_expandGroup branches (Nat.zero_le _)).bind fun _ _ =>
      .checked fun hproduct => .built ((length_combine _ _).trans_le hproduct)

theorem small_expandGroup : ∀ (branches : List (List Part)) {expanded : Alternatives},
    expanded.length ≤ maxAlternatives → Small (expandGroup branches expanded)
  | [], _, h => .pure h
  | branch :: branches, _, h => by
    rw [expandGroup]
    refine (Small.built (by decide)).bind fun _ hfirst => (small_expandParts branch hfirst).bind
      fun _ _ => .checked fun hsum => ?_
    exact (Small.built (List.length_append.trans_le hsum)).bind fun _ => small_expandGroup branches

end

/-! ## Compiled globs -/

/-- What is to compile. -/
structure Accepted (pattern : String) : Prop where
  bytes : pattern.utf8ByteSize ≤ maxPatternBytes
  noNul : nul ∉ pattern.toList
  balanced : Balanced pattern.toList
  nested : NestedWithin maxBraceDepth pattern.toList
  expansions : ∃ sequence, Reads false pattern.toList sequence ∧
    expansions sequence ≤ maxAlternatives

/-- The words a pattern stands for. -/
def patternLanguage (pattern : String) : Language Char :=
  {w | ∃ sequence, Reads false pattern.toList sequence ∧ w ∈ sequenceLanguage sequence}

section Compiling

variable {pattern : String} {fuel : ℕ}

theorem run_expandSequence {sequence : List Part} (h : Reads false pattern.toList sequence) :
    (expandSequence sequence).run () =
      limited (expansions sequence) (sequenceAlternatives sequence [[]]) := by
  have hrun := run_expandParts h (le_refl ([[]] : Alternatives).length) (by decide)
  rw [List.length_singleton, Nat.one_mul] at hrun
  rw [expandSequence, run_built_bind]
  exact hrun

theorem compileTraced_of_ok {sequence : List Part}
    (hbytes : ¬(maxPatternBytes < pattern.utf8ByteSize ∨ nul ∈ pattern.toList))
    (hparse : parse fuel pattern.toList = .ok sequence) :
    compileTraced fuel pattern =
      (match (expandSequence sequence).run () with
        | .error err => .error (some err)
        | .ok (alternatives, ()) => .ok ⟨alternatives, alternatives.map sqlitePattern⟩,
      (expandSequence sequence ()).2) := by
  rw [compileTraced, if_neg hbytes, hparse]
  dsimp only [Traced.run]
  rcases expandSequence sequence () with ⟨_ | ⟨alternatives, ⟨⟩⟩, lists⟩ <;> rfl

/-- A pattern is accepted with the alternatives of the sequence it reads as, or it fails. -/
theorem compile_cases (hfuel : 2 * pattern.length + 1 ≤ fuel) :
    (∃ sequence, Reads false pattern.toList sequence ∧ expansions sequence ≤ maxAlternatives ∧
      Accepted pattern ∧ compile fuel pattern = .ok ⟨sequenceAlternatives sequence [[]],
        (sequenceAlternatives sequence [[]]).map sqlitePattern⟩) ∨
      ∃ err, compile fuel pattern = .error (some err) ∧ ¬Accepted pattern := by
  by_cases hbytes : maxPatternBytes < pattern.utf8ByteSize ∨ nul ∈ pattern.toList
  · refine .inr ⟨safetyError, by rw [compile, compileTraced, if_pos hbytes], fun h => ?_⟩
    exact hbytes.elim h.bytes.not_gt h.noNul
  rw [← String.length_toList] at hfuel
  rcases parse_cases hfuel with ⟨sequence, hparse, hreads, hopen⟩ | ⟨err, hparse, hopen⟩
  · have hcompile : compile fuel pattern = _ := congrArg Prod.fst (compileTraced_of_ok hbytes hparse)
    rw [run_expandSequence hreads, limited] at hcompile
    obtain ⟨hlength, hnul⟩ := not_or.mp hbytes
    obtain ⟨hbalanced, hnested⟩ := open_zero_iff.mp hopen
    split_ifs at hcompile with hcount
    · exact .inl ⟨sequence, hreads, hcount,
        ⟨not_lt.mp hlength, hnul, hbalanced, hnested, sequence, hreads, hcount⟩, hcompile⟩
    · refine .inr ⟨safetyError, hcompile, fun h => ?_⟩
      obtain ⟨sequence', hreads', hcount'⟩ := h.expansions
      obtain ⟨rfl, -⟩ := hreads.unique hreads' (stops_nil false) (stops_nil false) rfl
      exact hcount hcount'
  · refine .inr ⟨err, by rw [compile, compileTraced, if_neg hbytes, hparse], fun h => ?_⟩
    exact hopen (open_zero_iff.mpr ⟨h.balanced, h.nested⟩)

theorem length_le_of_compile (list : Alternatives) (hlist : list ∈ (compileTraced fuel pattern).2) :
    list.length ≤ maxAlternatives := by
  by_cases hbytes : maxPatternBytes < pattern.utf8ByteSize ∨ nul ∈ pattern.toList
  · rw [compileTraced, if_pos hbytes] at hlist
    exact absurd hlist List.not_mem_nil
  cases hparse : parse fuel pattern.toList with
  | error err =>
    rw [compileTraced, if_neg hbytes, hparse] at hlist
    exact absurd hlist List.not_mem_nil
  | ok sequence =>
    have hsmall : Small (expandSequence sequence) :=
      (Small.built (by decide)).bind fun _ => small_expandParts sequence
    rw [compileTraced_of_ok hbytes hparse] at hlist
    exact hsmall.1 list hlist

/-- Compilation ends, accepts exactly the balanced patterns within the bounds, and never builds a
longer list of alternatives than it accepts. -/
theorem compile_ok_iff (hfuel : 2 * pattern.length + 1 ≤ fuel) :
    compile fuel pattern ≠ .error none ∧
      ((∃ glob, compile fuel pattern = .ok glob) ↔ Accepted pattern) ∧
      ∀ list ∈ (compileTraced fuel pattern).2, list.length ≤ maxAlternatives := by
  refine ⟨?_, ?_, fun list => length_le_of_compile list⟩
  · rcases compile_cases hfuel with ⟨sequence, -, -, -, h⟩ | ⟨err, h, -⟩ <;> rw [h] <;> simp
  · rcases compile_cases hfuel with ⟨sequence, -, -, haccepted, h⟩ | ⟨err, h, hno⟩
    · exact iff_of_true ⟨_, h⟩ haccepted
    · exact iff_of_false (by rw [h]; simp) hno

/-- An alternative has no more tokens than the pattern has characters. -/
theorem length_alternative_le {sequence : List Part} (h : Reads false pattern.toList sequence) :
    ∀ tokens ∈ sequenceAlternatives sequence [[]], tokens.length ≤ pattern.length := by
  intro tokens htokens
  have hle := weight_sequenceAlternatives (f := fun _ => 1) (k := fun _ => 1) (fun _ => le_rfl) h
    (weight_empty fun _ => 1) tokens htokens
  simpa [weight, String.length_toList] using hle

theorem matchesAny_of_reads {sequence : List Part} (h : Reads false pattern.toList sequence)
    (candidate : String) {rounds : ℕ}
    (hrounds : candidate.length * (pattern.length + 1) + pattern.length + 1 ≤ rounds) :
    ∃ matched, matchesAny candidate.toList rounds (sequenceAlternatives sequence [[]]) = some matched ∧
      (matched = true ↔ candidate.toList ∈ alternativesLanguage (sequenceAlternatives sequence [[]])) := by
  refine matchesAny_spec fun tokens htokens => le_trans ?_ hrounds
  have hlength := length_alternative_le h tokens htokens
  rw [matchFuel, String.length_toList]
  gcongr

/-- The matcher of an accepted pattern ends, and accepts the words the pattern stands for. -/
theorem matches_iff_mem_language (hfuel : 2 * pattern.length + 1 ≤ fuel) {glob : CompiledGlob}
    (hglob : compile fuel pattern = .ok glob) (candidate : String) {rounds : ℕ}
    (hrounds : candidate.length * (pattern.length + 1) + pattern.length + 1 ≤ rounds) :
    ∃ matched, glob.matches rounds candidate = some matched ∧
      (matched = true ↔ candidate.toList ∈ patternLanguage pattern) := by
  rcases compile_cases hfuel with ⟨sequence, hreads, -, -, h⟩ | ⟨err, h, -⟩
  · obtain rfl := Except.ok.inj (h.symm.trans hglob)
    obtain ⟨matched, hmatched, hiff⟩ := matchesAny_of_reads hreads candidate hrounds
    refine ⟨matched, hmatched, hiff.trans ?_⟩
    rw [language_sequenceAlternatives, alternativesLanguage_cons, alternativesLanguage_nil,
      tokensLanguage_nil, add_zero, one_mul]
    constructor
    · exact fun hmem => ⟨sequence, hreads, hmem⟩
    · rintro ⟨sequence', hreads', hmem⟩
      obtain ⟨rfl, -⟩ := hreads.unique hreads' (stops_nil false) (stops_nil false) rfl
      exact hmem
  · rw [h] at hglob
    exact absurd hglob (by simp)

/-- An empty branch, and stars that meet across its brace. -/
def sampleGlob : CompiledGlob :=
  ⟨[[.literal 'a', .anySequence], [.anySequence]], ["a*", "*"]⟩

theorem compile_ok_iff_sample : Accepted "{a,*}*" :=
  (compile_ok_iff (show 2 * "{a,*}*".length + 1 ≤ 13 by decide)).2.1.mp ⟨sampleGlob, by rfl⟩

theorem matches_iff_mem_language_sample : "b".toList ∈ patternLanguage "{a,*}*" := by
  obtain ⟨matched, hmatched, hiff⟩ := matches_iff_mem_language
    (show 2 * "{a,*}*".length + 1 ≤ 13 by decide)
    (show compile 13 "{a,*}*" = .ok sampleGlob by rfl) "b"
    (show "b".length * ("{a,*}*".length + 1) + "{a,*}*".length + 1 ≤ 14 by decide)
  have htrue : sampleGlob.matches 14 "b" = some true := by decide
  exact hiff.mp (Option.some.inj (hmatched.symm.trans htrue))

end Compiling

end Glob

end LocalCache
