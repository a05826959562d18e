import LocalCache.Glob

/-!
# What the glob parser reads

`Reads` is the grammar of patterns : a comma ends a branch inside a group, and is a character like
any other outside. It is unambiguous (`Reads.unique`). The parser reads a pattern by this grammar,
and rejects it exactly when its braces are not balanced or nested too deep (`parse_spec`), whatever
depth of groups its one cursor is in.
-/

namespace LocalCache

namespace Glob

/-! ## The grammar -/

mutual

/-- A text and the sequence it stands for, inside a group or outside. -/
inductive Reads : (insideGroup : Bool) → List Char → List Part → Prop
  | nil {insideGroup : Bool} : Reads insideGroup [] []
  | char {insideGroup : Bool} {ch : Char} {text : List Char} {sequence : List Part}
      (hopen : ch ≠ '{') (hclose : ch ≠ '}') (hcomma : ch = ',' → insideGroup = false)
      (hrest : Reads insideGroup text sequence) :
      Reads insideGroup (ch :: text) (.token (tokenOf ch) :: sequence)
  | group {insideGroup : Bool} {text rest : List Char} {branches : List (List Part)}
      {sequence : List Part} (hgroup : ReadsGroup text branches)
      (hrest : Reads insideGroup rest sequence) :
      Reads insideGroup ('{' :: (text ++ '}' :: rest)) (.group branches :: sequence)

/-- The text between the braces of a group, and the branches it stands for. -/
inductive ReadsGroup : List Char → List (List Part) → Prop
  | last {text : List Char} {branch : List Part} (hbranch : Reads true text branch) :
      ReadsGroup text [branch]
  | more {text rest : List Char} {branch : List Part} {branches : List (List Part)}
      (hbranch : Reads true text branch) (hrest : ReadsGroup rest branches) :
      ReadsGroup (text ++ ',' :: rest) (branch :: branches)

end

/-- The texts at which a sequence ends. -/
def Stops (insideGroup : Bool) (rest : List Char) : Prop :=
  ∀ ch, rest.head? = some ch → insideGroup = true ∧ (ch = ',' ∨ ch = '}')

theorem stops_nil (insideGroup : Bool) : Stops insideGroup [] := fun _ h => absurd h (by simp)

theorem stops_cons {ch : Char} {rest : List Char} (h : ch = ',' ∨ ch = '}') :
    Stops true (ch :: rest) := by
  intro c hc
  rw [← Option.some.inj hc]
  exact ⟨rfl, h⟩

theorem eq_nil_of_stops_false {rest : List Char} (h : Stops false rest) : rest = [] := by
  cases rest with
  | nil => rfl
  | cons ch rest => exact absurd (h ch rfl).1 (by simp)

/-- A sequence does not begin where another ends. -/
theorem Reads.eq_nil {insideGroup : Bool} {text rest rest' : List Char} {sequence : List Part}
    (h : Reads insideGroup text sequence) (hstops : Stops insideGroup rest')
    (heq : rest' = text ++ rest) : sequence = [] ∧ text = [] := by
  cases h with
  | nil => exact ⟨rfl, rfl⟩
  | char hopen hclose hcomma hrest =>
    rw [heq] at hstops
    obtain ⟨hinside, hch | hch⟩ := hstops _ rfl
    · exact absurd (hcomma hch) (by simp [hinside])
    · exact absurd hch hclose
  | group hgroup hrest =>
    rw [heq] at hstops
    exact absurd (hstops '{' rfl).2 (by decide)

mutual

/-- A text stands for one sequence only, and ends in one place only. -/
theorem Reads.unique {insideGroup : Bool} {text text' rest rest' : List Char}
    {sequence sequence' : List Part} (h : Reads insideGroup text sequence)
    (h' : Reads insideGroup text' sequence') (hrest : Stops insideGroup rest)
    (hrest' : Stops insideGroup rest') (heq : text ++ rest = text' ++ rest') :
    sequence = sequence' ∧ rest = rest' :=
  match h, h' with
  | .nil, h' => by
    obtain ⟨rfl, rfl⟩ := h'.eq_nil hrest heq
    exact ⟨rfl, heq⟩
  | .char hopen hclose hcomma hmore, .nil => by
    obtain ⟨hseq, -⟩ := (Reads.char hopen hclose hcomma hmore).eq_nil hrest' heq.symm
    exact absurd hseq (by simp)
  | .group hgroup hmore, .nil => by
    obtain ⟨hseq, -⟩ := (Reads.group hgroup hmore).eq_nil hrest' heq.symm
    exact absurd hseq (by simp)
  | .char hopen hclose hcomma hmore, .char hopen' hclose' hcomma' hmore' => by
    obtain ⟨rfl, hafter⟩ := List.cons.inj heq
    obtain ⟨rfl, rfl⟩ := hmore.unique hmore' hrest hrest' hafter
    exact ⟨rfl, rfl⟩
  | .char hopen hclose hcomma hmore, .group hgroup' hmore' =>
    absurd (List.cons.inj heq).1 hopen
  | .group hgroup hmore, .char hopen' hclose' hcomma' hmore' =>
    absurd (List.cons.inj heq).1.symm hopen'
  | .group hgroup hmore, .group hgroup' hmore' => by
    simp only [List.cons_append, List.append_assoc, List.cons.injEq, true_and] at heq
    obtain ⟨rfl, hafter⟩ := hgroup.unique hgroup' heq
    obtain ⟨rfl, rfl⟩ := hmore.unique hmore' hrest hrest' hafter
    exact ⟨rfl, rfl⟩

theorem ReadsGroup.unique {text text' rest rest' : List Char} {branches branches' : List (List Part)}
    (h : ReadsGroup text branches) (h' : ReadsGroup text' branches')
    (heq : text ++ '}' :: rest = text' ++ '}' :: rest') : branches = branches' ∧ rest = rest' :=
  match h, h' with
  | .last hbranch, .last hbranch' => by
    obtain ⟨rfl, hafter⟩ := hbranch.unique hbranch' (stops_cons (.inr rfl)) (stops_cons (.inr rfl)) heq
    exact ⟨rfl, (List.cons.inj hafter).2⟩
  | .last hbranch, .more hbranch' hmore' => by
    rw [List.append_assoc] at heq
    obtain ⟨-, hafter⟩ := hbranch.unique hbranch' (stops_cons (.inr rfl)) (stops_cons (.inl rfl)) heq
    exact absurd (List.cons.inj hafter).1 (by decide)
  | .more hbranch hmore, .last hbranch' => by
    rw [List.append_assoc] at heq
    obtain ⟨-, hafter⟩ := hbranch.unique hbranch' (stops_cons (.inl rfl)) (stops_cons (.inr rfl)) heq
    exact absurd (List.cons.inj hafter).1 (by decide)
  | .more hbranch hmore, .more hbranch' hmore' => by
    rw [List.append_assoc, List.append_assoc] at heq
    obtain ⟨rfl, hafter⟩ := hbranch.unique hbranch' (stops_cons (.inl rfl)) (stops_cons (.inl rfl)) heq
    obtain ⟨rfl, hafter⟩ := hmore.unique hmore' (List.cons.inj hafter).2
    exact ⟨rfl, hafter⟩

end

/-! ## Balanced braces -/

/-- Every brace that closes was opened before, and each that opens is closed. -/
def Balanced (chars : List Char) : Prop :=
  (∀ before, before <+: chars → before.count '}' ≤ before.count '{') ∧
    chars.count '}' = chars.count '{'

/-- At no place are more groups open. -/
def NestedWithin (depth : ℕ) (chars : List Char) : Prop :=
  ∀ before, before <+: chars → before.count '{' ≤ depth + before.count '}'

/-- What is left of a balanced text, within the limit, where `depth` groups are open. -/
def Open (depth : ℕ) (chars : List Char) : Prop :=
  (∀ before, before <+: chars → before.count '}' ≤ depth + before.count '{' ∧
    depth + before.count '{' ≤ maxBraceDepth + before.count '}') ∧
      chars.count '}' = depth + chars.count '{'

theorem open_zero_iff {chars : List Char} :
    Open 0 chars ↔ Balanced chars ∧ NestedWithin maxBraceDepth chars := by
  simp only [Open, Balanced, NestedWithin, Nat.zero_add]
  constructor
  · rintro ⟨hall, hcount⟩
    exact ⟨⟨fun before h => (hall before h).1, hcount⟩, fun before h => (hall before h).2⟩
  · rintro ⟨⟨hclosed, hcount⟩, hnested⟩
    exact ⟨fun before h => ⟨hclosed before h, hnested before h⟩, hcount⟩

section Opening

variable {depth : ℕ} {ch : Char} {chars : List Char}

theorem Open.le (h : Open depth chars) : depth ≤ maxBraceDepth := by
  simpa using (h.1 [] List.nil_prefix).2

theorem open_nil_iff (hdepth : depth ≤ maxBraceDepth) : Open depth [] ↔ depth = 0 := by
  constructor
  · intro h
    simpa using h.2.symm
  · rintro rfl
    exact ⟨fun before h => by simp [List.prefix_nil.mp h], rfl⟩

theorem forall_prefix_cons {P : List Char → Prop} :
    (∀ before, before <+: ch :: chars → P before) ↔
      P [] ∧ ∀ before, before <+: chars → P (ch :: before) := by
  constructor
  · intro h
    exact ⟨h [] List.nil_prefix, fun before hb => h _ ((List.prefix_cons_inj ch).mpr hb)⟩
  · rintro ⟨hnil, hcons⟩ before hb
    rcases List.prefix_cons_iff.mp hb with rfl | ⟨t, rfl, ht⟩
    · exact hnil
    · exact hcons t ht

theorem open_open_iff : Open depth ('{' :: chars) ↔ Open (depth + 1) chars := by
  simp only [Open, forall_prefix_cons, List.count_cons_self, List.count_nil,
    List.count_cons_of_ne (show '{' ≠ '}' by decide)]
  constructor
  · rintro ⟨⟨-, hall⟩, hcount⟩
    exact ⟨fun before h => by have := hall before h; omega, by omega⟩
  · rintro ⟨hall, hcount⟩
    refine ⟨⟨?_, fun before h => by have := hall before h; omega⟩, by omega⟩
    have := hall [] List.nil_prefix
    simp only [List.count_nil] at this
    omega

theorem open_close_iff (hdepth : depth < maxBraceDepth) :
    Open (depth + 1) ('}' :: chars) ↔ Open depth chars := by
  simp only [Open, forall_prefix_cons, List.count_cons_self, List.count_nil,
    List.count_cons_of_ne (show '}' ≠ '{' by decide)]
  constructor
  · rintro ⟨⟨-, hall⟩, hcount⟩
    exact ⟨fun before h => by have := hall before h; omega, by omega⟩
  · rintro ⟨hall, hcount⟩
    exact ⟨⟨by omega, fun before h => by have := hall before h; omega⟩, by omega⟩

theorem not_open_close : ¬Open 0 ('}' :: chars) := by
  intro h
  have := (h.1 ['}'] (by simp)).1
  simp at this

theorem open_cons_iff (hdepth : depth ≤ maxBraceDepth) (hopen : ch ≠ '{') (hclose : ch ≠ '}') :
    Open depth (ch :: chars) ↔ Open depth chars := by
  simp only [Open, forall_prefix_cons, List.count_nil, List.count_cons_of_ne hopen,
    List.count_cons_of_ne hclose]
  constructor
  · rintro ⟨⟨-, hall⟩, hcount⟩
    exact ⟨hall, hcount⟩
  · rintro ⟨hall, hcount⟩
    exact ⟨⟨by omega, hall⟩, hcount⟩

end Opening

/-! ## The parser -/

/-- What a sequence is to be parsed to, where `depth` groups are open. -/
def SequenceSpec (depth : ℕ) (insideGroup : Bool) (chars : List Char) :
    Except (Option Error) (List Part × List Char) → Prop
  | .ok (sequence, rest) => (∃ text, chars = text ++ rest ∧ Reads insideGroup text sequence) ∧
      Stops insideGroup rest ∧ (Open depth rest ↔ Open depth chars)
  | .error err => err ≠ none ∧ ¬Open depth chars

/-- What a group is to be parsed to, after its brace. -/
def GroupSpec (depth : ℕ) (chars : List Char) :
    Except (Option Error) (List (List Part) × List Char) → Prop
  | .ok (branches, rest) => (∃ text, chars = text ++ '}' :: rest ∧ ReadsGroup text branches) ∧
      (Open depth rest ↔ Open (depth + 1) chars)
  | .error err => err ≠ none ∧ ¬Open (depth + 1) chars

/-- A sequence with one part more before it. -/
theorem SequenceSpec.bind {depth : ℕ} {insideGroup : Bool} {chars chars' : List Char} {part : Part}
    {result : Except (Option Error) (List Part × List Char)} {x : Parsing (List Part)}
    (hx : x chars' = result) (h : SequenceSpec depth insideGroup chars' result)
    (hopen : Open depth chars' ↔ Open depth chars)
    (hreads : ∀ {text rest sequence}, chars' = text ++ rest → Reads insideGroup text sequence →
      ∃ text', chars = text' ++ rest ∧ Reads insideGroup text' (part :: sequence)) :
    SequenceSpec depth insideGroup chars
      ((do let sequence ← x; pure (part :: sequence) : Parsing (List Part)) chars') := by
  subst hx
  cases hresult : x chars' with
  | error err =>
    rw [StateExcept.bind_of_error hresult]
    rw [hresult] at h
    exact ⟨h.1, fun hop => h.2 (hopen.mpr hop)⟩
  | ok parsed =>
    obtain ⟨sequence, rest⟩ := parsed
    rw [StateExcept.bind_of_ok hresult]
    rw [hresult] at h
    obtain ⟨⟨text, htext, hread⟩, hstops, hop⟩ := h
    exact ⟨hreads htext hread, hstops, hop.trans hopen⟩

/-- The parser reads a pattern by the grammar, and fails only on texts that are not balanced or
nested too deep. -/
theorem parse_spec : ∀ fuel : ℕ,
    (∀ (depth : ℕ) (insideGroup : Bool) (chars : List Char), depth ≤ maxBraceDepth →
      (insideGroup = true ↔ 0 < depth) → 2 * chars.length + 1 ≤ fuel →
        SequenceSpec depth insideGroup chars (parseSequence fuel depth insideGroup chars)) ∧
    ∀ (depth : ℕ) (chars : List Char), depth < maxBraceDepth → 2 * chars.length + 2 ≤ fuel →
      GroupSpec depth chars (parseGroup fuel depth chars)
  | 0 => ⟨fun _ _ _ _ _ h => absurd h (by omega), fun _ _ _ h => absurd h (by omega)⟩
  | fuel + 1 => by
    obtain ⟨hsequence, hgroup⟩ := parse_spec fuel
    constructor
    · intro depth insideGroup chars hdepth hinside hfuel
      cases chars with
      | nil =>
        rw [parseSequence]
        exact ⟨⟨[], rfl, .nil⟩, stops_nil _, Iff.rfl⟩
      | cons ch chars =>
        rw [List.length_cons] at hfuel
        rw [parseSequence]
        split_ifs with hclose hin hcomma hopen hdeep
        · subst hclose hin
          exact ⟨⟨[], rfl, .nil⟩, stops_cons (.inr rfl), Iff.rfl⟩
        · obtain rfl : depth = 0 := Nat.eq_zero_of_not_pos fun h => hin (hinside.mpr h)
          subst hclose
          exact ⟨by simp, not_open_close⟩
        · obtain ⟨rfl, rfl⟩ := hcomma
          exact ⟨⟨[], rfl, .nil⟩, stops_cons (.inl rfl), Iff.rfl⟩
        · subst hopen
          refine ⟨by simp, fun hop => ?_⟩
          have := (open_open_iff.mp hop).le
          omega
        · subst hopen
          have hparsed := hgroup depth chars (not_le.mp hdeep) (by omega)
          cases hresult : parseGroup fuel depth chars with
          | error err =>
            rw [hresult] at hparsed
            rw [StateExcept.bind_of_error hresult]
            exact ⟨hparsed.1, fun hop => hparsed.2 (open_open_iff.mp hop)⟩
          | ok parsed =>
            obtain ⟨branches, rest⟩ := parsed
            rw [hresult] at hparsed
            rw [StateExcept.bind_of_ok hresult]
            obtain ⟨⟨text, rfl, hread⟩, hop⟩ := hparsed
            have hshort : 2 * rest.length + 1 ≤ fuel := by
              rw [List.length_append, List.length_cons] at hfuel
              omega
            refine SequenceSpec.bind rfl (hsequence depth insideGroup rest hdepth hinside hshort)
              (hop.trans open_open_iff.symm) fun {more after sequence} hmore hreads => ?_
            exact ⟨'{' :: (text ++ '}' :: more), by simp [hmore], .group hread hreads⟩
        · refine SequenceSpec.bind rfl (hsequence depth insideGroup chars hdepth hinside (by omega))
            (open_cons_iff hdepth hopen hclose).symm fun {text rest sequence} htext hreads => ?_
          refine ⟨ch :: text, by rw [htext]; rfl, .char hopen hclose (fun hch => ?_) hreads⟩
          cases insideGroup with
          | false => rfl
          | true => exact absurd ⟨hch, rfl⟩ hcomma
    · intro depth chars hdepth hfuel
      have hparsed := hsequence (depth + 1) true chars hdepth
        (iff_of_true rfl (Nat.succ_pos depth)) (by omega)
      rw [parseGroup]
      cases hresult : parseSequence fuel (depth + 1) true chars with
      | error err =>
        rw [hresult] at hparsed
        exact ⟨hparsed.1, hparsed.2⟩
      | ok parsed =>
        obtain ⟨branch, rest⟩ := parsed
        rw [hresult] at hparsed
        obtain ⟨⟨text, rfl, hread⟩, hstops, hop⟩ := hparsed
        cases rest with
        | nil =>
          refine ⟨by simp, fun h => ?_⟩
          exact absurd ((open_nil_iff hdepth).mp (hop.mpr h)) (Nat.succ_ne_zero depth)
        | cons ch rest =>
          rw [List.length_append, List.length_cons] at hfuel
          obtain ⟨-, rfl | rfl⟩ := hstops ch rfl
          · have hmore := hgroup depth rest hdepth (by omega)
            have hcomma : Open (depth + 1) rest ↔ Open (depth + 1) (text ++ ',' :: rest) :=
              (open_cons_iff hdepth (by decide) (by decide)).symm.trans hop
            cases hnext : parseGroup fuel depth rest with
            | error err =>
              rw [hnext] at hmore
              simp only [StateExcept.bind_of_error hnext]
              exact ⟨hmore.1, fun h => hmore.2 (hcomma.mpr h)⟩
            | ok parsed =>
              obtain ⟨branches, after⟩ := parsed
              rw [hnext] at hmore
              simp only [StateExcept.bind_of_ok hnext]
              obtain ⟨⟨texts, rfl, hreads⟩, hops⟩ := hmore
              exact ⟨⟨text ++ ',' :: texts, by simp, .more hread hreads⟩, hops.trans hcomma⟩
          · exact ⟨⟨text, rfl, .last hread⟩, (open_close_iff hdepth).symm.trans hop⟩

/-- What `parse` gives : the sequence the pattern stands for, or an error if its braces are not
balanced or nested too deep. -/
theorem parse_cases {fuel : ℕ} {chars : List Char} (hfuel : 2 * chars.length + 1 ≤ fuel) :
    (∃ sequence, parse fuel chars = .ok sequence ∧ Reads false chars sequence ∧ Open 0 chars) ∨
      ∃ err, parse fuel chars = .error (some err) ∧ ¬Open 0 chars := by
  have h := (parse_spec fuel).1 0 false chars (Nat.zero_le _) (by simp) hfuel
  unfold parse
  cases hresult : parseSequence fuel 0 false chars with
  | error err =>
    rw [hresult] at h
    obtain ⟨err, rfl⟩ := Option.ne_none_iff_exists'.mp h.1
    exact .inr ⟨err, rfl, h.2⟩
  | ok parsed =>
    obtain ⟨sequence, rest⟩ := parsed
    rw [hresult] at h
    obtain ⟨⟨text, rfl, hread⟩, hstops, hop⟩ := h
    obtain rfl := eq_nil_of_stops_false hstops
    rw [List.append_nil] at hop ⊢
    exact .inl ⟨sequence, rfl, hread, hop.mp ((open_nil_iff (Nat.zero_le _)).mpr rfl)⟩

end Glob

end LocalCache
