import LocalCache.Glob
import LocalCache.WordLanguages

/-!
# The matcher loses no match

`matches_tokens` goes back to the last star only. Between two stars every token takes one
character, so the tokens since the last star fit the candidate at the leftmost place they can, and
an earlier star has nothing to gain (`Cursors.step_spec`). Each round takes the cursors further
(`Cursors.rank`), so the loop ends, with the answer whether the candidate is a word of the tokens'
language (`matchesTokens_spec`).
-/

namespace LocalCache

namespace Glob

/-! ## What tokens match -/

/-- The words a token stands for. -/
def Token.language : Token → Language Char
  | .anySequence => ⊤
  | .anyScalar => .letters
  | .literal c => {[c]}

/-- The words a list of tokens stands for, one after another. -/
def tokensLanguage : List Token → Language Char
  | [] => 1
  | t :: ts => t.language * tokensLanguage ts

@[simp] theorem tokensLanguage_nil : tokensLanguage [] = 1 := rfl

@[simp] theorem tokensLanguage_cons (t : Token) (ts : List Token) :
    tokensLanguage (t :: ts) = t.language * tokensLanguage ts := rfl

theorem tokensLanguage_append : ∀ ts us : List Token,
    tokensLanguage (ts ++ us) = tokensLanguage ts * tokensLanguage us
  | [], us => (one_mul _).symm
  | t :: ts, us => by
    rw [List.cons_append, tokensLanguage_cons, tokensLanguage_cons, tokensLanguage_append ts us,
      mul_assoc]

theorem hasLength_token {t : Token} (ht : t ≠ .anySequence) : t.language.HasLength 1 := by
  cases t with
  | anySequence => exact absurd rfl ht
  | anyScalar => exact Language.hasLength_letters
  | literal c => exact Language.hasLength_singleton c

/-- Tokens without a star take one character each. -/
theorem hasLength_tokens : ∀ {ts : List Token}, .anySequence ∉ ts →
    (tokensLanguage ts).HasLength ts.length
  | [], _ => Language.hasLength_one
  | t :: ts, h => by
    rw [tokensLanguage_cons, List.length_cons, Nat.add_comm]
    exact (hasLength_token fun ht => h (ht ▸ List.mem_cons_self)).mul
      (hasLength_tokens fun hts => h (List.mem_cons_of_mem _ hts))

/-- Only stars match nothing. -/
theorem nil_mem_tokensLanguage : ∀ ts : List Token,
    [] ∈ tokensLanguage ts ↔ (ts.dropWhile (· = .anySequence)).isEmpty = true
  | [] => iff_of_true Language.nil_mem_one rfl
  | t :: ts => by
    by_cases ht : t = .anySequence
    · subst ht
      rw [tokensLanguage_cons, List.dropWhile_cons_of_pos (by simp), ← nil_mem_tokensLanguage ts]
      exact Language.nil_mem_top_mul
    · rw [tokensLanguage_cons, List.dropWhile_cons_of_neg (by simpa using ht)]
      refine iff_of_false (fun h => ?_) (by simp)
      exact absurd (Language.le_length_of_mem_mul (hasLength_token ht) h) (by simp)

/-! ## One round -/

section Matching

variable {pattern : List Token} {candidate : List Char}

/-- The invariant of the loop. Before the first star, what is left decides. After one, the tokens
since the last star fit from `retry` on, and what that star and all after it match decides. -/
inductive Cursors.Fits (pattern : List Token) (candidate : List Char) : Cursors → Prop
  | fresh (seg rest : List Token) (v w : List Char) (hpattern : pattern = seg ++ rest)
      (hcandidate : candidate = v ++ w)
      (hdecides : candidate ∈ tokensLanguage pattern ↔ w ∈ tokensLanguage rest) :
      Fits pattern candidate ⟨seg.length, v.length, none, 0⟩
  | starred (pre seg rest : List Token) (u v w : List Char)
      (hpattern : pattern = pre ++ .anySequence :: (seg ++ rest)) (hcandidate : candidate = u ++ (v ++ w))
      (hseg : .anySequence ∉ seg) (hfits : v ∈ tokensLanguage seg)
      (hdecides : candidate ∈ tokensLanguage pattern ↔ v ++ w ∈ ⊤ * tokensLanguage (seg ++ rest)) :
      Fits pattern candidate
        ⟨pre.length + 1 + seg.length, u.length + v.length, some pre.length, u.length⟩

/-- How far the loop is from its end : first the places left to retry from, then the tokens. -/
def Cursors.rank (pattern : List Token) (candidate : List Char) (c : Cursors) : ℕ :=
  (candidate.length - c.retry) * (pattern.length + 1) + (pattern.length - c.pattern)

/-- What a round is to do : go on closer to the end, or answer. -/
def Cursors.StepSpec (pattern : List Token) (candidate : List Char) (c : Cursors) :
    Cursors ⊕ Bool → Prop
  | .inl c' => c'.Fits pattern candidate ∧ c'.rank pattern candidate < c.rank pattern candidate
  | .inr matched => matched = true ↔ candidate ∈ tokensLanguage pattern

/-- What a round does, by what is left of the tokens and of the candidate. -/
theorem Cursors.step_cases {c : Cursors} {rest : List Token} {w : List Char}
    (hpattern : pattern.drop c.pattern = rest) (hcandidate : candidate.drop c.candidate = w) :
    (w = [] ∧ c.step pattern candidate = .inr (rest.dropWhile (· = .anySequence)).isEmpty) ∨
    (∃ ch w' t rest', w = ch :: w' ∧ rest = t :: rest' ∧ t ≠ .anySequence ∧ [ch] ∈ t.language ∧
      c.step pattern candidate =
        .inl { c with pattern := c.pattern + 1, candidate := c.candidate + 1 }) ∨
    (∃ ch w' rest', w = ch :: w' ∧ rest = .anySequence :: rest' ∧
      c.step pattern candidate = .inl ⟨c.pattern + 1, c.candidate, some c.pattern, c.candidate⟩) ∨
    ∃ ch w', w = ch :: w' ∧ w ∉ tokensLanguage rest ∧ c.step pattern candidate = c.backtrack := by
  have hch : candidate[c.candidate]? = w.head? := by rw [← hcandidate, List.head?_drop]
  have ht : pattern[c.pattern]? = rest.head? := by rw [← hpattern, List.head?_drop]
  unfold Cursors.step
  rw [hch, ht, hpattern]
  cases w with
  | nil => exact .inl ⟨rfl, rfl⟩
  | cons ch w =>
    cases rest with
    | nil => exact .inr (.inr (.inr ⟨ch, w, rfl, by simp [Language.mem_one], rfl⟩))
    | cons t rest =>
      cases t with
      | anySequence => exact .inr (.inr (.inl ⟨ch, w, rest, rfl, rfl, rfl⟩))
      | anyScalar => exact .inr (.inl ⟨ch, w, _, rest, rfl, rfl, by simp, rfl, rfl⟩)
      | literal expected =>
        by_cases heq : expected = ch
        · subst heq
          exact .inr (.inl ⟨expected, w, _, rest, rfl, rfl, by simp, rfl, if_pos rfl⟩)
        · refine .inr (.inr (.inr ⟨ch, w, rfl, fun hmem => ?_, if_neg heq⟩))
          have hfits := (Language.append_mem_mul_iff (Language.hasLength_singleton expected) rfl
            (u := [ch])).mp hmem
          exact heq (List.singleton_inj.mp (Language.mem_singleton.mp hfits.1)).symm

theorem cons_mem_tokensLanguage {t : Token} (ht : t ≠ .anySequence) {ch : Char}
    (hfits : [ch] ∈ t.language) {w : List Char} {rest : List Token} :
    ch :: w ∈ tokensLanguage (t :: rest) ↔ w ∈ tokensLanguage rest := by
  have := Language.append_mem_mul_iff (u := [ch]) (v := w) (l := tokensLanguage rest) (hasLength_token ht) rfl
  exact this.trans (and_iff_right hfits)

/-- The loop comes closer to its end as `retry` goes up, or a token is passed. -/
theorem Cursors.rank_lt {c c' : Cursors} (hretry : c.retry ≤ c'.retry)
    (hsame : c.retry = c'.retry → c.pattern < c'.pattern ∧ c.pattern < pattern.length)
    (hmore : c.retry < c'.retry → c.retry < candidate.length) :
    c'.rank pattern candidate < c.rank pattern candidate := by
  unfold rank
  rcases hretry.eq_or_lt with heq | hlt
  · have := hsame heq
    rw [heq]
    omega
  · have := hmore hlt
    have hplaces : (candidate.length - c'.retry + 1) * (pattern.length + 1) ≤
        (candidate.length - c.retry) * (pattern.length + 1) := Nat.mul_le_mul_right _ (by omega)
    rw [Nat.add_one_mul] at hplaces
    omega

/-- A round before the first star. -/
theorem Cursors.step_fresh (seg rest : List Token) (v w : List Char) (hpattern : pattern = seg ++ rest)
    (hcandidate : candidate = v ++ w)
    (hdecides : candidate ∈ tokensLanguage pattern ↔ w ∈ tokensLanguage rest) :
    StepSpec pattern candidate ⟨seg.length, v.length, none, 0⟩
      (step pattern candidate ⟨seg.length, v.length, none, 0⟩) := by
  have hp : pattern.drop seg.length = rest := hpattern ▸ List.drop_left
  have hc : candidate.drop v.length = w := hcandidate ▸ List.drop_left
  rcases step_cases (c := ⟨seg.length, v.length, none, 0⟩) hp hc with ⟨rfl, h⟩ |
    ⟨ch, w', t, rest', rfl, rfl, ht, hfits, h⟩ | ⟨ch, w', rest', rfl, rfl, h⟩ | ⟨ch, w', rfl, hno, h⟩
  · rw [h]
    exact (nil_mem_tokensLanguage rest).symm.trans hdecides.symm
  · rw [h]
    have hnext : Fits pattern candidate ⟨(seg ++ [t]).length, (v ++ [ch]).length, none, 0⟩ :=
      .fresh (seg ++ [t]) rest' (v ++ [ch]) w' (by simp [hpattern]) (by simp [hcandidate])
        (hdecides.trans (cons_mem_tokensLanguage ht hfits))
    rw [List.length_append, List.length_append] at hnext
    exact ⟨hnext, rank_lt le_rfl (fun _ => by simp [hpattern]) fun h => absurd h (lt_irrefl _)⟩
  · rw [h]
    have hnext : Fits pattern candidate ⟨seg.length + 1, v.length, some seg.length, v.length⟩ :=
      .starred seg [] rest' v [] (ch :: w') hpattern hcandidate List.not_mem_nil
        Language.nil_mem_one hdecides
    exact ⟨hnext, rank_lt (Nat.zero_le _) (fun _ => by simp [hpattern]) fun h => by
      simp [hcandidate]⟩
  · rw [h]
    exact iff_of_false (by simp) fun hmem => hno (hdecides.mp hmem)

/-- A round after a star. -/
theorem Cursors.step_starred (pre seg rest : List Token) (u v w : List Char)
    (hpattern : pattern = pre ++ .anySequence :: (seg ++ rest)) (hcandidate : candidate = u ++ (v ++ w))
    (hseg : .anySequence ∉ seg) (hfits : v ∈ tokensLanguage seg)
    (hdecides : candidate ∈ tokensLanguage pattern ↔ v ++ w ∈ ⊤ * tokensLanguage (seg ++ rest)) :
    StepSpec pattern candidate
      ⟨pre.length + 1 + seg.length, u.length + v.length, some pre.length, u.length⟩
      (step pattern candidate
        ⟨pre.length + 1 + seg.length, u.length + v.length, some pre.length, u.length⟩) := by
  have hwidth := hasLength_tokens hseg
  have hp : pattern.drop (pre.length + 1 + seg.length) = rest := by
    have hsplit : pattern = (pre ++ .anySequence :: seg) ++ rest := by simp [hpattern]
    rw [hsplit, List.drop_left']
    simp only [List.length_append, List.length_cons]
    omega
  have hc : candidate.drop (u.length + v.length) = w := by
    rw [hcandidate, ← List.append_assoc, List.drop_left' List.length_append]
  rcases step_cases (c := ⟨pre.length + 1 + seg.length, u.length + v.length, some pre.length,
    u.length⟩) hp hc with ⟨rfl, h⟩ | ⟨ch, w', t, rest', rfl, rfl, ht, hone, h⟩ |
      ⟨ch, w', rest', rfl, rfl, h⟩ | ⟨ch, w', rfl, hno, h⟩
  · -- no later place is left for the tokens since the star
    rw [h]
    refine (nil_mem_tokensLanguage rest).symm.trans (Iff.trans ?_ hdecides.symm)
    rw [tokensLanguage_append, List.append_nil]
    constructor
    · intro hnil
      rw [← List.append_nil v]
      exact Language.mem_top_mul_of_mem (Language.append_mem_mul hfits hnil)
    · intro hmem
      obtain ⟨u', v', rfl, hv'⟩ := Language.mem_top_mul.mp hmem
      have hlong := Language.le_length_of_mem_mul hwidth hv'
      have hv := hwidth _ hfits
      rw [List.length_append] at hv
      obtain rfl : u' = [] := List.eq_nil_of_length_eq_zero (by omega)
      rw [← List.append_nil v', Language.append_mem_mul_iff hwidth (hwidth v' hfits)] at hv'
      exact hv'.2
  · rw [h]
    have hmem : v ++ [ch] ∈ tokensLanguage (seg ++ [t]) := by
      rw [tokensLanguage_append, tokensLanguage_cons, tokensLanguage_nil, mul_one]
      exact Language.append_mem_mul hfits hone
    have hnext : Fits pattern candidate ⟨pre.length + 1 + (seg ++ [t]).length,
        u.length + (v ++ [ch]).length, some pre.length, u.length⟩ :=
      .starred pre (seg ++ [t]) rest' u (v ++ [ch]) w' (by simp [hpattern]) (by simp [hcandidate])
        (by simp [hseg, ht.symm]) hmem (by simpa using hdecides)
    rw [List.length_append, List.length_append] at hnext
    exact ⟨hnext, rank_lt le_rfl (fun _ => ⟨Nat.lt_succ_self _, by simp [hpattern]; omega⟩)
      fun h => absurd h (lt_irrefl _)⟩
  · rw [h]
    have hstar : v ++ ch :: w' ∈ ⊤ * tokensLanguage (seg ++ .anySequence :: rest') ↔
        ch :: w' ∈ ⊤ * tokensLanguage rest' := by
      rw [tokensLanguage_append]
      exact Language.mem_top_mul_leftmost hwidth hfits
    have hnext : Fits pattern candidate ⟨(pre ++ .anySequence :: seg).length + 1, (u ++ v).length,
        some (pre ++ .anySequence :: seg).length, (u ++ v).length⟩ :=
      .starred (pre ++ .anySequence :: seg) [] rest' (u ++ v) [] (ch :: w') (by simp [hpattern])
        (by simp [hcandidate]) List.not_mem_nil Language.nil_mem_one (hdecides.trans hstar)
    have hlength : (pre ++ .anySequence :: seg).length = pre.length + 1 + seg.length := by
      rw [List.length_append, List.length_cons]
      omega
    rw [hlength, List.length_append] at hnext
    exact ⟨hnext, rank_lt (Nat.le_add_right _ _) (fun _ => ⟨Nat.lt_succ_self _, by simp [hpattern]; omega⟩)
      fun _ => by simp [hcandidate]⟩
  · -- the star takes one more character
    rw [h]
    have hfails : v ++ ch :: w' ∉ tokensLanguage (seg ++ rest) := by
      rw [tokensLanguage_append, Language.append_mem_mul_iff hwidth (hwidth v hfits)]
      exact fun hmem => hno hmem.2
    obtain ⟨a, z, haz⟩ : ∃ a z, v ++ ch :: w' = a :: z :=
      List.exists_cons_of_ne_nil (by simp)
    rw [haz, Language.cons_mem_top_mul, or_iff_right (haz ▸ hfails)] at hdecides
    have hnext : Fits pattern candidate ⟨pre.length + 1, (u ++ [a]).length, some pre.length,
        (u ++ [a]).length⟩ :=
      .starred pre [] (seg ++ rest) (u ++ [a]) [] z hpattern (by simp [hcandidate, haz])
        List.not_mem_nil Language.nil_mem_one hdecides
    rw [List.length_append] at hnext
    exact ⟨hnext, rank_lt (Nat.le_succ _) (fun h => absurd h (Nat.lt_succ_self _).ne) fun _ => by
      simp [hcandidate]⟩

/-- A round keeps the invariant and comes closer to the end, or it answers right. -/
theorem Cursors.step_spec {c : Cursors} (h : c.Fits pattern candidate) :
    StepSpec pattern candidate c (c.step pattern candidate) := by
  cases h with
  | fresh seg rest v w hpattern hcandidate hdecides =>
    exact step_fresh seg rest v w hpattern hcandidate hdecides
  | starred pre seg rest u v w hpattern hcandidate hseg hfits hdecides =>
    exact step_starred pre seg rest u v w hpattern hcandidate hseg hfits hdecides

/-! ## The loop -/

theorem matchesFrom_spec : ∀ {fuel : ℕ} {c : Cursors}, c.Fits pattern candidate →
    c.rank pattern candidate < fuel → ∃ matched, matchesFrom pattern candidate fuel c = some matched ∧
      (matched = true ↔ candidate ∈ tokensLanguage pattern)
  | 0, _, _, hrank => absurd hrank (Nat.not_lt_zero _)
  | fuel + 1, c, hfits, hrank => by
    have hstep := Cursors.step_spec hfits
    unfold matchesFrom
    cases hnext : c.step pattern candidate with
    | inr matched =>
      rw [hnext] at hstep
      exact ⟨matched, rfl, hstep⟩
    | inl c' =>
      rw [hnext] at hstep
      exact matchesFrom_spec hstep.1 (by have := hstep.2; omega)

/-- Enough fuel for a list of tokens. -/
def matchFuel (pattern : List Token) (candidate : List Char) : ℕ :=
  candidate.length * (pattern.length + 1) + pattern.length + 1

/-- The loop ends, and tells whether the candidate is a word of the tokens' language. -/
theorem matchesTokens_spec {fuel : ℕ} (hfuel : matchFuel pattern candidate ≤ fuel) :
    ∃ matched, matchesTokens pattern candidate fuel = some matched ∧
      (matched = true ↔ candidate ∈ tokensLanguage pattern) := by
  refine matchesFrom_spec (.fresh [] pattern [] candidate rfl rfl Iff.rfl) ?_
  rw [Cursors.rank, Nat.sub_zero, Nat.sub_zero]
  exact hfuel

end Matching

/-! ## All alternatives -/

/-- The words that some alternative stands for. -/
def alternativesLanguage (alternatives : Alternatives) : Language Char :=
  (alternatives.map tokensLanguage).sum

@[simp] theorem alternativesLanguage_nil : alternativesLanguage [] = 0 := rfl

@[simp] theorem alternativesLanguage_cons (tokens : List Token) (alternatives : Alternatives) :
    alternativesLanguage (tokens :: alternatives) =
      tokensLanguage tokens + alternativesLanguage alternatives :=
  List.sum_cons

theorem mem_alternativesLanguage {w : List Char} : ∀ {alternatives : Alternatives},
    w ∈ alternativesLanguage alternatives ↔ ∃ tokens ∈ alternatives, w ∈ tokensLanguage tokens
  | [] => iff_of_false (Language.notMem_zero w) (by simp)
  | tokens :: alternatives => by
    rw [alternativesLanguage_cons, Language.mem_add, mem_alternativesLanguage]
    simp

theorem matchesAny_spec {candidate : List Char} {fuel : ℕ} : ∀ {alternatives : Alternatives},
    (∀ tokens ∈ alternatives, matchFuel tokens candidate ≤ fuel) →
      ∃ matched, matchesAny candidate fuel alternatives = some matched ∧
        (matched = true ↔ candidate ∈ alternativesLanguage alternatives)
  | [], _ => ⟨false, rfl, iff_of_false (by simp) (Language.notMem_zero candidate)⟩
  | tokens :: alternatives, hfuel => by
    obtain ⟨matched, hmatched, hiff⟩ := matchesTokens_spec (hfuel tokens List.mem_cons_self)
    rw [alternativesLanguage_cons]
    unfold matchesAny
    rw [hmatched]
    cases matched with
    | true => exact ⟨true, rfl, iff_of_true rfl (.inl (hiff.mp rfl))⟩
    | false =>
      obtain ⟨matched', hmatched', hiff'⟩ :=
        matchesAny_spec fun ts hts => hfuel ts (List.mem_cons_of_mem _ hts)
      refine ⟨matched', hmatched', hiff'.trans ?_⟩
      rw [Language.mem_add, or_iff_right fun h => absurd (hiff.mpr h) (by simp)]

end Glob

end LocalCache
