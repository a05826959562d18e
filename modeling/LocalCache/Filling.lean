import LocalCache.Listing

/-!
# Filling a page of a query

`run_report` fills a page window by window, and reads the payloads of a window in one
statement. The windows do not show in the report : it is that of one pass over all candidates
with all payloads (`runPhase_filling`). Such a pass handles a prefix of the candidates, every
one, or up to the candidate that completes the page (`handles_fillWindow`).
-/

namespace LocalCache

section Pass

variable {T : Type} (src : Sources T) (payloads : List PayloadRow)

/-- Whether a candidate decodes with the payload among these. -/
def decodes (c : CandidateRow) : Bool :=
  match payloads.find? fun p => p.fileId = c.id with
  | none => false
  | some p => (src.decode c.path ⟨p.content, p.encoding⟩).toBool

/-- What a candidate with a payload that does not decode adds to the report. -/
def skipOf (c : CandidateRow) : Option SkippedEntry :=
  match payloads.find? fun p => p.fileId = c.id with
  | none => none
  | some p =>
    match src.decode c.path ⟨p.content, p.encoding⟩ with
    | .error err => some ⟨c.path, err⟩
    | .ok _ => none

/-- The entry of a candidate that decodes. -/
def entryOf (c : CandidateRow) : Option (CacheEntry T) :=
  match payloads.find? fun p => p.fileId = c.id with
  | none => none
  | some p =>
    match src.decode c.path ⟨p.content, p.encoding⟩ with
    | .error _ => none
    | .ok payload => some ⟨c.path, c.metadata, payload⟩

/-- How many candidates the page can still take, those the offset drops included. -/
def Filling.room (limit : ℕ) (f : Filling T) : ℕ := f.toSkip + (limit - f.entries.length)

/-- The candidates a pass looks at : it ends after the one that completes the page. -/
def handledBy (limit : Option ℕ) : List CandidateRow → Filling T → List CandidateRow
  | [], _ => []
  | c :: cs, f => c :: if (fillOne src payloads c f).full limit then []
      else handledBy limit cs (fillOne src payloads c f)

/-- The candidates `handled` are those that a pass over `cs` looked at. -/
structure Handles (limit : Option ℕ) (f : Filling T) (cs handled : List CandidateRow) : Prop where
  isPrefix : handled <+: cs
  skipped : (fillWindow src limit payloads cs f).skipped =
    f.skipped ++ handled.filterMap (skipOf src payloads)
  room : ∀ n, limit = some n → ∀ before c after, handled = before ++ c :: after →
    (before.filter (decodes src payloads)).length < f.room n
  stops : handled = cs ∨
    ∃ n, limit = some n ∧ (handled.filter (decodes src payloads)).length = f.room n

variable {limit : Option ℕ} {f : Filling T}

/-- What a candidate does to the page : one that does not decode adds what is to be reported, one
that decodes uses up the offset or becomes an entry. -/
theorem fillOne_cases (c : CandidateRow) (f : Filling T) :
    (decodes src payloads c = false ∧
      fillOne src payloads c f = { f with skipped := f.skipped ++ (skipOf src payloads c).toList }) ∨
    decodes src payloads c = true ∧ skipOf src payloads c = none ∧
      (0 < f.toSkip ∧ fillOne src payloads c f = { f with toSkip := f.toSkip - 1 } ∨
        f.toSkip = 0 ∧ ∃ entry, entryOf src payloads c = some entry ∧
          fillOne src payloads c f = { f with entries := f.entries ++ [entry] }) := by
  unfold fillOne decodes skipOf entryOf
  cases payloads.find? fun p => p.fileId = c.id with
  | none => exact Or.inl ⟨rfl, by simp⟩
  | some p =>
    dsimp only
    cases src.decode c.path ⟨p.content, p.encoding⟩ with
    | error err => exact Or.inl ⟨rfl, rfl⟩
    | ok payload =>
      refine Or.inr ⟨rfl, rfl, ?_⟩
      dsimp only
      split_ifs with hskip
      · exact Or.inl ⟨hskip, rfl⟩
      · exact Or.inr ⟨Nat.eq_zero_of_not_pos hskip, _, rfl, rfl⟩

theorem skipped_fillOne (c : CandidateRow) : (fillOne src payloads c f).skipped =
    f.skipped ++ (skipOf src payloads c).toList := by
  rcases fillOne_cases src payloads c f with
    ⟨-, heq⟩ | ⟨-, hnone, ⟨-, heq⟩ | ⟨-, entry, -, heq⟩⟩
  · rw [heq]
  · rw [heq, hnone, Option.toList_none, List.append_nil]
  · rw [heq, hnone, Option.toList_none, List.append_nil]

/-- A candidate that decodes takes one place, and it is the last if the page is then full. -/
theorem room_fillOne (c : CandidateRow) {n : ℕ} (hfull : ¬f.full (some n)) :
    (fillOne src payloads c f).room n = f.room n - (if decodes src payloads c then 1 else 0) ∧
      ((fillOne src payloads c f).full (some n) ↔ (fillOne src payloads c f).room n = 0) := by
  have hlt : f.entries.length < n := not_le.mp hfull
  rcases fillOne_cases src payloads c f with
    ⟨hdec, heq⟩ | ⟨hdec, -, ⟨hpos, heq⟩ | ⟨hzero, entry, -, heq⟩⟩
  · rw [heq, hdec, if_neg (by simp)]
    simp only [Filling.full, Filling.room]
    omega
  · rw [heq, hdec, if_pos rfl]
    simp only [Filling.full, Filling.room]
    omega
  · rw [heq, hdec, if_pos rfl]
    simp only [Filling.full, Filling.room, List.length_append, List.length_singleton]
    omega

theorem not_full_none : ¬f.full none := id

/-- A pass over the candidates handles a prefix of them. -/
theorem handles_fillWindow : ∀ (cs : List CandidateRow) {f : Filling T}, ¬f.full limit →
    Handles src payloads limit f cs (handledBy src payloads limit cs f)
  | [], f, _ => ⟨List.prefix_refl _, by simp [fillWindow, handledBy], by simp [handledBy], Or.inl rfl⟩
  | c :: cs, f, hfull => by
    rw [handledBy]
    by_cases hfull' : (fillOne src payloads c f).full limit
    · -- the candidate completes the page
      rw [if_pos hfull']
      refine ⟨⟨cs, rfl⟩, ?_, fun n hn before c' after h => ?_, Or.inr ?_⟩
      · rw [fillWindow, if_pos hfull', skipped_fillOne]
        cases hskip : skipOf src payloads c <;> simp [hskip]
      · subst hn
        obtain ⟨rfl, -⟩ : before = [] ∧ _ := by
          cases before with
          | nil => exact ⟨rfl, trivial⟩
          | cons b before => exact absurd (List.cons.inj h).2 (by simp)
        have hlt : f.entries.length < n := not_le.mp hfull
        simp only [List.filter_nil, List.length_nil, Filling.room]
        omega
      · cases limit with
        | none => exact absurd hfull' not_full_none
        | some n =>
          obtain ⟨hroom, hiff⟩ := room_fillOne src payloads c hfull
          have hlt : f.entries.length < n := not_le.mp hfull
          have hpos : 0 < f.room n := by
            unfold Filling.room
            omega
          refine ⟨n, rfl, ?_⟩
          rw [hiff.mp hfull'] at hroom
          cases hdec : decodes src payloads c with
          | true =>
            rw [hdec] at hroom
            simp only [if_true] at hroom
            rw [List.filter_cons_of_pos hdec]
            simp only [List.filter_nil, List.length_singleton]
            omega
          | false =>
            rw [hdec] at hroom
            simp only [Bool.false_eq_true, if_false] at hroom
            omega
    · rw [if_neg hfull']
      have h := handles_fillWindow cs hfull'
      generalize handledBy src payloads limit cs (fillOne src payloads c f) = handled at h ⊢
      have hroom : ∀ n, limit = some n → (fillOne src payloads c f).room n =
          f.room n - (if decodes src payloads c then 1 else 0) ∧ 0 < (fillOne src payloads c f).room n := by
        rintro n rfl
        obtain ⟨hroom, hiff⟩ := room_fillOne src payloads c hfull
        exact ⟨hroom, Nat.pos_of_ne_zero fun h0 => hfull' (hiff.mpr h0)⟩
      have hcount : ∀ before : List CandidateRow, ((c :: before).filter (decodes src payloads)).length =
          (before.filter (decodes src payloads)).length + (if decodes src payloads c then 1 else 0) := by
        intro before
        cases hdec : decodes src payloads c with
        | true => rw [List.filter_cons_of_pos hdec, List.length_cons, if_pos rfl]
        | false => rw [List.filter_cons_of_neg (by simp [hdec]), if_neg (by simp), Nat.add_zero]
      refine ⟨(List.prefix_cons_inj c).mpr h.isPrefix, ?_, ?_, ?_⟩
      · rw [fillWindow, if_neg hfull', h.skipped, skipped_fillOne, List.append_assoc]
        cases hskip : skipOf src payloads c <;> simp [hskip]
      · intro n hn before c' after heq
        obtain ⟨hn', hpos⟩ := hroom n hn
        cases before with
        | nil =>
          simp only [List.filter_nil, List.length_nil]
          omega
        | cons b before =>
          obtain ⟨rfl, htail⟩ := List.cons.inj heq
          have hlt := h.room n hn before c' after htail
          rw [hcount]
          omega
      · rcases h.stops with rfl | ⟨n, hn, hlen⟩
        · exact Or.inl rfl
        · obtain ⟨hn', hpos⟩ := hroom n hn
          refine Or.inr ⟨n, hn, ?_⟩
          rw [hcount, hlen]
          omega

theorem isSome_entryOf (c : CandidateRow) : (entryOf src payloads c).isSome = decodes src payloads c := by
  unfold entryOf decodes
  cases payloads.find? fun p => p.fileId = c.id with
  | none => rfl
  | some p => dsimp only; cases src.decode c.path ⟨p.content, p.encoding⟩ <;> rfl

/-- The entries of the candidates handled, without those the offset drops. -/
theorem entries_fillWindow_eq : ∀ (cs : List CandidateRow) (f : Filling T),
    (fillWindow src limit payloads cs f).entries =
      f.entries ++ ((handledBy src payloads limit cs f).filterMap (entryOf src payloads)).drop f.toSkip
  | [], f => by simp [fillWindow, handledBy]
  | c :: cs, f => by
    have hnext : (fillWindow src limit payloads (c :: cs) f).entries =
        (fillOne src payloads c f).entries ++ ((if (fillOne src payloads c f).full limit then []
          else handledBy src payloads limit cs (fillOne src payloads c f)).filterMap
            (entryOf src payloads)).drop (fillOne src payloads c f).toSkip := by
      rw [fillWindow]
      by_cases hfull : (fillOne src payloads c f).full limit
      · rw [if_pos hfull, if_pos hfull, List.filterMap_nil, List.drop_nil, List.append_nil]
      · rw [if_neg hfull, if_neg hfull]
        exact entries_fillWindow_eq cs _
    rw [hnext, handledBy]
    generalize (if (fillOne src payloads c f).full limit then []
      else handledBy src payloads limit cs (fillOne src payloads c f)) = handled
    have hsome := isSome_entryOf src payloads c
    rcases fillOne_cases src payloads c f with
      ⟨hdec, heq⟩ | ⟨hdec, -, ⟨hpos, heq⟩ | ⟨hzero, entry, hentry, heq⟩⟩
    · rw [hdec, Option.isSome_eq_false_iff, Option.isNone_iff_eq_none] at hsome
      rw [heq, List.filterMap_cons_none hsome]
    · obtain ⟨entry, hentry⟩ := Option.isSome_iff_exists.mp (hsome.trans hdec)
      rw [heq, List.filterMap_cons_some hentry]
      obtain ⟨n, hn⟩ := Nat.exists_eq_succ_of_ne_zero hpos.ne'
      simp only [hn, Nat.succ_sub_one, Nat.succ_eq_add_one, List.drop_succ_cons]
    · rw [heq, List.filterMap_cons_some hentry, hzero, List.drop_zero, List.append_assoc]
      simp

/-- A pass takes no place away. -/
theorem room_fillWindow_le (n : ℕ) : ∀ (cs : List CandidateRow) (f : Filling T),
    (fillWindow src limit payloads cs f).room n ≤ f.room n
  | [], _ => le_rfl
  | c :: cs, f => by
    have hone : (fillOne src payloads c f).room n ≤ f.room n := by
      rcases fillOne_cases src payloads c f with
        ⟨-, heq⟩ | ⟨-, -, ⟨-, heq⟩ | ⟨-, entry, -, heq⟩⟩
      · rw [heq]
        rfl
      · rw [heq]
        simp only [Filling.room]
        omega
      · rw [heq]
        simp only [Filling.room, List.length_append]
        omega
    rw [fillWindow]
    split_ifs
    · exact hone
    · exact (room_fillWindow_le n cs _).trans hone

end Pass

/-! ## Windows -/

section Windows

variable {T : Type} {src : Sources T} {limit : Option ℕ} {payloads payloads' : List PayloadRow}

theorem fillOne_rest (c : CandidateRow) (f : Filling T) (rest : List CandidateRow) :
    fillOne src payloads c { f with rest := rest } =
      { fillOne src payloads c f with rest := rest } := by
  unfold fillOne
  split
  · rfl
  · split
    · rfl
    · split_ifs <;> rfl

/-- A pass does not look at the candidates left. -/
theorem fillWindow_rest (rest : List CandidateRow) : ∀ (cs : List CandidateRow) (f : Filling T),
    fillWindow src limit payloads cs { f with rest := rest } =
      { fillWindow src limit payloads cs f with rest := rest }
  | [], _ => rfl
  | c :: cs, f => by
    rw [fillWindow, fillWindow, fillOne_rest]
    dsimp only
    by_cases hfull : (fillOne src payloads c f).full limit
    · rw [if_pos hfull]
      exact if_pos hfull
    · rw [if_neg hfull]
      exact (if_neg hfull).trans (fillWindow_rest rest cs _)

/-- A pass over two lists stops in the first or goes on with the second. -/
theorem fillWindow_append (cs' : List CandidateRow) : ∀ (cs : List CandidateRow) {f : Filling T},
    ¬f.full limit → fillWindow src limit payloads (cs ++ cs') f =
      if (fillWindow src limit payloads cs f).full limit then fillWindow src limit payloads cs f
      else fillWindow src limit payloads cs' (fillWindow src limit payloads cs f)
  | [], f, hfull => by rw [List.nil_append, fillWindow, if_neg hfull]
  | c :: cs, f, hfull => by
    rw [List.cons_append, fillWindow, fillWindow]
    by_cases hfull' : (fillOne src payloads c f).full limit
    · rw [if_pos hfull', if_pos hfull', if_pos hfull']
    · rw [if_neg hfull', if_neg hfull']
      exact fillWindow_append cs' cs hfull'

/-- A pass needs the payloads of its candidates alone. -/
theorem fillWindow_congr : ∀ {cs : List CandidateRow} (f : Filling T),
    (∀ c ∈ cs, payloads.find? (fun p => p.fileId = c.id) = payloads'.find? fun p => p.fileId = c.id) →
      fillWindow src limit payloads cs f = fillWindow src limit payloads' cs f
  | [], _, _ => rfl
  | c :: cs, f, h => by
    have hone : fillOne src payloads c f = fillOne src payloads' c f := by
      rw [fillOne, fillOne, h c List.mem_cons_self]
    rw [fillWindow, fillWindow, hone, fillWindow_congr _ fun c' hc' => h c' (List.mem_cons_of_mem _ hc')]

theorem handledBy_append (cs' : List CandidateRow) : ∀ (cs : List CandidateRow) {f : Filling T},
    ¬f.full limit → handledBy src payloads limit (cs ++ cs') f =
      handledBy src payloads limit cs f ++
        if (fillWindow src limit payloads cs f).full limit then []
        else handledBy src payloads limit cs' (fillWindow src limit payloads cs f)
  | [], f, hfull => by rw [List.nil_append, fillWindow, if_neg hfull, handledBy, List.nil_append]
  | c :: cs, f, hfull => by
    rw [List.cons_append, handledBy, handledBy, fillWindow]
    by_cases hfull' : (fillOne src payloads c f).full limit
    · simp only [if_pos hfull', List.append_nil]
    · simp only [if_neg hfull', List.cons_append]
      rw [handledBy_append cs' cs hfull']

theorem find?_payloadsForIds {db : Db} {ids : List ℕ} {id : ℕ} (h : id ∈ ids) :
    (Sql.payloadsForIds ids db).find? (fun p => p.fileId = id) =
      db.payloads.find? fun p => p.fileId = id := by
  rw [Sql.payloadsForIds, List.find?_filter]
  congr 1
  funext p
  by_cases hid : p.fileId = id
  · simp [hid, h]
  · simp [hid]

/-- A page that is not full has a window, as long as candidates are left. -/
theorem window_ne_nil {f : Filling T} (hfull : ¬f.full limit) (hrest : f.rest ≠ []) :
    f.window limit ≠ [] := by
  unfold Filling.window
  rw [Ne, List.take_eq_nil_iff, not_or]
  refine ⟨?_, hrest⟩
  have hlen := List.length_pos_of_ne_nil hrest
  cases limit with
  | none =>
    simp only [Filling.want, idListChunk]
    omega
  | some n =>
    have hlt : f.entries.length < n := not_le.mp hfull
    simp only [Filling.want, idListChunk]
    omega

/-- The windows of a page give what one pass over the candidates left gives. -/
theorem runPhase_filling {lib : QueryLib T} {e : Engine} {q : Query} {ws : ℕ → World} {db : Db}
    (hfault : ∀ n k, (ws n).fault k = none) : ∀ {fuel : ℕ} {f : Filling T}, f.rest.length ≤ fuel →
      ¬f.full q.limit → f.rest ≠ [] →
      runPhase lib src e q ws db fuel (.filling f) = some (.ok
        ⟨(fillWindow src q.limit db.payloads f.rest f).entries,
          (fillWindow src q.limit db.payloads f.rest f).skipped⟩)
  | 0, f, hfuel, _, hrest =>
    absurd (List.length_eq_zero_iff.mp (Nat.le_zero.mp hfuel)) hrest
  | fuel + 1, f, hfuel, hfull, hrest => by
    have hwindow := window_ne_nil hfull hrest
    obtain ⟨after, hsplit⟩ : f.window q.limit <+: f.rest := List.take_prefix _ _
    have hdrop : f.rest.drop (f.window q.limit).length = after := by
      conv_lhs => rw [← hsplit]
      exact List.drop_left
    have hread : fillWindow src q.limit (Sql.payloadsForIds ((f.window q.limit).map CandidateRow.id) db)
        (f.window q.limit) f = fillWindow src q.limit db.payloads (f.window q.limit) f :=
      fillWindow_congr f fun c hc => find?_payloadsForIds (List.mem_map_of_mem hc)
    have hstep : (autocommit (QueryPhase.step lib src e (ws fuel) q (.filling f)) db).1 =
        .ok (finishFilling q ⟨after, (fillWindow src q.limit db.payloads (f.window q.limit) f).toSkip,
          (fillWindow src q.limit db.payloads (f.window q.limit) f).entries,
          (fillWindow src q.limit db.payloads (f.window q.limit) f).skipped⟩) := by
      rw [autocommit, QueryPhase.step, StateExcept.bind_of_ok (select_of_fault (hfault fuel _)),
        ← hread, ← hdrop]
      rfl
    rw [runPhase, hstep]
    generalize hpass : fillWindow src q.limit db.payloads (f.window q.limit) f = g
    have hwhole : fillWindow src q.limit db.payloads f.rest f =
        if g.full q.limit then g else fillWindow src q.limit db.payloads after g := by
      rw [← hsplit, fillWindow_append after _ hfull, hpass]
    rw [hwhole]
    by_cases hdone : g.full q.limit
    · rw [if_pos hdone, show finishFilling q ⟨after, g.toSkip, g.entries, g.skipped⟩ = _ from
        if_pos (Or.inl hdone)]
    · rw [if_neg hdone]
      by_cases hafter : after = []
      · rw [show finishFilling q ⟨after, g.toSkip, g.entries, g.skipped⟩ = _ from
          if_pos (Or.inr hafter), hafter]
        rfl
      · rw [show finishFilling q ⟨after, g.toSkip, g.entries, g.skipped⟩ = _ from
          if_neg (not_or.mpr ⟨hdone, hafter⟩)]
        have hlen : after.length ≤ fuel := by
          have hpos := List.length_pos_of_ne_nil hwindow
          rw [← hsplit, List.length_append] at hfuel
          omega
        refine (runPhase_filling (f := { g with rest := after }) hfault hlen hdone hafter).trans ?_
        rw [fillWindow_rest]

end Windows

end LocalCache
