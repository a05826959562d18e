import LocalCache.Skips
import Mathlib.Data.Prod.Lex
import Mathlib.Data.List.Lex

/-!
# The undecodable entry that fails a query

`run` returns the error of the first entry its report skips. The first two tiers skip entries while
they walk the sorted candidates. Tier 3 skips them while it reads the rows in the order of their
paths, and sorts only what it decoded. So where the query has another order, the error is not always
that of the entry which would come first (`failsFirst_iff`).

For a query without payload sort keys the order of its result is an order of all rows
(`resultOrder`), decodable or not.
-/

namespace LocalCache

/-! ## Sorting by keys -/

section Sorting

variable {α : Type} {cmp : OrderBy → α → α → Ordering} {keys : List OrderBy}

theorem transCmp_linear {κ : Type} [LinearOrder κ] [DecidableLT κ] [DecidableEq κ] :
    Std.TransCmp fun a b : κ => compareOfLessAndEq a b :=
  Std.TransOrd.compareOfLessAndEq_of_antisymm_of_trans_of_total_of_not_le le_antisymm le_trans
    le_total not_le

theorem transCmp_cmpKeys (h : ∀ key, Std.TransCmp (cmp key)) :
    ∀ keys, Std.TransCmp (cmpKeys cmp keys)
  | [] => { eq_swap := rfl, isLE_trans := fun _ _ => rfl }
  | key :: keys => by
    have hhead := h key
    have htail := transCmp_cmpKeys h keys
    have heq : cmpKeys cmp (key :: keys) = compareLex (cmp key) (cmpKeys cmp keys) := by
      funext a b
      show (if cmp key a b = .eq then cmpKeys cmp keys a b else cmp key a b) = _
      rw [compareLex]
      cases cmp key a b <;> rfl
    rw [heq]
    infer_instance

theorem total_of_transCmp {cmp : α → α → Ordering} (h : Std.TransCmp cmp) (a b : α) :
    cmp a b ≠ .gt ∨ cmp b a ≠ .gt := by
  rw [h.eq_swap (a := b)]
  cases cmp a b <;> simp

theorem trans_of_transCmp {cmp : α → α → Ordering} (h : Std.TransCmp cmp) {a b c : α}
    (hab : cmp a b ≠ .gt) (hbc : cmp b c ≠ .gt) : cmp a c ≠ .gt :=
  Ordering.isLE_iff_ne_gt.mp
    (h.isLE_trans (Ordering.isLE_iff_ne_gt.mpr hab) (Ordering.isLE_iff_ne_gt.mpr hbc))

theorem pairwise_sortByKeys (h : ∀ key, Std.TransCmp (cmp key)) (l : List α) :
    (sortByKeys cmp keys l).Pairwise fun a b => cmpKeys cmp keys a b ≠ .gt := by
  have hcmp := transCmp_cmpKeys h keys
  have : Std.Total fun a b => cmpKeys cmp keys a b ≠ .gt := ⟨total_of_transCmp hcmp⟩
  have : IsTrans α fun a b => cmpKeys cmp keys a b ≠ .gt := ⟨fun _ _ _ => trans_of_transCmp hcmp⟩
  exact List.pairwise_insertionSort _ l

theorem filter_orderedInsert {r : α → α → Prop} [DecidableRel r]
    (trans : ∀ a b c, r a b → r b c → r a c) (keep : α → Bool) (a : α) :
    ∀ {l : List α}, l.Pairwise r → (l.orderedInsert r a).filter keep =
      if keep a then (l.filter keep).orderedInsert r a else l.filter keep
  | [], _ => by
    cases hkeep : keep a <;> simp [hkeep]
  | b :: l, hl => by
    obtain ⟨hb, hl⟩ := List.pairwise_cons.mp hl
    rw [List.orderedInsert_cons]
    by_cases hab : r a b
    · rw [if_pos hab]
      cases hkeep : keep a with
      | false => rw [List.filter_cons_of_neg (by simp [hkeep]), if_neg (by simp)]
      | true =>
        rw [List.filter_cons_of_pos hkeep, if_pos rfl]
        -- what is kept of the list is above `a`, too
        cases hfiltered : (b :: l).filter keep with
        | nil => rfl
        | cons c cs =>
          have hc : c ∈ b :: l := List.mem_of_mem_filter (hfiltered ▸ List.mem_cons_self)
          have hac : r a c := by
            rcases List.mem_cons.mp hc with rfl | hc
            · exact hab
            · exact trans a b c hab (hb c hc)
          rw [List.orderedInsert_cons, if_pos hac]
    · rw [if_neg hab]
      cases hkeepb : keep b with
      | false =>
        rw [List.filter_cons_of_neg (by simp [hkeepb]), List.filter_cons_of_neg (by simp [hkeepb]),
          filter_orderedInsert trans keep a hl]
      | true =>
        rw [List.filter_cons_of_pos hkeepb, List.filter_cons_of_pos hkeepb,
          filter_orderedInsert trans keep a hl]
        cases keep a with
        | false => rfl
        | true => rw [if_pos rfl, if_pos rfl, List.orderedInsert_cons, if_neg hab]

/-- A stable sort, before or after a filter. -/
theorem filter_sortByKeys (h : ∀ key, Std.TransCmp (cmp key)) (keep : α → Bool) : ∀ l : List α,
    (sortByKeys cmp keys l).filter keep = sortByKeys cmp keys (l.filter keep)
  | [] => rfl
  | a :: l => by
    have hsorted : (sortByKeys cmp keys l).Pairwise fun a b => cmpKeys cmp keys a b ≠ .gt :=
      pairwise_sortByKeys h l
    have hinsert := filter_orderedInsert (r := fun a b => cmpKeys cmp keys a b ≠ .gt)
      (fun _ _ _ hab hbc => trans_of_transCmp (transCmp_cmpKeys h keys) hab hbc) keep a hsorted
    rw [filter_sortByKeys h keep l] at hinsert
    rw [List.filter_cons]
    refine hinsert.trans ?_
    split_ifs <;> rfl

/-- A stable sort leaves the first element first exactly if no other goes before it. -/
theorem head?_sortByKeys_iff (h : ∀ key, Std.TransCmp (cmp key)) {a : α} {l : List α} :
    (sortByKeys cmp keys (a :: l)).head? = some a ↔ ∀ b ∈ l, cmpKeys cmp keys a b ≠ .gt := by
  have hperm : (sortByKeys cmp keys (a :: l)).Perm (a :: l) := List.perm_insertionSort _ _
  constructor
  · intro hhead b hb
    obtain ⟨rest, hrest⟩ := List.head?_eq_some_iff.mp hhead
    have hsorted : (sortByKeys cmp keys (a :: l)).Pairwise fun a b => cmpKeys cmp keys a b ≠ .gt :=
      pairwise_sortByKeys h (a :: l)
    rw [hrest] at hperm hsorted
    exact List.rel_of_pairwise_cons hsorted (hperm.cons_inv.mem_iff.mpr hb)
  · intro hle
    show ((sortByKeys cmp keys l).orderedInsert _ a).head? = some a
    cases hsorted : sortByKeys cmp keys l with
    | nil => rfl
    | cons b rest =>
      have hb : b ∈ l := (List.perm_insertionSort _ l).mem_iff.mp
        (show b ∈ sortByKeys cmp keys l from hsorted ▸ List.mem_cons_self)
      rw [List.orderedInsert_cons, if_pos (hle b hb)]
      rfl

theorem head?_filterMap_eq {β : Type} (f : α → Option β) : ∀ l : List α,
    (l.filterMap f).head? = (l.filter fun a => (f a).isSome).head?.bind f
  | [] => rfl
  | a :: l => by
    cases hf : f a with
    | none =>
      rw [List.filterMap_cons_none hf, List.filter_cons_of_neg (by simp [hf]), head?_filterMap_eq f l]
    | some b =>
      rw [List.filterMap_cons_some hf, List.filter_cons_of_pos (by simp [hf])]
      exact hf.symm

end Sorting

/-! ## The order of a result -/

section Results

variable {T : Type} (lib : QueryLib T) (src : Sources T) (e : Engine) (q : Query)

/-- The keys of a row, without its payload. -/
def cmpRow (key : OrderBy) (a b : FileRow) : Ordering :=
  cmpCandidate [] key (a.toCandidate, []) (b.toCandidate, [])

/-- The rows in the order of the query's result. -/
def resultOrder (rows : List FileRow) : List FileRow := sortByKeys cmpRow q.orderBy rows

/-- The plan a query runs. -/
def planOf (db : Db) : QueryPlan :=
  match classifyQuery q with
  | .tier2 selectFields whereFields =>
    if e.encryptionKey.isSome then .tier3
    else if Sql.namespaceAllJson e.ns db then .tier2 selectFields whereFields
    else .tier3
  | plan => plan

/-- What a plan reports of a row it cannot decode. Tier 2 has tested the row's text before, and tier
3 needs the JSON form of a payload, too. -/
def undecodable (db : Db) (plan : QueryPlan) (r : FileRow) : Option SkippedEntry :=
  match plan with
  | .tier1 => skipOf src db.payloads r.toCandidate
  | .tier2 _ whereFields =>
    if (db.payload? r.id).any fun p => JoinedRow.passes lib whereFields (r, p) then
      skipOf src db.payloads r.toCandidate
    else none
  | .tier3 => (decodeCandidate lib src q (r.toCandidate, db.payload? r.id)).bind Sum.getLeft?

/-- If `run` fails on an undecodable entry, it is the first of them in the order of the result. -/
def FailsFirst (ws : ℕ → World) (fuel : ℕ) (filters : PreparedPathFilters) (db : Db) : Prop :=
  ∀ report err, runReport lib src e q ws fuel db = some (.ok report) →
    runQuery lib src e q ws fuel db = some (.error err) →
      ∃ first, report.skipped.head? = some first ∧ err = first.error ∧
        ((resultOrder q (Sql.filteredRows lib e.ns filters db)).filterMap
          (undecodable lib src q db (planOf e q db))).head? = some first

/-- Of the undecodable rows in the order of their paths, no other goes before the first. -/
def FirstPathFirst (filters : PreparedPathFilters) (db : Db) : Prop :=
  ∀ first rest, (Sql.filteredRows lib e.ns filters db).filter
      (fun r => (undecodable lib src q db .tier3 r).isSome) = first :: rest →
    ∀ r ∈ rest, cmpKeys cmpRow q.orderBy first r ≠ .gt

variable {lib src e q} {ws : ℕ → World} {fuel : ℕ} {filters : PreparedPathFilters} {db : Db}

theorem transCmp_ordDir {α κ : Type} {cmp : κ → κ → Ordering} (h : Std.TransCmp cmp) (f : α → κ)
    (order : SortOrder) : Std.TransCmp fun a b => ordDir (cmp (f a) (f b)) order := by
  cases order with
  | asc => exact { eq_swap := h.eq_swap, isLE_trans := h.isLE_trans }
  | desc =>
    have hswap : (fun a b => ordDir (cmp (f a) (f b)) .desc) = fun a b => cmp (f b) (f a) := by
      funext a b
      exact (h.eq_swap).symm
    rw [hswap]
    exact { eq_swap := h.eq_swap, isLE_trans := fun hab hbc => h.isLE_trans hbc hab }

theorem transCmp_cmpRow (key : OrderBy) : Std.TransCmp (cmpRow key) := by
  cases key with
  | field path order =>
    have hconst : cmpRow (.field path order) = fun _ _ => .eq := by
      funext a b
      cases order <;> rfl
    rw [hconst]
    exact { eq_swap := rfl, isLE_trans := fun _ _ => rfl }
  | mtime order => exact transCmp_ordDir transCmp_linear (fun r : FileRow => r.metadata.mtime) order
  | lastAccessed order =>
    exact transCmp_ordDir transCmp_linear (fun r : FileRow => r.lastUsedUs.tdiv 1000000) order
  | path order => exact transCmp_ordDir transCmp_linear (fun r : FileRow => pathComponents r.path) order

/-! ## What each plan reports first -/

/-- A query without payload sort keys. -/
def Query.SortsRows (q : Query) : Prop := ∀ key ∈ q.orderBy, key.field? = none

theorem cmpCandidate_of_row {fields : List String} {key : OrderBy} (h : key.field? = none)
    (a b : CandidateRow × List (Option F64)) :
    cmpCandidate fields key a b = cmpCandidate [] key (a.1, []) (b.1, []) := by
  cases key with
  | field path order => exact absurd h (by simp [OrderBy.field?])
  | _ => rfl

/-- Tier 1 walks the rows in the order of the result. -/
theorem tier1Order_eq (rows : List FileRow) :
    (sortByKeys (cmpCandidate []) q.orderBy ((rows.map FileRow.toCandidate).map fun row =>
      (row, []))).map Prod.fst = (resultOrder q rows).map FileRow.toCandidate := by
  have hsort : sortByKeys (cmpCandidate []) q.orderBy
      (rows.map fun r => (r.toCandidate, ([] : List (Option F64)))) =
        (resultOrder q rows).map fun r => (r.toCandidate, []) :=
    sortByKeys_map (fun _ _ _ _ => rfl) rows
  rw [List.map_map]
  exact (congrArg (List.map Prod.fst) hsort).trans List.map_map

theorem filter_joinedRows (whereFields : List WhereField) :
    ((Sql.joinedRows lib e.ns filters db).filter (JoinedRow.passes lib whereFields)).map Prod.fst =
      (Sql.filteredRows lib e.ns filters db).filter fun r =>
        (db.payload? r.id).any fun p => JoinedRow.passes lib whereFields (r, p) := by
  rw [Sql.joinedRows, Sql.joinRows]
  induction Sql.filteredRows lib e.ns filters db with
  | nil => rfl
  | cons r rows ih =>
    rw [List.filterMap_cons, List.filter_cons]
    cases db.payload? r.id with
    | none => exact ih
    | some p =>
      simp only [Option.map_some, List.filter_cons, Option.any_some]
      split_ifs
      · rw [List.map_cons, ih]
      · exact ih

/-- Tier 2 walks the rows that pass its conditions in the order of the result. -/
theorem tier2Order_eq (hq : q.SortsRows) (selectFields : List String) (whereFields : List WhereField) :
    tier2Order lib q selectFields whereFields (Sql.joinedRows lib e.ns filters db) =
      ((resultOrder q (Sql.filteredRows lib e.ns filters db)).filter fun r =>
        (db.payload? r.id).any fun p => JoinedRow.passes lib whereFields (r, p)).map
          FileRow.toCandidate := by
  have hrows : ∀ key ∈ q.orderBy, ∀ a b : JoinedRow,
      cmpCandidate selectFields key (a.withFields lib selectFields) (b.withFields lib selectFields) =
        cmpRow key a.1 b.1 := fun key hkey a b => cmpCandidate_of_row (hq key hkey) _ _
  generalize hpassing : (Sql.joinedRows lib e.ns filters db).filter (JoinedRow.passes lib whereFields) =
    passing
  have hfirst : sortByKeys cmpRow q.orderBy (passing.map Prod.fst) =
      (sortByKeys (fun key (a b : JoinedRow) => cmpRow key a.1 b.1) q.orderBy passing).map Prod.fst :=
    sortByKeys_map (fun _ _ _ _ => rfl) passing
  rw [tier2Order, hpassing, sortByKeys_map hrows, List.map_map, resultOrder,
    filter_sortByKeys transCmp_cmpRow, ← filter_joinedRows, hpassing, hfirst, List.map_map]
  rfl

/-- What a pass reports first is what all its candidates would have it report first. -/
theorem head?_skipped_filled {order : List CandidateRow} {offset : ℕ} {first : SkippedEntry}
    (h : (if (⟨order, offset, [], []⟩ : Filling T).full q.limit then
        (⟨order, offset, [], []⟩ : Filling T)
      else fillWindow src q.limit db.payloads order ⟨order, offset, [], []⟩).skipped.head? =
        some first) : (order.filterMap (skipOf src db.payloads)).head? = some first := by
  split_ifs at h with hfull
  · exact absurd h (by simp)
  · have hhandles := handles_fillWindow src db.payloads order hfull
    obtain ⟨rest, hrest⟩ := hhandles.isPrefix
    rw [hhandles.skipped, List.nil_append] at h
    rw [← hrest, List.filterMap_append, List.head?_append, h]
    rfl

/-- A query runs its plan. -/
theorem runReport_planOf (hfilters : preparePathFilters lib src q = .ok filters)
    (hfault : ∀ n k, (ws n).fault k = none) (hfuel : db.files.length + 2 ≤ fuel) :
    ∃ n, db.files.length ≤ n ∧ runReport lib src e q ws fuel db =
      runPhase lib src e q ws db (n + 1) (.planned filters (planOf e q db)) := by
  obtain ⟨n, rfl⟩ : ∃ n, fuel = n + 2 := ⟨fuel - 2, by omega⟩
  have hstart := QueryPhase.start_of_preparePathFilters (e := e) hfilters
  unfold planOf
  cases hplan : classifyQuery q with
  | tier1 =>
    rw [hplan] at hstart
    exact ⟨n + 1, by omega, runReport_of_start hstart⟩
  | tier3 =>
    rw [hplan] at hstart
    exact ⟨n + 1, by omega, runReport_of_start hstart⟩
  | tier2 selectFields whereFields =>
    rw [hplan] at hstart
    dsimp only at hstart ⊢
    split_ifs at hstart ⊢ with hkey hjson
    · exact ⟨n + 1, by omega, runReport_of_start hstart⟩
    · refine ⟨n, by omega, ?_⟩
      rw [runReport_of_start hstart, runPhase_planning hfault, if_pos hjson]
    · refine ⟨n, by omega, ?_⟩
      rw [runReport_of_start hstart, runPhase_planning hfault, if_neg hjson]

/-- The entry `run` fails on is the first its report skips. -/
theorem head?_skipped_of_runQuery {report : QueryReport T} {err : Error}
    (hreport : runReport lib src e q ws fuel db = some (.ok report))
    (hrun : runQuery lib src e q ws fuel db = some (.error err)) :
    ∃ first, report.skipped.head? = some first ∧ err = first.error := by
  rw [runQuery, hreport] at hrun
  have herr : report.entriesOrError = .error err := Option.some.inj hrun
  unfold QueryReport.entriesOrError at herr
  cases hskipped : report.skipped with
  | nil =>
    rw [hskipped] at herr
    exact absurd herr (by simp)
  | cons first rest =>
    rw [hskipped] at herr
    exact ⟨first, rfl, (Except.error.inj herr).symm⟩

theorem runQuery_of_skipped {report : QueryReport T} {first : SkippedEntry} {rest : List SkippedEntry}
    (hreport : runReport lib src e q ws fuel db = some (.ok report))
    (hskipped : report.skipped = first :: rest) :
    runQuery lib src e q ws fuel db = some (.error first.error) := by
  rw [runQuery, hreport]
  show some report.entriesOrError = _
  rw [QueryReport.entriesOrError, hskipped]

theorem length_filteredRows_le : (Sql.filteredRows lib e.ns filters db).length ≤ db.files.length := by
  rw [Sql.filteredRows, length_sortBy]
  exact (List.length_filter_le _ _).trans (List.length_filter_le _ _)

theorem skipped_tier3 (rows : List FileRow) :
    (tier3Report lib src q (rows.map fun r => (r.toCandidate, db.payload? r.id))).skipped =
      rows.filterMap (undecodable lib src q db .tier3) := by
  show ((rows.map _).filterMap _).filterMap Sum.getLeft? = _
  rw [List.filterMap_map, List.filterMap_filterMap]
  rfl

/-- The first two tiers report in the order of the result. -/
theorem failsFirst_of_plan (hq : q.SortsRows)
    (hfilters : preparePathFilters lib src q = .ok filters) (hfault : ∀ n k, (ws n).fault k = none)
    (hfuel : db.files.length + 2 ≤ fuel) (hplan : planOf e q db ≠ .tier3) :
    FailsFirst lib src e q ws fuel filters db := by
  intro report err hreport hrun
  obtain ⟨first, hfirst, herr⟩ := head?_skipped_of_runQuery hreport hrun
  refine ⟨first, hfirst, herr, ?_⟩
  obtain ⟨n, hn, hphase⟩ := runReport_planOf (e := e) hfilters hfault hfuel
  rw [hphase] at hreport
  cases hkind : planOf e q db with
  | tier3 => exact absurd hkind hplan
  | tier1 =>
    rw [hkind] at hreport
    have hread : QueryPhase.step lib src e (ws n) q (.planned filters .tier1) ⟨db, 0, 0⟩ =
        .ok (startFilling q [] ((Sql.queryCandidates lib e.ns filters db).map fun row => (row, [])),
          ⟨db, 1, 0⟩) := StateExcept.bind_of_ok (select_of_fault (hfault n _))
    have horder := tier1Order_eq (q := q) (Sql.filteredRows lib e.ns filters db)
    rw [startFilling, show Sql.queryCandidates lib e.ns filters db =
      (Sql.filteredRows lib e.ns filters db).map FileRow.toCandidate from rfl, horder] at hread
    have hlength : ((resultOrder q (Sql.filteredRows lib e.ns filters db)).map
        FileRow.toCandidate).length ≤ n := by
      rw [List.length_map, resultOrder, sortByKeys, List.length_insertionSort]
      exact length_filteredRows_le.trans hn
    rw [runPhase_of_finishFilling hfault hread hlength] at hreport
    rw [← Except.ok.inj (Option.some.inj hreport)] at hfirst
    have hhead := head?_skipped_filled hfirst
    rwa [List.filterMap_map] at hhead
  | tier2 selectFields whereFields =>
    rw [hkind] at hreport
    by_cases hreads : ∀ row ∈ Sql.joinedRows lib e.ns filters db, row.Read lib selectFields whereFields
    · rw [runPhase_tier2_of_ok hfault hreads hn] at hreport
      rw [← Except.ok.inj (Option.some.inj hreport)] at hfirst
      have hhead := head?_skipped_filled hfirst
      rwa [tier2Order_eq hq, List.filterMap_map, List.filterMap_filter] at hhead
    · simp only [not_forall] at hreads
      obtain ⟨row, hrow, hread⟩ := hreads
      obtain ⟨stmtErr, hstmt⟩ := queryCandidatesJsonPushdown_of_not_read hrow hread
      rw [runPhase_tier2_of_error hfault hstmt] at hreport
      exact absurd (Option.some.inj hreport) (by simp)

/-! ## Tier 3 -/

theorem head?_undecodable (plan : QueryPlan) (rows : List FileRow) :
    ((resultOrder q rows).filterMap (undecodable lib src q db plan)).head? =
      (resultOrder q (rows.filter fun r => (undecodable lib src q db plan r).isSome)).head?.bind
        (undecodable lib src q db plan) := by
  rw [head?_filterMap_eq, resultOrder, filter_sortByKeys transCmp_cmpRow, resultOrder]

theorem path_of_undecodable {r : FileRow} {entry : SkippedEntry}
    (h : undecodable lib src q db .tier3 r = some entry) : entry.path = r.path := by
  unfold undecodable at h
  dsimp only at h
  cases hp : db.payload? r.id with
  | none =>
    rw [hp] at h
    exact absurd h (by simp [decodeCandidate])
  | some p =>
    rw [hp] at h
    exact ((skipRow_spec q (r, p)).2 entry h).1

/-- Tier 3 fails on the first undecodable row by path. -/
theorem firstPathFirst_iff (hv : db.Valid) :
    FirstPathFirst lib src e q filters db ↔
      ∀ first, ((Sql.filteredRows lib e.ns filters db).filterMap
          (undecodable lib src q db .tier3)).head? = some first →
        ((resultOrder q (Sql.filteredRows lib e.ns filters db)).filterMap
          (undecodable lib src q db .tier3)).head? = some first := by
  have hnodup := nodup_filteredRows lib e.ns filters hv
  unfold FirstPathFirst
  rw [head?_undecodable, head?_filterMap_eq]
  cases hbad : (Sql.filteredRows lib e.ns filters db).filter fun r =>
      (undecodable lib src q db .tier3 r).isSome with
  | nil => exact iff_of_true (fun _ _ h => absurd h (by simp)) fun _ h => absurd h (by simp)
  | cons r rest =>
    have hmem : ∀ r' ∈ r :: rest, r' ∈ Sql.filteredRows lib e.ns filters db ∧
        (undecodable lib src q db .tier3 r').isSome = true := fun r' hr' =>
      List.mem_filter.mp (hbad ▸ hr')
    have hcond : (∀ first rest', r :: rest = first :: rest' →
        ∀ r' ∈ rest', cmpKeys cmpRow q.orderBy first r' ≠ .gt) ↔
          (resultOrder q (r :: rest)).head? = some r := by
      rw [resultOrder, head?_sortByKeys_iff transCmp_cmpRow]
      refine ⟨fun h => h r rest rfl, fun h first rest' heq => ?_⟩
      obtain ⟨rfl, rfl⟩ := List.cons.inj heq
      exact h
    rw [hcond]
    obtain ⟨entry, hentry⟩ := Option.isSome_iff_exists.mp (hmem r List.mem_cons_self).2
    constructor
    · intro hhead first hfirst
      rw [hhead]
      exact hfirst
    · intro hall
      obtain ⟨r', hr', hundecodable⟩ := Option.bind_eq_some_iff.mp (hall entry hentry)
      have hin : r' ∈ r :: rest := (List.perm_insertionSort _ _).mem_iff.mp
        (List.mem_of_head? hr')
      have hpath : r'.path = r.path :=
        (path_of_undecodable hundecodable).symm.trans (path_of_undecodable hentry)
      rw [hr', List.inj_on_of_nodup_map hnodup (hmem r' hin).1 (hmem r List.mem_cons_self).1 hpath]

/-- `run` fails on the first undecodable entry in the order of the result exactly when tier 3
does not run or that entry is also the first by path. -/
theorem failsFirst_iff (hv : db.Valid) (hq : q.SortsRows)
    (hfilters : preparePathFilters lib src q = .ok filters) (hfault : ∀ n k, (ws n).fault k = none)
    (hfuel : db.files.length + 2 ≤ fuel) :
    FailsFirst lib src e q ws fuel filters db ↔
      (planOf e q db = .tier3 → FirstPathFirst lib src e q filters db) := by
  by_cases hplan : planOf e q db = .tier3
  · obtain ⟨n, -, hphase⟩ := runReport_planOf (e := e) hfilters hfault hfuel
    rw [hplan, runPhase_tier3 hfault] at hphase
    have hskipped : (tier3Report lib src q (Sql.queryCandidatesWithPayloads lib e.ns filters db)).skipped =
        (Sql.filteredRows lib e.ns filters db).filterMap (undecodable lib src q db .tier3) :=
      skipped_tier3 _
    rw [FailsFirst, hplan, firstPathFirst_iff hv, imp_iff_right rfl, ← hskipped]
    constructor
    · intro hfails first hfirst
      obtain ⟨rest, hrest⟩ := List.head?_eq_some_iff.mp hfirst
      obtain ⟨first', hfirst', -, hhead⟩ := hfails _ _ hphase (runQuery_of_skipped hphase hrest)
      rw [hhead]
      exact hfirst'.symm.trans hfirst
    · intro hheads report err hreport hrun
      obtain ⟨first, hfirst, herr⟩ := head?_skipped_of_runQuery hreport hrun
      rw [hphase] at hreport
      obtain rfl := Except.ok.inj (Option.some.inj hreport)
      exact ⟨first, hfirst, herr, hheads first hfirst⟩
  · exact iff_of_true (failsFirst_of_plan hq hfilters hfault hfuel hplan) fun h => absurd h hplan

end Results

/-! ## A query sorted by mtime -/

section Samples

/-- No payload decodes. -/
def garbledSources : Sources Unit :=
  { Sources.quiet with decode := fun path _ => .error (.serialization path) }

/-- The entries whose payload has an `x`, the oldest file first. -/
def oldestFirst : Query := ⟨[.payloadContains "x"], none, 0, none, none, none, [.mtime .asc]⟩

/-- Two entries, whose files were changed at these times. -/
def changedAt (first second : ℤ) : Db :=
  ⟨[⟨1, "n", "/a", ⟨first, 0, none⟩, 0, 0, 0⟩, ⟨2, "n", "/b", ⟨second, 0, none⟩, 0, 0, 0⟩],
    [⟨1, [], "bin"⟩, ⟨2, [], "bin"⟩], 2⟩

theorem valid_changedAt (first second : ℤ) : (changedAt first second).Valid where
  ids := show ([1, 2] : List ℕ).Nodup by decide
  keys := show [("n", "/a"), ("n", "/b")].Nodup by decide
  payloadIds := show ([1, 2] : List ℕ).Nodup by decide
  foreign := by simp [changedAt]
  seq := by simp [changedAt]

/-- Where the file of the first path is also the oldest, its entry is the one to fail on. -/
theorem failsFirst_iff_sample :
    FailsFirst Host.quiet.query garbledSources (.plain "n" none) oldestFirst (fun _ => .quiet) 4
      ⟨none, none, none⟩ (changedAt 1 2) := by
  refine (failsFirst_iff (valid_changedAt 1 2) ?_ rfl (fun _ _ => rfl) (by decide)).mpr fun _ => ?_
  · intro key hkey
    rw [List.mem_singleton.mp hkey]
    rfl
  · intro first rest hbad
    have hrows : (Sql.filteredRows Host.quiet.query "n" ⟨none, none, none⟩ (changedAt 1 2)).filter
        (fun r => (undecodable Host.quiet.query garbledSources oldestFirst (changedAt 1 2) .tier3
          r).isSome) = (changedAt 1 2).files := by decide +kernel
    obtain ⟨rfl, rfl⟩ := List.cons.inj (hbad.symm.trans hrows)
    decide +kernel

/-- The file of `/b` is the older one, but the query fails on `/a`. -/
theorem firstPath_failsFirst :
    ¬FailsFirst Host.quiet.query garbledSources (.plain "n" none) oldestFirst (fun _ => .quiet) 4
      ⟨none, none, none⟩ (changedAt 2 1) := by
  intro hfails
  have hskipped : (runReport Host.quiet.query garbledSources (.plain "n" none) oldestFirst
      (fun _ => .quiet) 4 (changedAt 2 1)).map (fun result => result.map QueryReport.skipped) =
        some (.ok [⟨"/a", .serialization "/a"⟩, ⟨"/b", .serialization "/b"⟩]) := by decide +kernel
  obtain ⟨result, hreport, hresult⟩ := Option.map_eq_some_iff.mp hskipped
  cases result with
  | error err => exact absurd hresult (by simp [Except.map])
  | ok report =>
    have hreported := Except.ok.inj hresult
    obtain ⟨first, hfirst, -, hhead⟩ := hfails report _ hreport (runQuery_of_skipped hreport hreported)
    rw [hreported] at hfirst
    obtain rfl := Option.some.inj hfirst
    exact absurd hhead (by decide +kernel)

end Samples

end LocalCache
