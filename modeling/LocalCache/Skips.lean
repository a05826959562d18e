import LocalCache.Filling

/-!
# Which undecodable entries a payload query reports

A query that tests or sorts by the payload is to report every entry it cannot decode, whether or
not it would have matched. Tier 3 does (`listsUndecodable_tier3Report`). Tier 2 has SQLite test
the stored text first, and decodes only to fill the page : malformed text fails the query, as does a
field path that SQLite comes to and cannot read, a NUL being its end; and an undecodable entry is
reported only if it passes the conditions and its turn comes before the page is full
(`reportsAll_iff`).
-/

namespace LocalCache

/-! ## What is to be reported -/

/-- A candidate with its payload. -/
abbrev JoinedRow := FileRow × PayloadRow

section Reports

variable {T : Type} (lib : QueryLib T) (src : Sources T)

/-- The rows that pass the path filters and have a payload, in path order. -/
def Sql.joinedRows (ns : String) (filters : PreparedPathFilters) (db : Db) : List JoinedRow :=
  Sql.joinRows db (Sql.filteredRows lib ns filters db)

/-- The payload decodes. -/
def JoinedRow.readable (row : JoinedRow) : Bool :=
  (src.decode row.1.path ⟨row.2.content, row.2.encoding⟩).toBool

/-- Why a row can be left out of a query : its payload does not decode, or has no JSON form. -/
def JoinedRow.Fails (row : JoinedRow) (err : Error) : Prop :=
  src.decode row.1.path ⟨row.2.content, row.2.encoding⟩ = .error err ∨
    ∃ payload text, src.decode row.1.path ⟨row.2.content, row.2.encoding⟩ = .ok payload ∧
      lib.toValue payload = .error text ∧ err = .serialization text

/-- The report has each undecodable row once, and only rows that fail. -/
structure QueryReport.ListsUndecodable (rows : List JoinedRow) (report : QueryReport T) : Prop where
  once : ∀ row ∈ rows, row.readable src = false →
    (report.skipped.map SkippedEntry.path).count row.1.path = 1
  only : ∀ entry ∈ report.skipped, ∃ row ∈ rows, entry.path = row.1.path ∧
    row.Fails lib src entry.error

/-- The query reports what it is to, and `run` fails exactly when there is anything to report. -/
def ReportsAll (e : Engine) (q : Query) (ws : ℕ → World) (fuel : ℕ) (filters : PreparedPathFilters)
    (db : Db) : Prop :=
  ∃ report, runReport lib src e q ws fuel db = some (.ok report) ∧
    report.ListsUndecodable lib src (Sql.joinedRows lib e.ns filters db) ∧
      ((∃ err, runQuery lib src e q ws fuel db = some (.error err)) ↔ report.skipped ≠ [])

/-! ## Tier 2 -/

/-- What SQLite reads at a field of a text that is JSON. -/
def numberAt (content : List UInt8) (field : String) : Option SqlNumber :=
  match lib.jsonNumber content field with
  | .ok n => n
  | .error _ => none

/-- The conditions pushed into SQL hold of the row. -/
def JoinedRow.passes (whereFields : List WhereField) (row : JoinedRow) : Bool :=
  whereFields.all fun f => f.holds (numberAt lib row.2.content f.path)

/-- A candidate with the fields tier 2 sorts by. -/
def JoinedRow.withFields (selectFields : List String) (row : JoinedRow) :
    CandidateRow × List (Option F64) :=
  (row.1.toCandidate, selectFields.map fun f => (numberAt lib row.2.content f).map SqlNumber.toF64)

/-- The candidates tier 2 fills the page from, in its order. -/
def tier2Order (q : Query) (selectFields : List String) (whereFields : List WhereField)
    (rows : List JoinedRow) : List CandidateRow :=
  (sortByKeys (cmpCandidate selectFields) q.orderBy
    ((rows.filter (JoinedRow.passes lib whereFields)).map (JoinedRow.withFields lib selectFields))).map
      Prod.fst

/-- Every undecodable row passes the conditions of tier 2, and too few entries come before it to
fill the page. -/
structure Tier2Reaches (q : Query) (selectFields : List String) (whereFields : List WhereField)
    (rows : List JoinedRow) (payloads : List PayloadRow) : Prop where
  passes : ∀ row ∈ rows, row.readable src = false → row.passes lib whereFields = true
  reached : ∀ n, q.limit = some n → ∀ before c after,
    tier2Order lib q selectFields whereFields rows = before ++ c :: after →
      decodes src payloads c = false →
        0 < n ∧ (before.filter (decodes src payloads)).length < q.offset + n

/-- SQLite reads the field of the text. A path without a NUL it reads in every text that is JSON. A
NUL ends the path, and what is left of it may be none. -/
def ReadsField (malformed : List UInt8 → Prop) (content : List UInt8) (field : String) : Prop :=
  if Char.ofNat 0 ∈ field.toList then ∃ n, lib.jsonNumber content field = .ok n
  else ¬malformed content

/-- SQLite reads what it comes to in a text : the fields of the conditions, up to the first that does
not hold, and the selected fields if all hold. -/
def ReadsRow (reads : String → Prop) (content : List UInt8) (selectFields : List String) :
    List WhereField → Prop
  | [] => ∀ field ∈ selectFields, reads field
  | f :: rest => reads f.path ∧
    (f.holds (numberAt lib content f.path) = true → ReadsRow reads content selectFields rest)

/-- The statement of tier 2 gets through the row. -/
def JoinedRow.Read (selectFields : List String) (whereFields : List WhereField) (row : JoinedRow) :
    Prop :=
  ReadsRow lib (fun field => ∃ n, lib.jsonNumber row.2.content field = .ok n) row.2.content
    selectFields whereFields

/-- Tier 2 gets to see every undecodable row, and SQLite reads what it comes to in every text. -/
structure Tier2Sees (q : Query) (selectFields : List String) (whereFields : List WhereField)
    (malformed : List UInt8 → Prop) (rows : List JoinedRow) (payloads : List PayloadRow) : Prop where
  reads : ∀ row ∈ rows, ReadsRow lib (ReadsField lib malformed row.2.content) row.2.content
    selectFields whereFields
  reaches : Tier2Reaches lib src q selectFields whereFields rows payloads

end Reports

/-! ## Lists -/

/-- Under keys that are distinct, a value occurs once if there is one. -/
theorem count_filterMap {α β κ : Type} [DecidableEq κ] {g : α → Option β} (key : α → κ)
    (key' : β → κ) {l : List α} (hnodup : (l.map key).Nodup)
    (hkey : ∀ a ∈ l, ∀ b, g a = some b → key' b = key a) {a : α} (ha : a ∈ l) :
    ((l.filterMap g).map key').count (key a) = if (g a).isSome then 1 else 0 := by
  rw [(hnodup.sublist (sublist_filterMap_map hkey)).count]
  congr 1
  rw [eq_iff_iff, Option.isSome_iff_exists]
  constructor
  · intro hmem
    obtain ⟨b, hb, hkb⟩ := List.mem_map.mp hmem
    obtain ⟨a', ha', hga'⟩ := List.mem_filterMap.mp hb
    have heq : a' = a := List.inj_on_of_nodup_map hnodup ha' ha
      ((hkey a' ha' b hga').symm.trans hkb)
    exact ⟨b, heq ▸ hga'⟩
  · rintro ⟨b, hb⟩
    rw [← hkey a ha b hb]
    exact List.mem_map_of_mem (List.mem_filterMap.mpr ⟨a, ha, hb⟩)

theorem cmpKeys_congr {α β : Type} {cmp : OrderBy → α → α → Ordering}
    {cmp' : OrderBy → β → β → Ordering} {a b : α} {a' b' : β} :
    ∀ {keys : List OrderBy}, (∀ key ∈ keys, cmp' key a' b' = cmp key a b) →
      cmpKeys cmp' keys a' b' = cmpKeys cmp keys a b
  | [], _ => rfl
  | key :: keys, h => by
    have hhead := h key List.mem_cons_self
    have htail : cmpKeys cmp' keys a' b' = cmpKeys cmp keys a b :=
      cmpKeys_congr fun key hkey => h key (List.mem_cons_of_mem _ hkey)
    simp only [cmpKeys, List.foldr_cons, hhead] at htail ⊢
    rw [htail]

theorem sortByKeys_map {α β : Type} {cmp : OrderBy → α → α → Ordering}
    {cmp' : OrderBy → β → β → Ordering} {g : α → β} {keys : List OrderBy}
    (hg : ∀ key ∈ keys, ∀ a b, cmp' key (g a) (g b) = cmp key a b) (l : List α) :
    sortByKeys cmp' keys (l.map g) = (sortByKeys cmp keys l).map g := by
  refine (List.map_insertionSort _ _ g l fun a _ b _ => ?_).symm
  rw [cmpKeys_congr fun key hkey => hg key hkey a b]

/-- The distinct names of a list, after those there are. -/
theorem prefix_foldl_distinct : ∀ (names fields : List String),
    fields <+: names.foldl (fun fields f => if f ∈ fields then fields else fields ++ [f]) fields
  | [], fields => List.prefix_refl fields
  | f :: names, fields => by
    rw [List.foldl_cons]
    refine List.IsPrefix.trans ?_ (prefix_foldl_distinct names _)
    split_ifs
    · exact List.prefix_refl fields
    · exact List.prefix_append fields _

theorem mem_foldl_distinct {name : String} : ∀ {names fields : List String},
    name ∈ names.foldl (fun fields f => if f ∈ fields then fields else fields ++ [f]) fields ↔
      name ∈ fields ∨ name ∈ names
  | [], fields => by simp
  | f :: names, fields => by
    rw [List.foldl_cons, mem_foldl_distinct, List.mem_cons]
    by_cases hf : f ∈ fields
    · rw [if_pos hf]
      constructor
      · rintro (h | h)
        · exact .inl h
        · exact .inr (.inr h)
      · rintro (h | rfl | h)
        · exact .inl h
        · exact .inl hf
        · exact .inr h
    · rw [if_neg hf, List.mem_append, List.mem_singleton, or_assoc]

/-! ## Rows with their payloads -/

section Rows

variable {T : Type} {lib : QueryLib T} {src : Sources T} {e : Engine} {q : Query} {db : Db}
  {filters : PreparedPathFilters} {ns : String} {row : JoinedRow}

theorem mem_joinedRows (h : row ∈ Sql.joinedRows lib ns filters db) :
    row.1 ∈ Sql.filteredRows lib ns filters db ∧ db.payload? row.1.id = some row.2 := by
  obtain ⟨r, hr, hjoin⟩ := List.mem_filterMap.mp h
  obtain ⟨p, hp, rfl⟩ := Option.map_eq_some_iff.mp hjoin
  exact ⟨hr, hp⟩

theorem nodup_filteredRows (lib : QueryLib T) (ns : String) (filters : PreparedPathFilters)
    (hv : db.Valid) : ((Sql.filteredRows lib ns filters db).map FileRow.path).Nodup := by
  rw [Sql.filteredRows, ((sortBy_perm _ _).map _).nodup_iff]
  have hkeys : ((db.inNamespace ns).map FileRow.path).Nodup := by
    refine List.Nodup.map_on (fun r hr r' hr' hpath => ?_) (hv.nodup.filter _)
    obtain ⟨hmem, hns⟩ := Db.mem_inNamespace.mp hr
    obtain ⟨hmem', hns'⟩ := Db.mem_inNamespace.mp hr'
    exact hv.eq_of_hasKey hmem hmem' ⟨hns, rfl⟩ ⟨hns', hpath.symm⟩
  exact hkeys.sublist (List.filter_sublist.map _)

theorem nodup_joinedRows (hv : db.Valid) :
    ((Sql.joinedRows lib ns filters db).map fun row => row.1.path).Nodup := by
  refine (nodup_filteredRows lib ns filters hv).sublist (sublist_filterMap_map fun r _ row h => ?_)
  obtain ⟨p, -, rfl⟩ := Option.map_eq_some_iff.mp h
  rfl

theorem decodes_toCandidate (h : row ∈ Sql.joinedRows lib ns filters db) :
    decodes src db.payloads row.1.toCandidate = row.readable src := by
  unfold decodes
  rw [show db.payloads.find? (fun p => p.fileId = row.1.toCandidate.id) = some row.2 from
    (mem_joinedRows h).2]
  rfl

theorem skipOf_toCandidate (h : row ∈ Sql.joinedRows lib ns filters db) :
    (skipOf src db.payloads row.1.toCandidate).isSome = !row.readable src ∧
      ∀ entry ∈ skipOf src db.payloads row.1.toCandidate, entry.path = row.1.path ∧
        row.Fails lib src entry.error := by
  unfold skipOf JoinedRow.readable
  rw [show db.payloads.find? (fun p => p.fileId = row.1.toCandidate.id) = some row.2 from
    (mem_joinedRows h).2]
  dsimp only
  cases hdecode : src.decode row.1.toCandidate.path ⟨row.2.content, row.2.encoding⟩ with
  | error err =>
    rw [show src.decode row.1.path ⟨row.2.content, row.2.encoding⟩ = .error err from hdecode]
    refine ⟨rfl, fun entry hentry => ?_⟩
    obtain rfl := Option.some.inj hentry
    exact ⟨rfl, Or.inl hdecode⟩
  | ok payload =>
    rw [show src.decode row.1.path ⟨row.2.content, row.2.encoding⟩ = .ok payload from hdecode]
    exact ⟨rfl, fun entry hentry => absurd hentry (by simp)⟩

/-! ## Tier 3 -/

/-- What tier 3 reports of a row. -/
def skipRow (lib : QueryLib T) (src : Sources T) (q : Query) (row : JoinedRow) :
    Option SkippedEntry :=
  (decodeCandidate lib src q (row.1.toCandidate, some row.2)).bind Sum.getLeft?

theorem skipRow_spec (q : Query) (row : JoinedRow) :
    (row.readable src = false → (skipRow lib src q row).isSome = true) ∧
      ∀ entry, skipRow lib src q row = some entry →
        entry.path = row.1.path ∧ row.Fails lib src entry.error := by
  unfold skipRow decodeCandidate JoinedRow.readable
  dsimp only
  cases hdecode : src.decode row.1.toCandidate.path ⟨row.2.content, row.2.encoding⟩ with
  | error err =>
    refine ⟨fun _ => rfl, fun entry hentry => ?_⟩
    obtain rfl := Option.some.inj hentry
    exact ⟨rfl, Or.inl hdecode⟩
  | ok payload =>
    rw [show src.decode row.1.path ⟨row.2.content, row.2.encoding⟩ = .ok payload from hdecode]
    refine ⟨fun h => absurd h (by simp [Except.toBool]), fun entry hentry => ?_⟩
    dsimp only at hentry
    split_ifs at hentry
    · cases hvalue : lib.toValue payload with
      | error text =>
        rw [hvalue] at hentry
        obtain rfl := Option.some.inj hentry
        exact ⟨rfl, Or.inr ⟨payload, text, hdecode, hvalue, rfl⟩⟩
      | ok value =>
        rw [hvalue] at hentry
        exact absurd hentry (by simp)
    · exact absurd hentry (by simp)

/-- Tier 3 decodes the rows that have a payload. -/
theorem filterMap_decodeCandidate : (Sql.queryCandidatesWithPayloads lib ns filters db).filterMap
    (decodeCandidate lib src q) = (Sql.joinedRows lib ns filters db).filterMap fun row =>
      decodeCandidate lib src q (row.1.toCandidate, some row.2) := by
  rw [Sql.queryCandidatesWithPayloads, List.filterMap_map, Sql.joinedRows, Sql.joinRows,
    List.filterMap_filterMap]
  refine List.filterMap_congr fun r _ => ?_
  show decodeCandidate lib src q (r.toCandidate, db.payload? r.id) = _
  cases hp : db.payload? r.id with
  | none => rfl
  | some p => rfl

theorem skipped_tier3Report : (tier3Report lib src q
    (Sql.queryCandidatesWithPayloads lib ns filters db)).skipped =
      (Sql.joinedRows lib ns filters db).filterMap (skipRow lib src q) := by
  show ((Sql.queryCandidatesWithPayloads lib ns filters db).filterMap _).filterMap Sum.getLeft? = _
  rw [filterMap_decodeCandidate, List.filterMap_filterMap]
  rfl

/-- Tier 3 reports every undecodable row. -/
theorem listsUndecodable_tier3Report (hv : db.Valid) :
    (tier3Report lib src q (Sql.queryCandidatesWithPayloads lib ns filters db)).ListsUndecodable lib
      src (Sql.joinedRows lib ns filters db) := by
  constructor
  · intro row hrow hunreadable
    rw [skipped_tier3Report, count_filterMap (fun row => row.1.path) SkippedEntry.path (nodup_joinedRows hv)
      (fun row _ entry hentry => ((skipRow_spec q row).2 entry hentry).1) hrow,
      if_pos ((skipRow_spec q row).1 hunreadable)]
  · intro entry hentry
    rw [skipped_tier3Report] at hentry
    obtain ⟨row, hrow, hskip⟩ := List.mem_filterMap.mp hentry
    exact ⟨row, hrow, (skipRow_spec q row).2 entry hskip⟩

/-! ## The statement of tier 2 -/

variable {selectFields : List String} {whereFields : List WhereField}

theorem distinctFields_eq (fields : List String) (whereFields : List WhereField) :
    Sql.distinctFields fields whereFields = (whereFields.map WhereField.path).foldl
      (fun fields f => if f ∈ fields then fields else fields ++ [f]) fields := by
  rw [List.foldl_map]
  rfl

theorem prefix_distinctFields (whereFields : List WhereField) (fields : List String) :
    fields <+: Sql.distinctFields fields whereFields := by
  rw [distinctFields_eq]
  exact prefix_foldl_distinct _ fields

theorem mem_distinctFields_iff {fields : List String} {path : String} :
    path ∈ Sql.distinctFields fields whereFields ↔
      path ∈ fields ∨ path ∈ whereFields.map WhereField.path := by
  rw [distinctFields_eq, mem_foldl_distinct]

theorem mem_distinctFields {fields : List String} {f : WhereField} (hf : f ∈ whereFields) :
    f.path ∈ Sql.distinctFields fields whereFields :=
  mem_distinctFields_iff.mpr (.inr (List.mem_map_of_mem hf))

/-- SQLite reads the fields of a text that is JSON. -/
theorem extractFields_of_ok {fields : List String} {p : PayloadRow}
    (h : ∀ field ∈ fields, ∃ n, lib.jsonNumber p.content field = .ok n) :
    Sql.extractFields lib fields p = .ok (fields.map (numberAt lib p.content)) := by
  refine mapM_of_ok fun field hfield => ?_
  obtain ⟨n, hn⟩ := h field hfield
  rw [numberAt, hn]

theorem readsRow_congr {reads reads' : String → Prop} {content : List UInt8}
    {selectFields : List String} : ∀ {whereFields : List WhereField},
      (∀ field ∈ Sql.distinctFields selectFields whereFields, reads field ↔ reads' field) →
        (ReadsRow lib reads content selectFields whereFields ↔
          ReadsRow lib reads' content selectFields whereFields)
  | [], h => forall₂_congr h
  | f :: rest, h => by
    have hrest : ∀ field ∈ Sql.distinctFields selectFields rest, reads field ↔ reads' field :=
      fun field hfield => h field <| mem_distinctFields_iff.mpr <|
        (mem_distinctFields_iff.mp hfield).imp_right (List.mem_cons_of_mem _)
    exact and_congr (h _ (mem_distinctFields List.mem_cons_self))
      (imp_congr_right fun _ => readsRow_congr hrest)

theorem readsRow_of_all {reads : String → Prop} {content : List UInt8} {selectFields : List String}
    {whereFields : List WhereField}
    (h : ∀ field ∈ Sql.distinctFields selectFields whereFields, reads field) :
    ReadsRow lib reads content selectFields whereFields := by
  have hall : ∀ whereFields, ReadsRow lib (fun _ => True) content selectFields whereFields := by
    intro whereFields
    induction whereFields with
    | nil => exact fun _ _ => trivial
    | cons f rest ih => exact ⟨trivial, fun _ => ih⟩
  exact (readsRow_congr fun field hfield => iff_true_intro (h field hfield)).mpr (hall _)

/-- The conditions on a text that is read, and what is then left to read. -/
theorem outerWhere_of_readsRow {p : PayloadRow} {selectFields : List String} :
    ∀ {whereFields : List WhereField},
      ReadsRow lib (fun field => ∃ n, lib.jsonNumber p.content field = .ok n) p.content selectFields
        whereFields →
      Sql.outerWhere lib p whereFields =
          .ok (whereFields.all fun f => f.holds (numberAt lib p.content f.path)) ∧
        ((whereFields.all fun f => f.holds (numberAt lib p.content f.path)) = true →
          ∀ field ∈ selectFields, ∃ n, lib.jsonNumber p.content field = .ok n)
  | [], h => ⟨rfl, fun _ => h⟩
  | f :: rest, ⟨⟨n, hn⟩, hrest⟩ => by
    have hnumber : numberAt lib p.content f.path = n := by rw [numberAt, hn]
    rw [Sql.outerWhere, hn, List.all_cons, hnumber]
    rw [hnumber] at hrest
    cases hholds : f.holds n with
    | false => exact ⟨by simp [bind, Except.bind, hholds, pure, Except.pure], fun h => by simp at h⟩
    | true =>
      obtain ⟨hwhere, hselect⟩ := outerWhere_of_readsRow (hrest hholds)
      refine ⟨?_, hselect⟩
      rw [Bool.true_and, ← hwhere]
      simp [bind, Except.bind, hholds]

theorem outerWhere_of_not_readsRow {p : PayloadRow} {selectFields : List String} :
    ∀ {whereFields : List WhereField},
      ¬ReadsRow lib (fun field => ∃ n, lib.jsonNumber p.content field = .ok n) p.content selectFields
        whereFields →
      (∃ err, Sql.outerWhere lib p whereFields = .error err) ∨
        Sql.outerWhere lib p whereFields = .ok true ∧
          ∃ field ∈ selectFields, ∃ err, lib.jsonNumber p.content field = .error err
  | [], h => by
    obtain ⟨field, hfield, hnone⟩ : ∃ field ∈ selectFields, ¬∃ n, lib.jsonNumber p.content field = .ok n := by
      by_contra hall
      exact h fun field hfield => by_contra fun hnone => hall ⟨field, hfield, hnone⟩
    refine Or.inr ⟨rfl, field, hfield, ?_⟩
    cases hread : lib.jsonNumber p.content field with
    | ok n => exact absurd ⟨n, hread⟩ hnone
    | error err => exact ⟨err, rfl⟩
  | f :: rest, h => by
    cases hread : lib.jsonNumber p.content f.path with
    | error err => exact Or.inl ⟨err, by rw [Sql.outerWhere, hread]; rfl⟩
    | ok n =>
      have hnumber : numberAt lib p.content f.path = n := by rw [numberAt, hread]
      have hcome : f.holds n = true ∧ ¬ReadsRow lib (fun field => ∃ n, lib.jsonNumber p.content field =
          .ok n) p.content selectFields rest := by
        by_contra hnot
        refine h ⟨⟨n, hread⟩, fun hholds => by_contra fun hrest => hnot ⟨?_, hrest⟩⟩
        rwa [hnumber] at hholds
      have hwhere : Sql.outerWhere lib p (f :: rest) = Sql.outerWhere lib p rest := by
        rw [Sql.outerWhere, hread]
        simp [bind, Except.bind, hcome.1]
      rw [hwhere]
      exact outerWhere_of_not_readsRow hcome.2

theorem take_distinctFields (selectFields : List String) (whereFields : List WhereField) :
    (Sql.distinctFields selectFields whereFields).take selectFields.length = selectFields :=
  (List.prefix_iff_eq_take.mp (prefix_distinctFields whereFields selectFields)).symm

theorem pushdownRow_of_read (h : row.Read lib selectFields whereFields) :
    Sql.pushdownRow lib selectFields whereFields row =
      .ok (if row.passes lib whereFields then some (row.withFields lib selectFields) else none) := by
  obtain ⟨hwhere, hselect⟩ := outerWhere_of_readsRow h
  have hpasses : row.passes lib whereFields =
      whereFields.all fun f => f.holds (numberAt lib row.2.content f.path) := rfl
  rw [Sql.pushdownRow, hwhere, take_distinctFields, hpasses]
  cases hall : whereFields.all fun f => f.holds (numberAt lib row.2.content f.path) with
  | false => rfl
  | true =>
    rw [extractFields_of_ok (hselect hall), JoinedRow.withFields]
    simp [bind, Except.bind, pure, Except.pure, List.map_map, Function.comp_def]

theorem pushdownRow_of_not_read (h : ¬row.Read lib selectFields whereFields) :
    ∃ err, Sql.pushdownRow lib selectFields whereFields row = .error err := by
  rw [Sql.pushdownRow, take_distinctFields]
  rcases outerWhere_of_not_readsRow h with ⟨err, herr⟩ | ⟨htrue, field, hfield, err, herr⟩
  · exact ⟨err, by rw [herr]; rfl⟩
  · obtain ⟨err', hextract⟩ := mapM_of_error herr hfield
    have hextract' : Sql.extractFields lib selectFields row.2 = .error err' := hextract
    exact ⟨err', by rw [htrue, hextract']; rfl⟩

theorem queryCandidatesJsonPushdown_eq :
    Sql.queryCandidatesJsonPushdown lib ns filters selectFields whereFields db =
      ((Sql.joinedRows lib ns filters db).mapM (Sql.pushdownRow lib selectFields whereFields)).map
        (List.filterMap id) :=
  rfl

/-- Where SQLite reads what it comes to, tier 2 reads the rows for which its conditions hold. -/
theorem queryCandidatesJsonPushdown_of_read
    (h : ∀ row ∈ Sql.joinedRows lib ns filters db, row.Read lib selectFields whereFields) :
    Sql.queryCandidatesJsonPushdown lib ns filters selectFields whereFields db =
      .ok (((Sql.joinedRows lib ns filters db).filter (JoinedRow.passes lib whereFields)).map
        (JoinedRow.withFields lib selectFields)) := by
  rw [queryCandidatesJsonPushdown_eq, mapM_of_ok fun row hrow => pushdownRow_of_read (h row hrow),
    Except.map, List.filterMap_map]
  refine congrArg Except.ok ?_
  induction Sql.joinedRows lib ns filters db with
  | nil => rfl
  | cons row rest ih =>
    rw [List.filterMap_cons, ih, List.filter_cons]
    cases hpasses : row.passes lib whereFields <;> simp [hpasses]

/-- A row that SQLite cannot read fails tier 2. -/
theorem queryCandidatesJsonPushdown_of_not_read (hrow : row ∈ Sql.joinedRows lib ns filters db)
    (h : ¬row.Read lib selectFields whereFields) :
    ∃ err, Sql.queryCandidatesJsonPushdown lib ns filters selectFields whereFields db =
      .error err := by
  obtain ⟨err, hread⟩ := pushdownRow_of_not_read h
  obtain ⟨err', hall⟩ := mapM_of_error hread hrow
  exact ⟨err', by rw [queryCandidatesJsonPushdown_eq, hall]; rfl⟩

/-! ## Running a plan -/

section Run

variable {ws : ℕ → World} {fuel : ℕ}

/-- A statement of a query that succeeds gives the report or goes on. -/
theorem runPhase_of_step {phase : QueryPhase T} {out : QueryPhase T ⊕ QueryReport T} {t : Tx}
    (h : phase.step lib src e (ws fuel) q ⟨db, 0, 0⟩ = .ok (out, t)) :
    runPhase lib src e q ws db (fuel + 1) phase =
      out.elim (runPhase lib src e q ws db fuel) fun report => some (.ok report) := by
  rw [runPhase, autocommit, h]
  cases out <;> rfl

theorem runPhase_planning (hfault : ∀ n k, (ws n).fault k = none) :
    runPhase lib src e q ws db (fuel + 1) (.planning filters selectFields whereFields) =
      runPhase lib src e q ws db fuel (.planned filters
        (if Sql.namespaceAllJson e.ns db then .tier2 selectFields whereFields else .tier3)) := by
  have hstep : QueryPhase.step lib src e (ws fuel) q (.planning filters selectFields whereFields)
      ⟨db, 0, 0⟩ = .ok (.inl (.planned filters
        (if Sql.namespaceAllJson e.ns db then .tier2 selectFields whereFields else .tier3)),
          ⟨db, 1, 0⟩) :=
    StateExcept.bind_of_ok (select_of_fault (hfault fuel _))
  exact runPhase_of_step hstep

theorem runPhase_tier3 (hfault : ∀ n k, (ws n).fault k = none) :
    runPhase lib src e q ws db (fuel + 1) (.planned filters .tier3) = some (.ok
      (tier3Report lib src q (Sql.queryCandidatesWithPayloads lib e.ns filters db))) := by
  have hstep : QueryPhase.step lib src e (ws fuel) q (.planned filters .tier3) ⟨db, 0, 0⟩ =
      .ok (.inr (tier3Report lib src q (Sql.queryCandidatesWithPayloads lib e.ns filters db)),
        ⟨db, 1, 0⟩) :=
    StateExcept.bind_of_ok (select_of_fault (hfault fuel _))
  exact runPhase_of_step hstep

theorem runPhase_tier2_of_error (hfault : ∀ n k, (ws n).fault k = none) {err : SqlError}
    (h : Sql.queryCandidatesJsonPushdown lib e.ns filters selectFields whereFields db = .error err) :
    runPhase lib src e q ws db (fuel + 1) (.planned filters (.tier2 selectFields whereFields)) =
      some (.error (databaseError err)) := by
  have hread : selectOrFail (ws fuel)
      (Sql.queryCandidatesJsonPushdown lib e.ns filters selectFields whereFields) ⟨db, 0, 0⟩ =
        .error (databaseError err) := by
    rw [selectOrFail, statement, hfault fuel 0]
    dsimp only
    rw [h]
    rfl
  rw [runPhase, QueryPhase.step, autocommit, StateExcept.bind_of_error hread]

/-- The page tier 2 starts with. -/
def tier2Page (lib : QueryLib T) (q : Query) (selectFields : List String)
    (whereFields : List WhereField) (rows : List JoinedRow) : Filling T :=
  ⟨tier2Order lib q selectFields whereFields rows, q.offset, [], []⟩

theorem length_tier2Order_le (rows : List JoinedRow) :
    (tier2Order lib q selectFields whereFields rows).length ≤ rows.length := by
  rw [tier2Order, List.length_map, sortByKeys, List.length_insertionSort, List.length_map]
  exact List.length_filter_le _ _

theorem length_joinedRows_le : (Sql.joinedRows lib ns filters db).length ≤ db.files.length := by
  refine (List.length_filterMap_le _ _).trans ?_
  rw [Sql.filteredRows, length_sortBy]
  exact (List.length_filter_le _ _).trans (List.length_filter_le _ _)

/-- A statement that read the candidates, and what fills the page from them. -/
theorem runPhase_of_finishFilling (hfault : ∀ n k, (ws n).fault k = none) {phase : QueryPhase T}
    {page : Filling T} {t : Tx}
    (hstep : phase.step lib src e (ws fuel) q ⟨db, 0, 0⟩ = .ok (finishFilling q page, t))
    (hfuel : page.rest.length ≤ fuel) :
    let filled := if page.full q.limit then page
      else fillWindow src q.limit db.payloads page.rest page
    runPhase lib src e q ws db (fuel + 1) phase = some (.ok ⟨filled.entries, filled.skipped⟩) := by
  intro filled
  rw [runPhase_of_step hstep, finishFilling]
  by_cases hfull : page.full q.limit
  · rw [if_pos (Or.inl hfull), show filled = page from if_pos hfull]
    rfl
  · rw [show filled = fillWindow src q.limit db.payloads page.rest page from if_neg hfull]
    by_cases hrest : page.rest = []
    · rw [if_pos (Or.inr hrest), hrest]
      rfl
    · rw [if_neg (not_or.mpr ⟨hfull, hrest⟩)]
      exact runPhase_filling hfault hfuel hfull hrest

theorem runPhase_tier2_of_ok (hfault : ∀ n k, (ws n).fault k = none)
    (h : ∀ row ∈ Sql.joinedRows lib e.ns filters db, row.Read lib selectFields whereFields)
    (hfuel : db.files.length ≤ fuel) :
    let page : Filling T := tier2Page lib q selectFields whereFields (Sql.joinedRows lib e.ns filters db)
    let filled := if page.full q.limit then page
      else fillWindow src q.limit db.payloads page.rest page
    runPhase lib src e q ws db (fuel + 1) (.planned filters (.tier2 selectFields whereFields)) =
      some (.ok ⟨filled.entries, filled.skipped⟩) := by
  intro page
  have hread : selectOrFail (ws fuel)
      (Sql.queryCandidatesJsonPushdown lib e.ns filters selectFields whereFields) ⟨db, 0, 0⟩ =
        .ok (((Sql.joinedRows lib e.ns filters db).filter (JoinedRow.passes lib whereFields)).map
          (JoinedRow.withFields lib selectFields), ⟨db, 1, 0⟩) := by
    rw [selectOrFail, statement, hfault fuel 0]
    dsimp only
    rw [queryCandidatesJsonPushdown_of_read h]
    rfl
  have hstep : QueryPhase.step lib src e (ws fuel) q
      (.planned filters (.tier2 selectFields whereFields)) ⟨db, 0, 0⟩ =
        .ok (finishFilling q page, ⟨db, 1, 0⟩) := StateExcept.bind_of_ok hread
  exact runPhase_of_finishFilling hfault hstep
    (((length_tier2Order_le _).trans length_joinedRows_le).trans hfuel)

end Run

/-! ## What tier 2 reports -/

theorem mem_tier2Order {rows : List JoinedRow} {c : CandidateRow} :
    c ∈ tier2Order lib q selectFields whereFields rows ↔
      ∃ row ∈ rows, row.passes lib whereFields = true ∧ row.1.toCandidate = c := by
  rw [tier2Order, sortByKeys, List.mem_map]
  constructor
  · rintro ⟨sorted, hsorted, rfl⟩
    obtain ⟨row, hrow, rfl⟩ := List.mem_map.mp ((List.perm_insertionSort _ _).mem_iff.mp hsorted)
    obtain ⟨hmem, hpasses⟩ := List.mem_filter.mp hrow
    exact ⟨row, hmem, hpasses, rfl⟩
  · rintro ⟨row, hmem, hpasses, rfl⟩
    exact ⟨row.withFields lib selectFields, (List.perm_insertionSort _ _).mem_iff.mpr
      (List.mem_map_of_mem (List.mem_filter.mpr ⟨hmem, hpasses⟩)), rfl⟩

theorem nodup_tier2Order (hv : db.Valid) :
    ((tier2Order lib q selectFields whereFields (Sql.joinedRows lib ns filters db)).map
      CandidateRow.path).Nodup := by
  rw [tier2Order, sortByKeys, List.map_map, ((List.perm_insertionSort _ _).map _).nodup_iff,
    List.map_map]
  exact (nodup_joinedRows hv).sublist (List.filter_sublist.map _)

theorem path_of_skipOf {payloads : List PayloadRow} {c : CandidateRow} {entry : SkippedEntry}
    (h : skipOf src payloads c = some entry) : entry.path = c.path := by
  unfold skipOf at h
  split at h
  · exact absurd h (by simp)
  · split at h
    · rw [← Option.some.inj h]
    · exact absurd h (by simp)

/-- A pass over the candidates of tier 2 reports each undecodable row exactly if it comes to
see it. -/
theorem listsUndecodable_iff_of_handles (hv : db.Valid) {handled : List CandidateRow}
    {entries : List (CacheEntry T)} (hfull : ¬Filling.full q.limit
      (tier2Page lib q selectFields whereFields (Sql.joinedRows lib ns filters db) : Filling T))
    (h : Handles src db.payloads q.limit
      (tier2Page lib q selectFields whereFields (Sql.joinedRows lib ns filters db))
      (tier2Order lib q selectFields whereFields (Sql.joinedRows lib ns filters db)) handled) :
    QueryReport.ListsUndecodable lib src (Sql.joinedRows lib ns filters db)
        ⟨entries, handled.filterMap (skipOf src db.payloads)⟩ ↔
      Tier2Reaches lib src q selectFields whereFields (Sql.joinedRows lib ns filters db)
        db.payloads := by
  generalize horder : tier2Order lib q selectFields whereFields (Sql.joinedRows lib ns filters db) =
    order at h
  have hnodup : (order.map CandidateRow.path).Nodup := horder ▸ nodup_tier2Order hv
  have hmem : ∀ {c}, c ∈ order ↔ ∃ row ∈ Sql.joinedRows lib ns filters db,
      row.passes lib whereFields = true ∧ row.1.toCandidate = c := fun {c} => horder ▸ mem_tier2Order
  have hhandled : ∀ {c}, c ∈ handled → c ∈ order := fun hc => h.isPrefix.subset hc
  have hcount : ∀ row ∈ Sql.joinedRows lib ns filters db, row.readable src = false →
      (((handled.filterMap (skipOf src db.payloads)).map SkippedEntry.path).count row.1.path = 1 ↔
        row.1.toCandidate ∈ handled) := by
    intro row hrow hunreadable
    have hskip : (skipOf src db.payloads row.1.toCandidate).isSome = !row.readable src :=
      (skipOf_toCandidate hrow).1
    rw [hunreadable] at hskip
    constructor
    · intro hone
      obtain ⟨entry, hentry, hpath⟩ := List.mem_map.mp
        (List.count_pos_iff.mp (hone.symm ▸ Nat.one_pos))
      obtain ⟨c, hc, hcskip⟩ := List.mem_filterMap.mp hentry
      obtain ⟨row', hrow', -, rfl⟩ := hmem.mp (hhandled hc)
      have heq : row' = row := List.inj_on_of_nodup_map (nodup_joinedRows hv) hrow' hrow
        ((path_of_skipOf hcskip).symm.trans hpath)
      exact heq ▸ hc
    · intro hc
      have hone := count_filterMap (g := skipOf src db.payloads) CandidateRow.path SkippedEntry.path
        (hnodup.sublist (h.isPrefix.sublist.map _)) (fun c _ entry => path_of_skipOf) hc
      rw [hskip] at hone
      exact hone
  constructor
  · intro hlists
    have hin : ∀ row ∈ Sql.joinedRows lib ns filters db, row.readable src = false →
        row.1.toCandidate ∈ handled := fun row hrow hunreadable =>
      (hcount row hrow hunreadable).mp (hlists.once row hrow hunreadable)
    refine ⟨fun row hrow hunreadable => ?_, fun n hn before c after hsplit hdec => ?_⟩
    swap
    · rw [horder] at hsplit
      have hc : c ∈ order := hsplit ▸ List.mem_append_right _ List.mem_cons_self
      obtain ⟨row, hrow, -, rfl⟩ := hmem.mp hc
      rw [decodes_toCandidate hrow] at hdec
      obtain ⟨first, later, hfirst⟩ := List.append_of_mem (hin row hrow hdec)
      obtain ⟨rest, hrest⟩ := h.isPrefix
      -- the candidate stands once in the order, so what comes before it is the same
      have hbefore : first = before := by
        rw [hfirst, List.append_assoc, List.cons_append, hsplit] at hrest
        have hdistinct := hnodup.of_map
        rw [hsplit, List.nodup_append] at hdistinct
        have hcons := List.nodup_cons.mp hdistinct.2.1
        exact ((List.append_cons_inj_of_notMem
          (fun hmem' => hdistinct.2.2 _ hmem' _ List.mem_cons_self rfl) hcons.1).mp hrest.symm).1.symm
      have hlt := h.room n hn first _ later hfirst
      rw [hbefore] at hlt
      rw [hn] at hfull
      exact ⟨not_le.mp hfull, by simpa [Filling.room, tier2Page] using hlt⟩
    · obtain ⟨row', hrow', hpasses, heq⟩ := hmem.mp (hhandled (hin row hrow hunreadable))
      have hsame : row' = row := List.inj_on_of_nodup_map (nodup_joinedRows hv) hrow' hrow
        (congrArg CandidateRow.path heq)
      exact hsame ▸ hpasses
  · rintro ⟨hpasses, hreached⟩
    refine ⟨fun row hrow hunreadable => (hcount row hrow hunreadable).mpr ?_, fun entry hentry => ?_⟩
    · have hc : row.1.toCandidate ∈ order := hmem.mpr ⟨row, hrow, hpasses row hrow hunreadable, rfl⟩
      rcases h.stops with rfl | ⟨n, hn, hlen⟩
      · exact hc
      · obtain ⟨rest, hrest⟩ := h.isPrefix
        by_contra hnot
        obtain ⟨first, later, hsplit⟩ := List.append_of_mem
          ((List.mem_append.mp (hrest ▸ hc)).resolve_left hnot)
        have hlt := (hreached n hn (handled ++ first) _ later
          (by rw [horder, ← hrest, hsplit, List.append_assoc])
          ((decodes_toCandidate hrow).trans hunreadable)).2
        rw [List.filter_append, List.length_append, hlen] at hlt
        simp only [Filling.room, tier2Page, List.length_nil] at hlt
        omega
    · obtain ⟨c, hc, hskip⟩ := List.mem_filterMap.mp hentry
      obtain ⟨row, hrow, -, rfl⟩ := hmem.mp (hhandled hc)
      exact ⟨row, hrow, (skipOf_toCandidate hrow).2 entry hskip⟩

/-! ## Every plan -/

theorem classifyQuery_ne_tier1 (hq : q.needsJson = true) : classifyQuery q ≠ .tier1 := by
  unfold classifyQuery
  dsimp only
  split_ifs with hnone
  · rw [Bool.and_eq_true, List.isEmpty_iff, List.isEmpty_iff, List.filterMap_eq_nil_iff] at hnone
    rw [Query.needsJson, hnone.1, Bool.or_eq_true, List.any_eq_true] at hq
    rcases hq with hq | ⟨key, hkey, hsome⟩
    · exact absurd hq (by simp)
    · rw [hnone.2 key hkey] at hsome
      exact absurd hsome (by simp)
  · cases q.predicates.mapM Predicate.toWhere with
    | none => simp
    | some whereFields =>
      dsimp only
      split_ifs <;> simp

/-- What the plan says about a query that tier 2 runs. -/
structure Pushed (q : Query) (selectFields : List String) (whereFields : List WhereField) : Prop where
  needsJson : q.needsJson = true
  predicates : q.predicates.mapM Predicate.toWhere = some whereFields
  selected : ∀ path order, .field path order ∈ q.orderBy → path ∈ selectFields
  safe : ∀ path ∈ Sql.distinctFields selectFields whereFields, isSafeJsonFieldPath path = true

theorem pushed_of_classifyQuery (h : classifyQuery q = .tier2 selectFields whereFields) :
    Pushed q selectFields whereFields := by
  unfold classifyQuery at h
  dsimp only at h
  split_ifs at h with hnone
  cases hwhere : q.predicates.mapM Predicate.toWhere with
  | none =>
    rw [hwhere] at h
    exact absurd h (by simp)
  | some whereFields' =>
    rw [hwhere] at h
    dsimp only at h
    split_ifs at h with hsafe
    obtain ⟨hselect, rfl⟩ := QueryPlan.tier2.inj h
    have hmem : ∀ path, path ∈ selectFields ↔ path ∈ q.orderBy.filterMap OrderBy.field? := by
      intro path
      rw [← hselect, mem_foldl_distinct]
      exact or_iff_right List.not_mem_nil
    refine ⟨?_, hwhere, fun path order hkey => ?_, fun path hpath => ?_⟩
    · rw [Query.needsJson, Bool.or_eq_true, Bool.not_eq_true', List.any_eq_true]
      by_contra hneither
      obtain ⟨hempty, hfields⟩ := not_or.mp hneither
      refine hnone (Bool.and_eq_true _ _ ▸ ⟨Bool.not_eq_false _ ▸ hempty, ?_⟩)
      rw [List.isEmpty_iff, List.filterMap_eq_nil_iff]
      intro key hkey
      by_contra hsome
      exact hfields ⟨key, hkey, Option.isSome_iff_ne_none.mpr hsome⟩
    · exact (hmem path).mpr (List.mem_filterMap.mpr ⟨_, hkey, rfl⟩)
    · rw [mem_distinctFields_iff, hmem] at hpath
      exact List.all_eq_true.mp hsafe path (List.mem_append.mpr hpath)

theorem readsField_iff {malformed : List UInt8 → Prop} {content : List UInt8} {field : String}
    (hjson : Char.ofNat 0 ∉ field.toList →
      ((∃ err, lib.jsonNumber content field = .error err) ↔ malformed content)) :
    ReadsField lib malformed content field ↔ ∃ n, lib.jsonNumber content field = .ok n := by
  unfold ReadsField
  split_ifs with hnul
  · rfl
  · rw [← hjson hnul]
    cases lib.jsonNumber content field with
    | ok n => simp
    | error err => simp

section Report

variable {ws : ℕ → World} {fuel : ℕ}

theorem reportsAll_iff_of_ok {report : QueryReport T}
    (h : runReport lib src e q ws fuel db = some (.ok report)) :
    ReportsAll lib src e q ws fuel filters db ↔
      report.ListsUndecodable lib src (Sql.joinedRows lib e.ns filters db) := by
  constructor
  · rintro ⟨report', h', hlists, -⟩
    rw [h] at h'
    rwa [Except.ok.inj (Option.some.inj h')]
  · intro hlists
    refine ⟨report, h, hlists, ?_⟩
    rw [runQuery, h]
    show (∃ err, some report.entriesOrError = some (.error err)) ↔ _
    unfold QueryReport.entriesOrError
    cases report.skipped with
    | nil => simp
    | cons skipped rest => simp

theorem not_reportsAll_of_error {err : Error}
    (h : runReport lib src e q ws fuel db = some (.error err)) :
    ¬ReportsAll lib src e q ws fuel filters db := by
  rintro ⟨report, h', -⟩
  rw [h] at h'
  exact absurd (Option.some.inj h') (by simp)

theorem runReport_of_start {phase : QueryPhase T} (h : QueryPhase.start lib src e q = .ok phase) :
    runReport lib src e q ws fuel db = runPhase lib src e q ws db fuel phase := by
  rw [runReport, h]

theorem QueryPhase.start_of_preparePathFilters (hfilters : preparePathFilters lib src q = .ok filters) :
    QueryPhase.start lib src e q = .ok (match classifyQuery q with
      | .tier2 selectFields whereFields =>
        if e.encryptionKey.isSome then .planned filters .tier3
        else .planning filters selectFields whereFields
      | plan => .planned filters plan) := by
  rw [QueryPhase.start, hfilters]
  rfl

/-- An empty page, full from the start, reports nothing. -/
theorem listsUndecodable_nil_iff {entries : List (CacheEntry T)} (hlimit : q.limit = some 0) :
    QueryReport.ListsUndecodable lib src (Sql.joinedRows lib ns filters db) ⟨entries, []⟩ ↔
      Tier2Reaches lib src q selectFields whereFields (Sql.joinedRows lib ns filters db)
        db.payloads := by
  constructor
  · intro h
    have hnone : ∀ row ∈ Sql.joinedRows lib ns filters db, row.readable src ≠ false :=
      fun row hrow hunreadable => absurd (h.once row hrow hunreadable) (by simp)
    refine ⟨fun row hrow hunreadable => absurd hunreadable (hnone row hrow),
      fun n hn before c after hsplit hdec => ?_⟩
    obtain ⟨row, hrow, -, rfl⟩ := mem_tier2Order.mp
      (hsplit ▸ List.mem_append_right _ List.mem_cons_self)
    exact absurd ((decodes_toCandidate hrow).symm.trans hdec) (hnone row hrow)
  · rintro ⟨hpasses, hreached⟩
    refine ⟨fun row hrow hunreadable => ?_, fun entry hentry => absurd hentry List.not_mem_nil⟩
    obtain ⟨before, after, hsplit⟩ := List.append_of_mem
      (mem_tier2Order.mpr ⟨row, hrow, hpasses row hrow hunreadable, rfl⟩)
    exact absurd (hreached 0 hlimit before _ after hsplit
      ((decodes_toCandidate hrow).trans hunreadable)).1 (lt_irrefl 0)

/-- Tier 2 on texts that SQLite reads reports every undecodable entry exactly when it reaches them all. -/
theorem reportsAll_iff_of_pushdown (hv : db.Valid) (hfault : ∀ n k, (ws n).fault k = none)
    (hreads : ∀ row ∈ Sql.joinedRows lib e.ns filters db, row.Read lib selectFields whereFields)
    {n : ℕ} (hn : db.files.length ≤ n) (hrun : runReport lib src e q ws fuel db =
      runPhase lib src e q ws db (n + 1) (.planned filters (.tier2 selectFields whereFields))) :
    ReportsAll lib src e q ws fuel filters db ↔
      Tier2Reaches lib src q selectFields whereFields (Sql.joinedRows lib e.ns filters db)
        db.payloads := by
  rw [runPhase_tier2_of_ok hfault hreads hn] at hrun
  rw [reportsAll_iff_of_ok hrun]
  by_cases hfull : Filling.full q.limit (tier2Page lib q selectFields whereFields
      (Sql.joinedRows lib e.ns filters db) : Filling T)
  · rw [if_pos hfull]
    refine listsUndecodable_nil_iff ?_
    cases hlimit : q.limit with
    | none =>
      rw [hlimit] at hfull
      exact absurd hfull not_full_none
    | some m =>
      rw [hlimit] at hfull
      exact congrArg some (Nat.le_zero.mp hfull)
  · rw [if_neg hfull]
    have h := handles_fillWindow src db.payloads
      (tier2Order lib q selectFields whereFields (Sql.joinedRows lib e.ns filters db)) hfull
    have hskipped := h.skipped
    rw [show (tier2Page lib q selectFields whereFields (Sql.joinedRows lib e.ns filters db) :
      Filling T).skipped = [] from rfl, List.nil_append] at hskipped
    rw [show (tier2Page lib q selectFields whereFields (Sql.joinedRows lib e.ns filters db) :
      Filling T).rest = tier2Order lib q selectFields whereFields
        (Sql.joinedRows lib e.ns filters db) from rfl, hskipped]
    exact listsUndecodable_iff_of_handles hv hfull h

/-- A query that tests or sorts by the payload reports every undecodable entry exactly when tier 2
does not run or gets to see them all. -/
theorem reportsAll_iff (hv : db.Valid) (hkey : e.encryptionKey = none) (hq : q.needsJson = true)
    (hfilters : preparePathFilters lib src q = .ok filters)
    (hfault : ∀ n k, (ws n).fault k = none) (malformed : List UInt8 → Prop)
    (hjson : ∀ content field, isSafeJsonFieldPath field = true → Char.ofNat 0 ∉ field.toList →
      ((∃ err, lib.jsonNumber content field = .error err) ↔ malformed content))
    (hfuel : db.files.length + 2 ≤ fuel) :
    ReportsAll lib src e q ws fuel filters db ↔
      ∀ selectFields whereFields, classifyQuery q = .tier2 selectFields whereFields →
        Sql.namespaceAllJson e.ns db = true → Tier2Sees lib src q selectFields whereFields malformed
          (Sql.joinedRows lib e.ns filters db) db.payloads := by
  obtain ⟨n, rfl⟩ : ∃ n, fuel = n + 2 := ⟨fuel - 2, by omega⟩
  have hstart := QueryPhase.start_of_preparePathFilters (e := e) hfilters
  rw [hkey] at hstart
  cases hplan : classifyQuery q with
  | tier1 => exact absurd hplan (classifyQuery_ne_tier1 hq)
  | tier3 =>
    rw [hplan] at hstart
    rw [reportsAll_iff_of_ok ((runReport_of_start hstart).trans (runPhase_tier3 hfault))]
    exact iff_of_true (listsUndecodable_tier3Report hv) fun _ _ h => absurd h (by simp)
  | tier2 selectFields whereFields =>
    rw [hplan] at hstart
    have hrun : runReport lib src e q ws (n + 2) db = _ :=
      (runReport_of_start hstart).trans (runPhase_planning hfault)
    cases hjsonTags : Sql.namespaceAllJson e.ns db with
    | false =>
      rw [hjsonTags, if_neg (by simp), runPhase_tier3 hfault] at hrun
      rw [reportsAll_iff_of_ok hrun]
      exact iff_of_true (listsUndecodable_tier3Report hv) fun _ _ _ h => absurd h (by simp)
    | true =>
      rw [hjsonTags, if_pos rfl] at hrun
      have hcondition : (∀ select where_, QueryPlan.tier2 selectFields whereFields = .tier2 select where_ →
          true = true → Tier2Sees lib src q select where_ malformed (Sql.joinedRows lib e.ns filters db)
            db.payloads) ↔ Tier2Sees lib src q selectFields whereFields malformed
              (Sql.joinedRows lib e.ns filters db) db.payloads := by
        refine ⟨fun h => h _ _ rfl rfl, fun h select where_ heq _ => ?_⟩
        obtain ⟨rfl, rfl⟩ := QueryPlan.tier2.inj heq
        exact h
      rw [hcondition]
      have hreads : ∀ row : JoinedRow, ReadsRow lib (ReadsField lib malformed row.2.content) row.2.content
          selectFields whereFields ↔ row.Read lib selectFields whereFields := fun row =>
        readsRow_congr fun field hfield =>
          readsField_iff fun hnul => hjson _ _ ((pushed_of_classifyQuery hplan).safe field hfield) hnul
      by_cases hall : ∀ row ∈ Sql.joinedRows lib e.ns filters db, row.Read lib selectFields whereFields
      · rw [reportsAll_iff_of_pushdown hv hfault hall (by omega) hrun]
        exact ⟨fun h => ⟨fun row hrow => (hreads row).mpr (hall row hrow), h⟩, Tier2Sees.reaches⟩
      · have hnot : ∃ row ∈ Sql.joinedRows lib e.ns filters db, ¬row.Read lib selectFields whereFields := by
          by_contra hnone
          exact hall fun row hrow => by_contra fun h => hnone ⟨row, hrow, h⟩
        obtain ⟨row, hrow, hread⟩ := hnot
        obtain ⟨err, herr⟩ := queryCandidatesJsonPushdown_of_not_read hrow hread
        rw [runPhase_tier2_of_error hfault herr] at hrun
        exact iff_of_false (not_reportsAll_of_error hrun) fun h => hread ((hreads row).mp (h.reads row hrow))

end Report

end Rows

/-! ## An entry that fits no condition -/

section Samples

/-- SQLite on the text of an object with a number `a`, on that of an empty one, and on others,
which are not JSON here. -/
def objectNumber (content : List UInt8) (field : String) : Except SqlError (Option SqlNumber) :=
  if content = [123, 34, 97, 34, 58, 49, 125] then .ok (if field = "a" then some (.integer 1) else none)
  else if content = [123, 125] then .ok none
  else .error (.other "malformed JSON")

def objectLib : QueryLib Unit := { Host.quiet.query with jsonNumber := objectNumber }

/-- A payload is an object with a number `a`. -/
def objectSources : Sources Unit :=
  { Sources.quiet with
    decode := fun _ encoded =>
      if encoded.bytes = [123, 34, 97, 34, 58, 49, 125] then .ok ()
      else .error (.serialization "missing field `a`") }

/-- One entry, whose payload is an empty object. -/
def emptyObject (tag : String) : Db :=
  ⟨[⟨1, "n", "/a", ⟨0, 0, none⟩, 0, 0, 0⟩], [⟨1, [123, 125], tag⟩], 1⟩

theorem valid_emptyObject (tag : String) : (emptyObject tag).Valid where
  ids := List.nodup_singleton 1
  keys := List.nodup_singleton ("n", "/a")
  payloadIds := List.nodup_singleton 1
  foreign p hp := ⟨_, List.mem_singleton.mpr rfl, by rw [List.mem_singleton.mp hp]⟩
  seq r hr := by rw [List.mem_singleton.mp hr]; exact le_rfl

/-- The entries whose `a` is above 0. -/
def positiveObjects : Query := ⟨[.fieldGt "a" ⟨0⟩], none, 0, none, none, none, []⟩

/-- Under another tag the query decodes every entry. -/
theorem reportsAll_iff_sample :
    ReportsAll objectLib objectSources (.plain "n" none) positiveObjects (fun _ => .quiet) 3
      ⟨none, none, none⟩ (emptyObject "bin") := by
  refine (reportsAll_iff (valid_emptyObject "bin") rfl rfl rfl (fun _ _ => rfl)
    (fun content => ∃ err, objectNumber content "" = .error err) ?_ (by decide)).mpr ?_
  · intro content field _ _
    show (∃ err, objectNumber content field = .error err) ↔ _
    unfold objectNumber
    by_cases hobject : content = [123, 34, 97, 34, 58, 49, 125]
    · simp [hobject]
    · by_cases hempty : content = [123, 125] <;> simp [hobject, hempty]
  · intro selectFields whereFields _ htags
    exact absurd htags (by decide)

/-- SQLite finds no `a` in the empty object, so the condition fails and the entry is never
decoded. -/
theorem filteredEntry_unreported :
    ¬ReportsAll objectLib objectSources (.plain "n" none) positiveObjects (fun _ => .quiet) 3
      ⟨none, none, none⟩ (emptyObject "json") := by
  rintro ⟨report, hrun, hlists, -⟩
  have hskipped : (runReport objectLib objectSources (.plain "n" none) positiveObjects
      (fun _ => .quiet) 3 (emptyObject "json")).map (fun result => result.map QueryReport.skipped) =
        some (.ok []) := by decide +kernel
  rw [hrun] at hskipped
  have hnil : report.skipped = [] := Except.ok.inj (Option.some.inj hskipped)
  have hone := hlists.once (⟨1, "n", "/a", ⟨0, 0, none⟩, 0, 0, 0⟩, ⟨1, [123, 125], "json"⟩)
    (by decide +kernel) (by decide +kernel)
  rw [hnil] at hone
  exact absurd hone (by decide)

end Samples

end LocalCache
