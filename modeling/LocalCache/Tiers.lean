import LocalCache.Materialize
import LocalCache.NumberPushdown
import LocalCache.ResultOrder

/-!
# The pushdown and the plan that decodes everything

Tier 2 tests and sorts by the numbers SQLite reads out of the stored texts, and decodes payloads only
to fill the page. Tier 3 decodes every payload, and tests, sorts and pages the values. On rows whose
payloads are stored as JSON texts (`StoredJson`), with integers that a double holds, both go through
`StoredJson.result`, and both return its page. But tier 3 adds the limit to the offset, and a build
that checks for overflow panics where the sum is no `usize`, and only there (`tiersAgree_iff`).
-/

namespace LocalCache

/-! ## Integers that a double holds -/

def JsonNumber.Exact : JsonNumber → Prop
  | .posInt n => n.toNat ≤ 2 ^ 53
  | .negInt n => n.toInt.natAbs ≤ 2 ^ 53
  | .float _ => True

namespace Json

mutual

/-- The integers inside are at most `2 ^ 53` in magnitude. -/
def Exact : Json → Prop
  | .null | .bool _ | .string _ => True
  | .number n => n.Exact
  | .array items => ExactAll items
  | .object fields => ExactFields fields

def ExactAll : List Json → Prop
  | [] => True
  | item :: items => item.Exact ∧ ExactAll items

def ExactFields : List (String × Json) → Prop
  | [] => True
  | (_, item) :: fields => item.Exact ∧ ExactFields fields

end

theorem exact_of_mem : ∀ {fields : List (String × Json)} {f : String × Json}, ExactFields fields →
    f ∈ fields → f.2.Exact
  | (key, item) :: fields, f, h, hf => by
    rw [ExactFields] at h
    rcases List.mem_cons.mp hf with rfl | hf
    · exact h.1
    · exact exact_of_mem h.2 hf

theorem Exact.get? {v w : Json} {key : String} (h : v.Exact) (hw : v.get? key = some w) : w.Exact := by
  cases v with
  | object fields =>
    obtain ⟨f, hf, rfl⟩ := Option.map_eq_some_iff.mp hw
    rw [Exact] at h
    exact exact_of_mem h (List.mem_of_find?_eq_some hf)
  | null => exact absurd hw (by simp [Json.get?])
  | bool b => exact absurd hw (by simp [Json.get?])
  | number n => exact absurd hw (by simp [Json.get?])
  | string s => exact absurd hw (by simp [Json.get?])
  | array items => exact absurd hw (by simp [Json.get?])

theorem exact_of_foldl : ∀ (keys : List String) {current : Option Json} {w : Json},
    (∀ v, current = some v → v.Exact) →
      keys.foldl (fun current key => current.bind fun v => v.get? key) current = some w → w.Exact
  | [], _, w, h, hw => h w hw
  | key :: keys, current, w, h, hw => by
    refine exact_of_foldl keys (fun v hv => ?_) hw
    obtain ⟨u, hu, hget⟩ := Option.bind_eq_some_iff.mp hv
    exact (h u hu).get? hget

theorem Exact.getField {v w : Json} {path : String} (h : v.Exact) (hw : v.getField path = some w) :
    w.Exact := by
  refine exact_of_foldl _ (fun u hu => ?_) hw
  rwa [← Option.some.inj hu]

end Json

/-- SQLite's number is then the double. -/
theorem JsonNumber.Exact.value_toF64 {n : JsonNumber} (h : n.Exact) :
    (SqlNumber.real n.toSql.toF64).value = n.toSql.value := by
  have hinteger : ∀ i : Int64, i.toInt.natAbs ≤ 2 ^ 53 →
      (SqlNumber.real (F64.ofInt i.toInt)).value = (SqlNumber.integer i).value := by
    intro i hi
    have hfinite := (F64.finiteValue_ofInt (natAbs_toInt_lt i)).1
    refine (F64.value_of_finite hfinite).trans ?_
    rw [F64.finiteValue_ofInt_of_le hi]
    rfl
  cases n with
  | posInt n =>
    rw [Exact] at h
    have hlt : n.toNat < 2 ^ 63 := by omega
    rw [toSql, if_pos hlt]
    refine hinteger _ ?_
    rw [Int64.toInt_ofNat_of_lt hlt]
    exact h
  | negInt n => exact hinteger n h
  | float x => rfl

theorem WhereField.holds_congr {n m : SqlNumber} (h : n.value = m.value) (f : WhereField) :
    f.holds (some n) = f.holds (some m) := by
  simp only [holds, SqlNumber.gt, SqlNumber.lt, h]

/-- Then a pushed-down condition is the predicate, whatever its threshold. -/
theorem Json.Exact.holds_eq_matches {T : Type} (lib : QueryLib T) {p : Predicate} {f : WhereField}
    (hp : p.toWhere = some f) {v : Json} (h : v.Exact) :
    f.holds ((v.getField f.path).bind Json.sqlNumber) = p.matches lib v := by
  rw [matches_eq_holds lib hp]
  cases hfield : v.getField f.path with
  | none => rfl
  | some w =>
    have hw := h.getField hfield
    cases w with
    | number n =>
      rw [Exact] at hw
      exact f.holds_congr hw.value_toF64.symm
    | null => rfl
    | bool b => rfl
    | string s => rfl
    | array items => rfl
    | object fields => rfl

/-! ## What tier 2 reads -/

/-- A path SQLite reads as `getField` does. A NUL would end it. -/
def ReadablePath (path : String) : Prop :=
  isSafeJsonFieldPath path = true ∧ Char.ofNat 0 ∉ path.toList

theorem all_of_mapM {α β : Type} {toWhere : α → Option β} {holds : β → Bool} {accepts : α → Bool} :
    ∀ {as : List α} {bs : List β}, as.mapM toWhere = some bs →
      (∀ a b, b ∈ bs → toWhere a = some b → holds b = accepts a) → bs.all holds = as.all accepts
  | [], bs, h, _ => by
    obtain rfl : [] = bs := by simpa using h
    rfl
  | a :: as, bs, h, heq => by
    rw [List.mapM_cons] at h
    obtain ⟨b, hb, hrest⟩ := Option.bind_eq_some_iff.mp h
    obtain ⟨bs', hbs, hcons⟩ := Option.bind_eq_some_iff.mp hrest
    obtain rfl : b :: bs' = bs := Option.some.inj hcons
    rw [List.all_cons, List.all_cons, heq a b List.mem_cons_self hb,
      all_of_mapM hbs fun a b hb => heq a b (List.mem_cons_of_mem _ hb)]

/-! ## Rows stored as JSON -/

section Stored

variable {T : Type}

/-- A row whose payload is stored as the JSON text of its value : it decodes, and SQLite reads out
of the text what is in the value. -/
structure StoredJson (lib : QueryLib T) (src : Sources T) where
  row : JoinedRow
  payload : T
  value : Json
  decodes : src.decode row.1.path ⟨row.2.content, row.2.encoding⟩ = .ok payload
  toValue : lib.toValue payload = .ok value
  number : ∀ path, ReadablePath path →
    lib.jsonNumber row.2.content path = .ok ((value.getField path).bind Json.sqlNumber)
  exact : value.Exact

namespace StoredJson

variable {lib : QueryLib T} {src : Sources T} {q : Query} {e : Engine} {db : Db}
  {filters : PreparedPathFilters} {selectFields : List String} {whereFields : List WhereField}

/-- The row as tier 3 decodes it. -/
def matched (s : StoredJson lib src) : Matched T :=
  ⟨s.row.1.toCandidate, ⟨s.row.1.path, s.row.1.metadata, s.payload⟩, s.value⟩

/-- The predicates match the value. -/
def selected (q : Query) (s : StoredJson lib src) : Bool :=
  q.predicates.all fun p => p.matches lib s.value

/-- The rows that match, in the order of the query. -/
def result (q : Query) (stored : List (StoredJson lib src)) : List (StoredJson lib src) :=
  sortByKeys (fun key a b => cmpMatched key a.matched b.matched) q.orderBy (stored.filter (selected q))

theorem numberAt_eq (s : StoredJson lib src) {path : String} (h : ReadablePath path) :
    numberAt lib s.row.2.content path = (s.value.getField path).bind Json.sqlNumber := by
  rw [numberAt, s.number path h]

theorem passes_eq (hpushed : Pushed q selectFields whereFields)
    (hread : ∀ path ∈ Sql.distinctFields selectFields whereFields, ReadablePath path)
    (s : StoredJson lib src) :
    s.row.passes lib whereFields = s.selected q := by
  refine all_of_mapM hpushed.predicates fun p f hf hp => ?_
  rw [s.numberAt_eq (hread f.path (mem_distinctFields hf))]
  exact s.exact.holds_eq_matches lib hp

/-- The comparison of the columns is that of the values. -/
theorem cmpCandidate_eq (hpushed : Pushed q selectFields whereFields)
    (hread : ∀ path ∈ Sql.distinctFields selectFields whereFields, ReadablePath path)
    {key : OrderBy} (hkey : key ∈ q.orderBy) (a b : StoredJson lib src) :
    cmpCandidate selectFields key (a.row.withFields lib selectFields) (b.row.withFields lib selectFields) =
      cmpMatched key a.matched b.matched := by
  cases key with
  | field path order =>
    have hmem := hpushed.selected path order hkey
    have hreadable := hread path (mem_distinctFields_iff.mpr (.inl hmem))
    have hcolumn : ∀ s : StoredJson lib src,
        ((s.row.withFields lib selectFields).2[selectFields.idxOf path]?).join =
          (s.value.getField path).bind Json.asF64 := by
      intro s
      rw [JoinedRow.withFields, List.getElem?_map, List.getElem?_idxOf hmem, Option.map_some,
        Option.join_some, s.numberAt_eq hreadable]
      cases s.value.getField path with
      | none => rfl
      | some v => exact v.asF64_eq.symm
    unfold cmpCandidate cmpMatched
    simp only
    rw [hcolumn a, hcolumn b]
    rfl
  | mtime order => rfl
  | lastAccessed order => rfl
  | path order => rfl

/-- Tier 2 walks the result. -/
theorem tier2Order_map_row (hpushed : Pushed q selectFields whereFields)
    (hread : ∀ path ∈ Sql.distinctFields selectFields whereFields, ReadablePath path)
    (stored : List (StoredJson lib src)) :
    tier2Order lib q selectFields whereFields (stored.map StoredJson.row) =
      (result q stored).map fun s => s.row.1.toCandidate := by
  have hfilter : (stored.map StoredJson.row).filter (JoinedRow.passes lib whereFields) =
      (stored.filter (selected q)).map StoredJson.row := by
    rw [List.filter_map]
    exact congrArg _ (List.filter_congr fun s _ => s.passes_eq hpushed hread)
  have hsort : sortByKeys (cmpCandidate selectFields) q.orderBy
      ((stored.filter (selected q)).map fun s => s.row.withFields lib selectFields) =
        (result q stored).map fun s => s.row.withFields lib selectFields :=
    sortByKeys_map (fun key hkey a b => cmpCandidate_eq hpushed hread hkey a b) _
  rw [tier2Order, hfilter, List.map_map]
  exact (congrArg (List.map Prod.fst) hsort).trans List.map_map

/-- The page of tier 2. -/
theorem filled_tier2Page (hpushed : Pushed q selectFields whereFields)
    (hread : ∀ path ∈ Sql.distinctFields selectFields whereFields, ReadablePath path)
    {stored : List (StoredJson lib src)}
    (hstored : Sql.joinedRows lib e.ns filters db = stored.map StoredJson.row) :
    let page : Filling T := tier2Page lib q selectFields whereFields (Sql.joinedRows lib e.ns filters db)
    let filled := if page.full q.limit then page
      else fillWindow src q.limit db.payloads page.rest page
    filled.entries = (paged q.offset q.limit (result q stored)).map (fun s => s.matched.entry) ∧
      filled.skipped = [] := by
  intro page filled
  have hrest : page.rest = (result q stored).map fun s => s.row.1.toCandidate := by
    show tier2Order lib q selectFields whereFields _ = _
    rw [hstored, tier2Order_map_row hpushed hread]
  have hdecodes : ∀ s ∈ result q stored,
      entryOf src db.payloads s.row.1.toCandidate = some s.matched.entry ∧
        skipOf src db.payloads s.row.1.toCandidate = none := by
    intro s hs
    have hmem : s ∈ stored := List.mem_of_mem_filter ((List.perm_insertionSort _ _).mem_iff.mp hs)
    have hrow : s.row ∈ Sql.joinedRows lib e.ns filters db := hstored ▸ List.mem_map_of_mem hmem
    have hfound : db.payloads.find? (fun p => p.fileId = s.row.1.toCandidate.id) = some s.row.2 :=
      (mem_joinedRows hrow).2
    have hdecode : src.decode s.row.1.toCandidate.path ⟨s.row.2.content, s.row.2.encoding⟩ =
        .ok s.payload := s.decodes
    unfold entryOf skipOf
    simp only [hfound, hdecode]
    exact ⟨rfl, trivial⟩
  have hentries : page.rest.filterMap (entryOf src db.payloads) =
      (result q stored).map fun s => s.matched.entry := by
    rw [hrest, List.filterMap_map, ← List.filterMap_eq_map]
    exact List.filterMap_congr fun s hs => (hdecodes s hs).1
  by_cases hfull : page.full q.limit
  · rw [show filled = page from if_pos hfull]
    refine ⟨?_, rfl⟩
    cases hlimit : q.limit with
    | none =>
      rw [hlimit] at hfull
      exact absurd hfull not_full_none
    | some n =>
      rw [hlimit] at hfull
      obtain rfl : n = 0 := Nat.le_zero.mp hfull
      rfl
  · rw [show filled = fillWindow src q.limit db.payloads page.rest page from if_neg hfull]
    refine ⟨?_, ?_⟩
    · rw [entries_fillWindow_eq_paged rfl hfull, hentries, ← paged_map]
      rfl
    · have h := handles_fillWindow src db.payloads page.rest hfull
      rw [h.skipped]
      show [] ++ _ = []
      rw [List.nil_append, List.filterMap_eq_nil_iff]
      intro c hc
      have hc := h.isPrefix.subset hc
      rw [hrest] at hc
      obtain ⟨s, hs, rfl⟩ := List.mem_map.mp hc
      exact (hdecodes s hs).2

/-- What tier 3 decodes. -/
theorem filterMap_decodeCandidate_eq (hneeds : q.needsJson = true) {stored : List (StoredJson lib src)}
    (hstored : Sql.joinedRows lib e.ns filters db = stored.map StoredJson.row) :
    (Sql.queryCandidatesWithPayloads lib e.ns filters db).filterMap (decodeCandidate lib src q) =
      stored.map fun s => .inr s.matched := by
  rw [filterMap_decodeCandidate, hstored, List.filterMap_map, ← List.filterMap_eq_map]
  refine List.filterMap_congr fun s _ => ?_
  have hdecode : src.decode s.row.1.toCandidate.path ⟨s.row.2.content, s.row.2.encoding⟩ =
      .ok s.payload := s.decodes
  rw [Function.comp_apply, decodeCandidate]
  simp only [hdecode, hneeds, if_true, s.toValue]
  rfl

end StoredJson

end Stored

/-! ## The plans side by side -/

section Plans

variable {T : Type} (lib : QueryLib T) (src : Sources T) (e : Engine) (q : Query) (ws : ℕ → World)
  (fuel : ℕ) (filters : PreparedPathFilters) (db : Db)

/-- Tier 3 with the pages of a paginator. -/
def tier3With (page : List (Matched T) → Option (List (Matched T)))
    (rows : List (CandidateRow × Option PayloadRow)) : Option (QueryReport T) :=
  let decoded := rows.filterMap (decodeCandidate lib src q)
  let matched := (decoded.filterMap Sum.getRight?).filter fun m =>
    q.predicates.all fun p => p.matches lib m.value
  (page (sortByKeys cmpMatched q.orderBy matched)).map fun entries =>
    ⟨entries.map Matched.entry, decoded.filterMap Sum.getLeft?⟩

/-- Tier 3 where an overflow panics. -/
def tier3Checked (rows : List (CandidateRow × Option PayloadRow)) : Option (QueryReport T) :=
  tier3With lib src q (pageChecked q) rows

/-- The query, which runs tier 2, returns what tier 3 returns on the same rows. -/
def TiersAgree : Prop :=
  ∃ report, runReport lib src e q ws fuel db = some (.ok report) ∧
    tier3Checked lib src q (Sql.queryCandidatesWithPayloads lib e.ns filters db) = some report

variable {lib src e q ws fuel filters db} {selectFields : List String} {whereFields : List WhereField}
  {stored : List (StoredJson lib src)}

theorem tier3With_stored (hneeds : q.needsJson = true)
    (hstored : Sql.joinedRows lib e.ns filters db = stored.map StoredJson.row)
    (page : List (Matched T) → Option (List (Matched T))) :
    tier3With lib src q page (Sql.queryCandidatesWithPayloads lib e.ns filters db) =
      (page ((StoredJson.result q stored).map StoredJson.matched)).map fun entries =>
        ⟨entries.map Matched.entry, []⟩ := by
  have hright : (stored.map fun s => (Sum.inr s.matched : SkippedEntry ⊕ Matched T)).filterMap
      Sum.getRight? = stored.map StoredJson.matched := by
    rw [List.filterMap_map, ← List.filterMap_eq_map]
    rfl
  have hleft : (stored.map fun s => (Sum.inr s.matched : SkippedEntry ⊕ Matched T)).filterMap
      Sum.getLeft? = [] := by
    rw [List.filterMap_map, List.filterMap_eq_nil_iff]
    exact fun s _ => rfl
  have hsort : sortByKeys cmpMatched q.orderBy ((stored.map StoredJson.matched).filter fun m =>
      q.predicates.all fun p => p.matches lib m.value) =
        (StoredJson.result q stored).map StoredJson.matched := by
    rw [List.filter_map]
    exact sortByKeys_map (fun _ _ _ _ => rfl) _
  unfold tier3With
  simp only [StoredJson.filterMap_decodeCandidate_eq hneeds hstored, hright, hleft, hsort]

/-- Tier 2 returns the page of the result. -/
theorem runReport_stored (hkey : e.encryptionKey = none)
    (hplan : classifyQuery q = .tier2 selectFields whereFields)
    (hnul : ∀ path ∈ Sql.distinctFields selectFields whereFields, Char.ofNat 0 ∉ path.toList)
    (hjson : Sql.namespaceAllJson e.ns db = true)
    (hfilters : preparePathFilters lib src q = .ok filters) (hfault : ∀ n k, (ws n).fault k = none)
    (hfuel : db.files.length + 2 ≤ fuel)
    (hstored : Sql.joinedRows lib e.ns filters db = stored.map StoredJson.row) :
    runReport lib src e q ws fuel db = some (.ok
      ⟨(paged q.offset q.limit (StoredJson.result q stored)).map fun s => s.matched.entry, []⟩) := by
  have hpushed := pushed_of_classifyQuery hplan
  have hread : ∀ path ∈ Sql.distinctFields selectFields whereFields, ReadablePath path :=
    fun path hpath => ⟨hpushed.safe path hpath, hnul path hpath⟩
  have hplanOf : planOf e q db = .tier2 selectFields whereFields := by
    rw [planOf, hplan]
    simp only [hkey, hjson, Option.isSome_none, Bool.false_eq_true, if_false, if_true]
  obtain ⟨n, hn, hrun⟩ := runReport_planOf (e := e) hfilters hfault hfuel
  have hreads : ∀ row ∈ Sql.joinedRows lib e.ns filters db, row.Read lib selectFields whereFields := by
    intro row hrow
    refine readsRow_of_all fun field hfield => ?_
    rw [hstored] at hrow
    obtain ⟨s, -, rfl⟩ := List.mem_map.mp hrow
    exact ⟨_, s.number field (hread field hfield)⟩
  rw [hrun, hplanOf, runPhase_tier2_of_ok hfault hreads hn]
  obtain ⟨hentries, hskipped⟩ := StoredJson.filled_tier2Page (e := e) hpushed hread hstored
  rw [hentries, hskipped]

/-- Over rows stored as JSON a query that tier 2 runs returns what tier 3 returns, where tier 3 wraps
around. Where tier 3 checks for overflow, it does exactly if the limit can be added to the offset, cut
to the number of rows that match. -/
theorem tiersAgree_iff (hkey : e.encryptionKey = none)
    (hplan : classifyQuery q = .tier2 selectFields whereFields)
    (hnul : ∀ path ∈ Sql.distinctFields selectFields whereFields, Char.ofNat 0 ∉ path.toList)
    (hjson : Sql.namespaceAllJson e.ns db = true)
    (hfilters : preparePathFilters lib src q = .ok filters) (hfault : ∀ n k, (ws n).fault k = none)
    (hfuel : db.files.length + 2 ≤ fuel)
    (hstored : Sql.joinedRows lib e.ns filters db = stored.map StoredJson.row)
    (hlimit : ∀ n, q.limit = some n → n < usizeLimit) (hlen : db.files.length < 2 ^ 63) :
    runReport lib src e q ws fuel db =
        some (.ok (tier3Report lib src q (Sql.queryCandidatesWithPayloads lib e.ns filters db))) ∧
      (TiersAgree lib src e q ws fuel filters db ↔ ∀ n, q.limit = some n →
        min q.offset (stored.filter (StoredJson.selected q)).length + n < usizeLimit) := by
  have hneeds := (pushed_of_classifyQuery hplan).needsJson
  have hrun := runReport_stored hkey hplan hnul hjson hfilters hfault hfuel hstored
  have hlength : ((StoredJson.result q stored).map StoredJson.matched).length =
      (stored.filter (StoredJson.selected q)).length := by
    rw [List.length_map, StoredJson.result, sortByKeys, List.length_insertionSort]
  have hentries : (paged q.offset q.limit ((StoredJson.result q stored).map StoredJson.matched)).map
      Matched.entry = (paged q.offset q.limit (StoredJson.result q stored)).map fun s =>
        s.matched.entry := by
    rw [paged_map, List.map_map]
    rfl
  constructor
  · have hrows : stored.length ≤ db.files.length := by
      rw [← List.length_map (f := StoredJson.row), ← hstored]
      exact length_joinedRows_le
    have hpage : pageOf q ((StoredJson.result q stored).map StoredJson.matched) =
        paged q.offset q.limit ((StoredJson.result q stored).map StoredJson.matched) := by
      refine pageOf_eq_paged hlimit ?_
      rw [hlength]
      exact ((List.length_filter_le _ _).trans hrows).trans_lt hlen
    have htier3 : some (tier3Report lib src q (Sql.queryCandidatesWithPayloads lib e.ns filters db)) =
        _ := tier3With_stored hneeds hstored fun l => some (pageOf q l)
    rw [Option.map_some, hpage, hentries] at htier3
    rw [hrun, Option.some.inj htier3]
  · have hchecked : tier3With lib src q (pageChecked q)
        (Sql.queryCandidatesWithPayloads lib e.ns filters db) = _ := tier3With_stored hneeds hstored _
    constructor
    · rintro ⟨report, -, htier3⟩ n hn
      by_contra hover
      rw [tier3Checked, hchecked, pageChecked_of_le hn (by rw [hlength]; exact not_lt.mp hover)] at htier3
      exact absurd htier3 (by simp)
    · intro hfits
      refine ⟨_, hrun, ?_⟩
      rw [tier3Checked, hchecked, pageChecked_of_lt (by rw [hlength]; exact hfits), Option.map_some,
        hentries]

end Plans

/-! ## Two entries, the greater first -/

section Samples

/-- The text of an object with the digit `d` at `a`. -/
def digitText (d : UInt8) : List UInt8 := [123, 34, 97, 34, 58, d, 125]

/-- The value of a text, of the two here. -/
def digitValue (content : List UInt8) : Option Json :=
  if content = digitText 49 then some (.object [("a", .number (.posInt 1))])
  else if content = digitText 50 then some (.object [("a", .number (.posInt 2))])
  else none

def digitLib : QueryLib Json where
  like _ _ := true
  glob _ _ := true
  compileGlob _ := .ok []
  jsonNumber content path :=
    match digitValue content with
    | some value => .ok ((value.getField path).bind Json.sqlNumber)
    | none => .error (.other "malformed JSON")
  toValue := .ok
  toText _ := .ok ""

def digitSources : Sources Json :=
  { Sources.quiet with
    encode := fun _ _ => .ok ⟨[], "json"⟩
    decode := fun path encoded =>
      match digitValue encoded.bytes with
      | some value => .ok value
      | none => .error (.serialization path) }

def digitDb : Db :=
  ⟨[⟨1, "n", "/a", ⟨0, 0, none⟩, 0, 0, 0⟩, ⟨2, "n", "/b", ⟨0, 0, none⟩, 0, 0, 0⟩],
    [⟨1, digitText 49, "json"⟩, ⟨2, digitText 50, "json"⟩], 2⟩

def digitRows : List (StoredJson digitLib digitSources) :=
  [⟨(⟨1, "n", "/a", ⟨0, 0, none⟩, 0, 0, 0⟩, ⟨1, digitText 49, "json"⟩),
      .object [("a", .number (.posInt 1))], .object [("a", .number (.posInt 1))], rfl, rfl,
      fun _ _ => rfl, show (1 : UInt64).toNat ≤ 2 ^ 53 ∧ True by decide⟩,
    ⟨(⟨2, "n", "/b", ⟨0, 0, none⟩, 0, 0, 0⟩, ⟨2, digitText 50, "json"⟩),
      .object [("a", .number (.posInt 2))], .object [("a", .number (.posInt 2))], rfl, rfl,
      fun _ _ => rfl, show (2 : UInt64).toNat ≤ 2 ^ 53 ∧ True by decide⟩]

/-- Those with an `a` above 0, the greatest first, without the first. -/
def afterGreatest (limit : ℕ) : Query := ⟨[.fieldGt "a" ⟨0⟩], some limit, 1, none, none, none,
  [.field "a" .desc]⟩

theorem joinedRows_digitDb :
    Sql.joinedRows digitLib "n" ⟨none, none, none⟩ digitDb = digitRows.map StoredJson.row := by
  decide +kernel

theorem tiersAgree_iff_sample :
    TiersAgree digitLib digitSources (.plain "n" none) (afterGreatest 1) (fun _ => .quiet) 4
      ⟨none, none, none⟩ digitDb := by
  have hplan : classifyQuery (afterGreatest 1) = .tier2 ["a"] [⟨"a", true, ⟨0⟩⟩] := by decide
  have hjson : Sql.namespaceAllJson "n" digitDb = true := by decide
  refine (tiersAgree_iff rfl hplan (by decide) hjson rfl (fun _ _ => rfl) (by decide) joinedRows_digitDb
    ?_ (by decide)).2.mpr ?_
  · intro n hn
    obtain rfl := Option.some.inj hn
    decide
  · intro n hn
    obtain rfl := Option.some.inj hn
    decide +kernel

/-- With a limit of `usize::MAX` tier 2 returns the entry left, and tier 3 overflows. -/
theorem afterGreatest_overflows :
    Sql.joinedRows digitLib "n" ⟨none, none, none⟩ digitDb = digitRows.map StoredJson.row ∧
      (runReport digitLib digitSources (.plain "n" none) (afterGreatest (2 ^ 64 - 1)) (fun _ => .quiet) 4
        digitDb).map (fun result => result.map fun report => report.entries.map CacheEntry.path) =
          some (.ok ["/a"]) ∧
      (tier3Checked digitLib digitSources (afterGreatest (2 ^ 64 - 1))
        (Sql.queryCandidatesWithPayloads digitLib "n" ⟨none, none, none⟩ digitDb)).isNone = true ∧
      ¬TiersAgree digitLib digitSources (.plain "n" none) (afterGreatest (2 ^ 64 - 1)) (fun _ => .quiet) 4
        ⟨none, none, none⟩ digitDb := by
  have hnone : (tier3Checked digitLib digitSources (afterGreatest (2 ^ 64 - 1))
      (Sql.queryCandidatesWithPayloads digitLib "n" ⟨none, none, none⟩ digitDb)).isNone = true := by
    decide +kernel
  refine ⟨joinedRows_digitDb, by decide +kernel, hnone, ?_⟩
  rintro ⟨report, -, htier3⟩
  rw [show Sql.queryCandidatesWithPayloads digitLib (Engine.plain "n" none).ns ⟨none, none, none⟩ digitDb =
    Sql.queryCandidatesWithPayloads digitLib "n" ⟨none, none, none⟩ digitDb from rfl] at htier3
  rw [htier3] at hnone
  exact absurd hnone (by simp)

end Samples

end LocalCache
