import Mathlib.Data.List.Infix
import LocalCache.Json
import LocalCache.Engine

/-!
# Queries

A query filters the entries of a namespace by path and by fields of their JSON payloads,
sorts them, and returns a page. `classifyQuery` picks one of three plans. Tier 1 needs no
payload to filter or sort, tier 2 has SQLite read the fields out of the stored text, and tier
3 decodes every candidate. Tiers 1 and 2 then decode payloads only while they fill the page
(`fillWindow`).

A query is several autocommit statements, so it is given in the parts between which other
engines may write : `QueryPhase` is a query in progress and `QueryPhase.step` its next
statement. `runReport` runs one to its end with nothing in between.

SQLite's LIKE, GLOB and JSON functions, the glob compiler and the JSON form of a payload
enter as the parameter `QueryLib`.
-/

namespace LocalCache

/-! ## The builder -/

inductive SortOrder
  | asc
  | desc
  deriving DecidableEq, Repr

/-- One sort key with its direction. -/
inductive OrderBy
  | field (path : String) (order : SortOrder)
  | mtime (order : SortOrder)
  | lastAccessed (order : SortOrder)
  | path (order : SortOrder)
  deriving DecidableEq, Repr

/-- A condition on the JSON payload. -/
inductive Predicate
  | fieldEq (path : String) (value : Json)
  | fieldGt (path : String) (threshold : F64)
  | fieldLt (path : String) (threshold : F64)
  | fieldContains (path substring : String)
  | payloadContains (needle : String)

/-- `QueryBuilder`. -/
structure Query where
  predicates : List Predicate
  limit : Option ℕ
  offset : ℕ
  pathLike : Option String
  pathInDir : Option (Path × Bool)
  pathGlob : Option String
  orderBy : List OrderBy

/-- What a query uses from outside. -/
structure QueryLib (T : Type) where
  /-- `path LIKE ? ESCAPE '\'`, the pattern first. -/
  like : String → String → Bool
  /-- `path GLOB ?`, the pattern first. -/
  glob : String → String → Bool
  /-- The alternatives of a glob for SQLite. -/
  compileGlob : String → Except Error (List String)
  /-- The number at a JSON path of a stored text, NULL for anything else; an error on text that
  is not JSON. -/
  jsonNumber : List UInt8 → String → Except SqlError (Option SqlNumber)
  /-- `serde_json::to_value`. -/
  toValue : T → Except String Json
  /-- `serde_json::to_string`. -/
  toText : Json → Except String String

/-! ## Path filters -/

structure PreparedPathFilters where
  pathLike : Option String
  pathInDir : Option (String × Bool)
  pathGlob : Option (List String)
  deriving DecidableEq, Repr

/-- The exclusive upper bound of the texts that start with `pre` : its last character
replaced by the next code point. -/
def rangeUpperBound (pre : String) : String :=
  match pre.toList.getLast? with
  | none => pre
  | some last =>
    let next := if h : Nat.isValidChar (last.toNat + 1) then Char.ofNatAux (last.toNat + 1) h
      else Char.ofNat 0x10ffff
    String.ofList (pre.toList.dropLast ++ [next])

section Filters

variable {T : Type} (lib : QueryLib T)

/-- The directory of a filter, canonical if it exists, with its separator. -/
def prepareDir (src : Sources T) (dir : Path) : Except Error String := do
  let resolved ← match src.normalizePath dir with
    | .ok canonical => .ok canonical
    | .error (.fileNotFound _) => .ok dir
    | .error err => .error err
  let pre ← pathToStr resolved
  return if pre.toList.getLast? = some '/' then pre else pre ++ "/"

def preparePathFilters (src : Sources T) (q : Query) : Except Error PreparedPathFilters := do
  let pathInDir ← match q.pathInDir with
    | none => .ok none
    | some (dir, recursive) => do
      let pre ← prepareDir src dir
      pure (some (pre, recursive))
  let pathGlob ← match q.pathGlob with
    | none => .ok none
    | some pattern => (lib.compileGlob pattern).map some
  return ⟨q.pathLike, pathInDir, pathGlob⟩

/-- `path_filter_clauses`, for a path. -/
def PreparedPathFilters.matches (filters : PreparedPathFilters) (path : String) : Bool :=
  (match filters.pathLike with
    | none => true
    | some pattern => lib.like pattern path) &&
  (match filters.pathInDir with
    | none => true
    | some (pre, recursive) =>
      decide (textKey pre ≤ textKey path ∧ textKey path < textKey (rangeUpperBound pre)) &&
        (recursive || !(path.toList.drop pre.toList.length).contains '/')) &&
  (match filters.pathGlob with
    | none => true
    | some globs => globs.isEmpty || globs.any fun pattern => lib.glob pattern path)

/-! ## Predicates and sort keys -/

def Predicate.matches (value : Json) : Predicate → Bool
  | .fieldEq path expected => ((value.getField path).map fun v => v.eq expected).getD false
  | .fieldGt path threshold =>
    (((value.getField path).bind Json.asF64).map fun n =>
      decide (n.partialCmp threshold = some .gt)).getD false
  | .fieldLt path threshold =>
    (((value.getField path).bind Json.asF64).map fun n =>
      decide (n.partialCmp threshold = some .lt)).getD false
  | .fieldContains path substring =>
    (((value.getField path).bind Json.asStr).map fun s =>
      decide (substring.toList <:+: s.toList)).getD false
  | .payloadContains needle =>
    match lib.toText value with
    | .ok text => decide (needle.toList <:+: text.toList)
    | .error _ => false

end Filters

/-- `Path::cmp` compares the components of paths : the root, `.` at the start, `..`, and names
by their bytes. -/
def pathComponents (path : String) : List (ℕ ×ₗ List ℕ) :=
  let parts := splitText '/' path
  let component (first : Bool) (part : String) : Option (ℕ ×ₗ List ℕ) :=
    if part = "" then none
    else if part = "." then (if first then some (toLex (2, [])) else none)
    else if part = ".." then some (toLex (3, []))
    else some (toLex (4, textKey part))
  match parts with
  | [] => []
  | first :: rest =>
    (if first = "" ∧ rest ≠ [] then [toLex (1, [])] else (component true first).toList) ++
      rest.filterMap (component false)

def pathCmp (a b : String) : Ordering :=
  compareOfLessAndEq (pathComponents a) (pathComponents b)

/-- A comparison in a direction. -/
def ordDir (c : Ordering) (order : SortOrder) : Ordering :=
  if order = .desc then c.swap else c

/-- `Option<f64>::partial_cmp`, with what does not compare taken as equal. -/
def cmpNumber : Option F64 → Option F64 → Ordering
  | none, none => .eq
  | none, some _ => .lt
  | some _, none => .gt
  | some a, some b => (a.partialCmp b).getD .eq

/-- The first comparison of a list that decides. -/
def cmpKeys {α : Type} (cmp : OrderBy → α → α → Ordering) (keys : List OrderBy) (a b : α) :
    Ordering :=
  keys.foldr (fun key rest => if cmp key a b = .eq then rest else cmp key a b) .eq

/-- `sort_by`, which is stable; without keys the order stays. -/
def sortByKeys {α : Type} (cmp : OrderBy → α → α → Ordering) (keys : List OrderBy)
    (l : List α) : List α :=
  l.insertionSort fun a b => cmpKeys cmp keys a b ≠ .gt

/-! ## Candidates -/

/-- A row that passes the path filters, without its payload. -/
structure CandidateRow where
  id : ℕ
  path : String
  metadata : FileMetadata
  lastAccessedAt : ℤ
  deriving DecidableEq, Repr

/-- `last_used_us / 1000000` of SQLite's integers. -/
def FileRow.toCandidate (r : FileRow) : CandidateRow :=
  ⟨r.id, r.path, r.metadata, r.lastUsedUs.tdiv 1000000⟩

/-- The keys of a candidate, with the fields SQLite extracted. -/
def cmpCandidate (fields : List String) (key : OrderBy)
    (a b : CandidateRow × List (Option F64)) : Ordering :=
  match key with
  | .field path order =>
    ordDir (cmpNumber ((a.2[fields.idxOf path]?).join) ((b.2[fields.idxOf path]?).join)) order
  | .mtime order => ordDir (compareOfLessAndEq a.1.metadata.mtime b.1.metadata.mtime) order
  | .lastAccessed order => ordDir (compareOfLessAndEq a.1.lastAccessedAt b.1.lastAccessedAt) order
  | .path order => ordDir (pathCmp a.1.path b.1.path) order

/-- A condition pushed into SQL. -/
structure WhereField where
  path : String
  greater : Bool
  threshold : F64
  deriving DecidableEq, Repr

def WhereField.holds (f : WhereField) (n : Option SqlNumber) : Bool :=
  match n with
  | none => false
  | some n => if f.greater then n.gt f.threshold else n.lt f.threshold

namespace Sql

variable {T : Type} (lib : QueryLib T) (ns : String) (filters : PreparedPathFilters)

/-- The rows that pass the path filters, in path order. -/
def filteredRows (db : Db) : List FileRow :=
  sortBy (fun r => textKey r.path)
    ((db.inNamespace ns).filter fun r => filters.matches lib r.path)

/-- `query_candidates`. -/
def queryCandidates (db : Db) : List CandidateRow :=
  (filteredRows lib ns filters db).map FileRow.toCandidate

/-- `query_candidates_with_payloads` : every row, with its payload if it has one. -/
def queryCandidatesWithPayloads (db : Db) : List (CandidateRow × Option PayloadRow) :=
  (filteredRows lib ns filters db).map fun r =>
    (r.toCandidate, db.payloads.find? fun p => p.fileId = r.id)

/-- The distinct fields of a pushdown, those selected first. -/
def distinctFields (selectFields : List String) (whereFields : List WhereField) : List String :=
  whereFields.foldl (fun fields f => if f.path ∈ fields then fields else fields ++ [f.path])
    selectFields

/-- The numbers of a payload's fields. -/
def extractFields (fields : List String) (p : PayloadRow) :
    Except SqlError (List (Option SqlNumber)) :=
  fields.mapM fun field => lib.jsonNumber p.content field

/-- Whether a payload passes the outer conditions. SQLite reads a field when it comes to its
condition, and goes no further than one that does not hold. -/
def outerWhere (p : PayloadRow) : List WhereField → Except SqlError Bool
  | [] => .ok true
  | f :: rest => do
    let number ← lib.jsonNumber p.content f.path
    if f.holds number then outerWhere p rest else return false

/-- A row that passes, with the selected fields, which are the first of the distinct ones. -/
def pushdownRow (selectFields : List String) (whereFields : List WhereField)
    (row : FileRow × PayloadRow) : Except SqlError (Option (CandidateRow × List (Option F64))) := do
  let fields := distinctFields selectFields whereFields
  if ← outerWhere lib row.2 whereFields then
    let numbers ← extractFields lib (fields.take selectFields.length) row.2
    return some (row.1.toCandidate, numbers.map (Option.map SqlNumber.toF64))
  else return none

/-- `query_candidates_json_pushdown` : the rows with a payload for which the conditions hold,
with their selected fields. -/
def queryCandidatesJsonPushdown (selectFields : List String) (whereFields : List WhereField)
    (db : Db) : Except SqlError (List (CandidateRow × List (Option F64))) := do
  let joined := (filteredRows lib ns filters db).filterMap fun r =>
    (db.payloads.find? fun p => p.fileId = r.id).map fun p => (r, p)
  let selected ← joined.mapM (pushdownRow lib selectFields whereFields)
  return selected.filterMap id

/-- `payloads_for_ids`. -/
def payloadsForIds (ids : List ℕ) (db : Db) : List PayloadRow :=
  db.payloads.filter fun p => p.fileId ∈ ids

/-- `namespace_all_json`. -/
def namespaceAllJson (ns : String) (db : Db) : Bool :=
  !db.payloads.any fun p =>
    (db.files.any fun r => r.id = p.fileId && r.ns = ns) && p.encoding ≠ "json"

end Sql

/-! ## The plan -/

inductive QueryPlan
  | tier1
  | tier2 (selectFields : List String) (whereFields : List WhereField)
  | tier3
  deriving DecidableEq, Repr

/-- A field path that SQLite's JSON paths read as `getField` does. -/
def isSafeJsonFieldPath (path : String) : Bool :=
  path ≠ "" && (splitText '.' path).all fun segment =>
    segment ≠ "" && !segment.toList.any fun c => c = '\'' || c = '"' || c = '[' || c = ']' || c = '$'

/-- The condition of a predicate that can be pushed into SQL. -/
def Predicate.toWhere : Predicate → Option WhereField
  | .fieldGt path threshold => some ⟨path, true, threshold⟩
  | .fieldLt path threshold => some ⟨path, false, threshold⟩
  | _ => none

def OrderBy.field? : OrderBy → Option String
  | .field name _ => some name
  | _ => none

def classifyQuery (q : Query) : QueryPlan :=
  let sortFields := q.orderBy.filterMap OrderBy.field?
  if q.predicates.isEmpty && sortFields.isEmpty then .tier1
  else
    match q.predicates.mapM Predicate.toWhere with
    | none => .tier3
    | some whereFields =>
      if (sortFields ++ whereFields.map WhereField.path).all isSafeJsonFieldPath then
        .tier2 (sortFields.foldl (fun fields f => if f ∈ fields then fields else fields ++ [f]) [])
          whereFields
      else .tier3

/-! ## Reports -/

/-- An entry a query could not decode. -/
structure SkippedEntry where
  path : String
  error : Error
  deriving DecidableEq

structure QueryReport (T : Type) where
  entries : List (CacheEntry T)
  skipped : List SkippedEntry

section Run

variable {T : Type} (lib : QueryLib T) (src : Sources T)

/-! ## Tier 3 -/

/-- A candidate tier 3 decoded, with its JSON form. -/
structure Matched (T : Type) where
  row : CandidateRow
  entry : CacheEntry T
  value : Json

def cmpMatched (key : OrderBy) (a b : Matched T) : Ordering :=
  match key with
  | .field path order =>
    ordDir (cmpNumber ((a.value.getField path).bind Json.asF64)
      ((b.value.getField path).bind Json.asF64)) order
  | .mtime order =>
    ordDir (compareOfLessAndEq a.entry.metadata.mtime b.entry.metadata.mtime) order
  | .lastAccessed order =>
    ordDir (compareOfLessAndEq a.row.lastAccessedAt b.row.lastAccessedAt) order
  | .path order => ordDir (pathCmp a.entry.path b.entry.path) order

/-- Whether tier 3 needs the JSON form of the payloads. -/
def Query.needsJson (q : Query) : Bool :=
  !q.predicates.isEmpty || q.orderBy.any fun key => (OrderBy.field? key).isSome

/-- One candidate of tier 3 : nothing for a missing payload, else its entry or why not. -/
def decodeCandidate (q : Query) (row : CandidateRow × Option PayloadRow) :
    Option (SkippedEntry ⊕ Matched T) :=
  match row.2 with
  | none => none
  | some p => some <|
    match src.decode row.1.path ⟨p.content, p.encoding⟩ with
    | .error err => .inl ⟨row.1.path, err⟩
    | .ok payload =>
      if q.needsJson then
        match lib.toValue payload with
        | .error text => .inl ⟨row.1.path, .serialization text⟩
        | .ok value => .inr ⟨row.1, ⟨row.1.path, row.1.metadata, payload⟩, value⟩
      else .inr ⟨row.1, ⟨row.1.path, row.1.metadata, payload⟩, .null⟩

/-- `offset` and `limit` of tier 3, in wrapping `usize` arithmetic. -/
def pageOf {α : Type} (q : Query) (l : List α) : List α :=
  let start := min q.offset l.length
  let stop := match q.limit with
    | none => l.length
    | some n => min ((start + n) % 2 ^ 64) l.length
  (l.drop start).take ((stop + 2 ^ 64 - start) % 2 ^ 64)

/-- The report of tier 3 over the candidates read. -/
def tier3Report (q : Query) (rows : List (CandidateRow × Option PayloadRow)) : QueryReport T :=
  let decoded := rows.filterMap (decodeCandidate lib src q)
  let matched := (decoded.filterMap Sum.getRight?).filter fun m =>
    q.predicates.all fun p => p.matches lib m.value
  ⟨(pageOf q (sortByKeys cmpMatched q.orderBy matched)).map Matched.entry,
    decoded.filterMap Sum.getLeft?⟩

/-! ## Filling a page -/

/-- A page being filled : the candidates left in their order, how many entries the offset still
drops, and the report so far. -/
structure Filling (T : Type) where
  rest : List CandidateRow
  toSkip : ℕ
  entries : List (CacheEntry T)
  skipped : List SkippedEntry

/-- The page is full. -/
def Filling.full (limit : Option ℕ) (f : Filling T) : Prop :=
  match limit with
  | none => False
  | some n => n ≤ f.entries.length

instance (limit : Option ℕ) (f : Filling T) : Decidable (f.full limit) := by
  unfold Filling.full
  cases limit <;> infer_instance

/-- How many candidates the next window holds. -/
def Filling.want (limit : Option ℕ) (f : Filling T) : ℕ :=
  match limit with
  | none => f.rest.length
  | some n => min (f.toSkip + (n - f.entries.length)) (2 ^ 64 - 1)

def Filling.window (limit : Option ℕ) (f : Filling T) : List CandidateRow :=
  f.rest.take (min (f.want limit) idListChunk)

/-- One candidate of a window, with the payloads read for it. -/
def fillOne (payloads : List PayloadRow) (c : CandidateRow) (f : Filling T) : Filling T :=
  match payloads.find? fun p => p.fileId = c.id with
  | none => f
  | some p =>
    match src.decode c.path ⟨p.content, p.encoding⟩ with
    | .error err => { f with skipped := f.skipped ++ [⟨c.path, err⟩] }
    | .ok payload =>
      if f.toSkip > 0 then { f with toSkip := f.toSkip - 1 }
      else { f with entries := f.entries ++ [⟨c.path, c.metadata, payload⟩] }

/-- The candidates of a window, until the page is full. -/
def fillWindow (limit : Option ℕ) (payloads : List PayloadRow) :
    List CandidateRow → Filling T → Filling T
  | [], f => f
  | c :: cs, f =>
    let f' := fillOne src payloads c f
    if f'.full limit then f' else fillWindow limit payloads cs f'

/-- One window : the candidates it holds are no longer left. -/
def Filling.fill (limit : Option ℕ) (payloads : List PayloadRow) (f : Filling T) : Filling T :=
  { fillWindow src limit payloads (f.window limit) f with rest := f.rest.drop (f.window limit).length }

/-! ## A query in progress -/

inductive QueryPhase (T : Type)
  /-- Tier 2, before the tags of the namespace are read. -/
  | planning (filters : PreparedPathFilters) (selectFields : List String)
      (whereFields : List WhereField)
  /-- The plan is made, before the candidates are read. -/
  | planned (filters : PreparedPathFilters) (plan : QueryPlan)
  /-- The page is being filled. -/
  | filling (f : Filling T)

variable (e : Engine) (w : World) (q : Query)

/-- The start of a query, which reads no table. A keyed engine never evaluates payloads in
SQL. -/
def QueryPhase.start : Except Error (QueryPhase T) := do
  let filters ← preparePathFilters lib src q
  return match classifyQuery q with
    | .tier2 selectFields whereFields =>
      if e.encryptionKey.isSome then .planned filters .tier3
      else .planning filters selectFields whereFields
    | plan => .planned filters plan

/-- A page that needs no more payloads is the report. -/
def finishFilling (f : Filling T) : QueryPhase T ⊕ QueryReport T :=
  if f.full q.limit ∨ f.rest = [] then .inr ⟨f.entries, f.skipped⟩ else .inl (.filling f)

/-- The candidates in their order, with a page to fill. -/
def startFilling (fields : List String) (rows : List (CandidateRow × List (Option F64))) :
    QueryPhase T ⊕ QueryReport T :=
  finishFilling q ⟨(sortByKeys (cmpCandidate fields) q.orderBy rows).map Prod.fst, q.offset, [], []⟩

/-- The next statement of a query. -/
def QueryPhase.step (phase : QueryPhase T) : TxM (QueryPhase T ⊕ QueryReport T) :=
  match phase with
  | .planning filters selectFields whereFields => do
    let allJson ← select w (Sql.namespaceAllJson e.ns)
    pure (.inl (.planned filters (if allJson then .tier2 selectFields whereFields else .tier3)))
  | .planned filters .tier1 => do
    let rows ← select w (Sql.queryCandidates lib e.ns filters)
    pure (startFilling q [] (rows.map fun row => (row, [])))
  | .planned filters (.tier2 selectFields whereFields) => do
    let rows ← selectOrFail w
      (Sql.queryCandidatesJsonPushdown lib e.ns filters selectFields whereFields)
    pure (startFilling q selectFields rows)
  | .planned filters .tier3 => do
    let rows ← select w (Sql.queryCandidatesWithPayloads lib e.ns filters)
    pure (.inr (tier3Report lib src q rows))
  | .filling f => do
    let payloads ← select w (Sql.payloadsForIds ((f.window q.limit).map CandidateRow.id))
    pure (finishFilling q (f.fill src q.limit payloads))

/-! ## A query with nothing in between -/

/-- The statements of a query from a phase on, each in its own world, or `none` when the fuel
runs out. -/
def runPhase (ws : ℕ → World) (db : Db) : (fuel : ℕ) → QueryPhase T →
    Option (Except Error (QueryReport T))
  | 0, _ => none
  | fuel + 1, phase =>
    match (autocommit (phase.step lib src e (ws fuel) q) db).1 with
    | .error err => some (.error err)
    | .ok (.inr report) => some (.ok report)
    | .ok (.inl phase) => runPhase ws db fuel phase

/-- `run_report`. -/
def runReport (ws : ℕ → World) (fuel : ℕ) (db : Db) : Option (Except Error (QueryReport T)) :=
  match QueryPhase.start lib src e q with
  | .error err => some (.error err)
  | .ok phase => runPhase lib src e q ws db fuel phase

/-- `run` : the report's entries, or the first skipped entry's error. -/
def QueryReport.entriesOrError (report : QueryReport T) : Except Error (List (CacheEntry T)) :=
  match report.skipped with
  | [] => .ok report.entries
  | skipped :: _ => .error skipped.error

def runQuery (ws : ℕ → World) (fuel : ℕ) (db : Db) :
    Option (Except Error (List (CacheEntry T))) :=
  (runReport lib src e q ws fuel db).map fun result => result.bind QueryReport.entriesOrError

end Run

end LocalCache
