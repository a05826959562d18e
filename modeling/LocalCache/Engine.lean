import LocalCache.Repository
import LocalCache.Format

/-!
# The engine's calls

An `Engine` is the configuration one handle works with. `Sources` is the outside it asks :
the file system, the payload codec, Base64. Each call returns an `Outcome` : its result, the
database after it, and the paths it passed to the eviction callback.

`set`, `batchSet` and the two imports end in `boundedWrite`, one transaction of the write and
the eviction it triggers, with the callback after the commit. `get`, `getIfFresh` and `touch`
are several autocommit statements, so each is given in the parts between which other
engines may write.
-/

namespace LocalCache

structure Engine where
  ns : String
  readOnly : Bool
  maxEntries : Option ℕ
  payloadVersion : UInt32
  ttl : Option ℕ
  encryptionKey : Option Key
  deriving DecidableEq

inductive CacheStatus
  | fresh
  | stale
  | missing
  deriving DecidableEq, Repr

/-- What a call asks of the file system and the codecs. -/
structure Sources (T : Type) where
  normalizePath : Path → Except Error Path
  collectMetadata : Path → Except Error FileMetadata
  computeHash : Path → Except Error (Option String)
  detectChange : Path → FileMetadata → Except Error CacheStatus
  encode : String → T → Except Error Encoded
  decode : String → Encoded → Except Error T
  decodeBase64 : String → Except String (List UInt8)

/-- What a call did : its result, the database after it, the paths passed to the eviction
callback, and, as a history variable, the ids of the rows it wrote or used, in order. -/
structure Outcome (α : Type) where
  result : Except Error α
  db : Db
  evicted : List String
  used : List ℕ

/-- A call that ended before its first statement. -/
def Outcome.ofError {α : Type} (e : Error) (db : Db) : Outcome α := ⟨.error e, db, [], []⟩

def Outcome.map {α β : Type} (f : α → β) (o : Outcome α) : Outcome β :=
  ⟨o.result.map f, o.db, o.evicted, o.used⟩

/-! ## Paths -/

/-- A path as text, if it is UTF-8. -/
def pathToStr (path : Path) : Except Error String :=
  match fromUtf8 path with
  | some s => .ok s
  | none => .error (.invalidPath path)

/-- A database identity : an existing source's canonical path, or a missing one's exact
path. -/
structure ResolvedPathKey where
  present : Bool
  path : Path
  key : String

section Calls

variable {T : Type} (e : Engine) (src : Sources T) (w : World)

def resolvePathKey (path : Path) : Except Error ResolvedPathKey :=
  match src.normalizePath path with
  | .ok canonical => (pathToStr canonical).map fun key => ⟨true, canonical, key⟩
  | .error (.fileNotFound _) => (pathToStr path).map fun key => ⟨false, path, key⟩
  | .error err => .error err

/-! ## Writes -/

/-- Evict down to `max_entries`, never a protected row. -/
def enforceMaxEntries (protectedIds : List ℕ) : TxM (List String) :=
  match e.maxEntries with
  | none => pure []
  | some maxEntries => do
    let count ← select w fun db => (db.inNamespace e.ns).length
    if count ≤ maxEntries then pure []
    else evictLru w e.ns (count - maxEntries) protectedIds

/-- A write and the eviction it triggers in one transaction, and the callback after its
commit. -/
def boundedWrite {α : Type} (write : TxM (α × List ℕ)) (db : Db) : Outcome α :=
  let body : TxM ((α × List ℕ) × List String) := do
    let written ← write
    let evicted ← enforceMaxEntries e w written.2
    pure (written, evicted)
  match transaction w body db with
  | (.ok ((a, ids), evicted), db) => ⟨.ok a, db, evicted, ids⟩
  | (.error err, db) => .ofError err db

/-- An entry ready to be stored. -/
structure Prepared where
  path : String
  metadata : FileMetadata
  payload : Encoded

/-- The key, the metadata and the hash of a source : what decides the row it occupies. An
error comes with the path a report names. -/
def occupy (path : Path) : Except (Path × Error) (Path × String × FileMetadata) := do
  let canonical ← (src.normalizePath path).mapError fun err => (path, err)
  let pathStr ← (pathToStr canonical).mapError fun err => (canonical, err)
  let metadata ← (src.collectMetadata canonical).mapError fun err => (canonical, err)
  let hash ← (src.computeHash canonical).mapError fun err => (canonical, err)
  return (canonical, pathStr, { metadata with hash := hash })

def upsertPrepared (item : Prepared) : TxM ℕ :=
  upsertInTx w e.ns item.path item.metadata item.payload.bytes item.payload.tag e.payloadVersion

/-- Store `payload` for the file at `path`. -/
def set (path : Path) (payload : T) (db : Db) : Outcome Unit :=
  if e.readOnly then .ofError .readOnly db
  else
    match occupy src path with
    | .error (_, err) => .ofError err db
    | .ok (_, pathStr, metadata) =>
      match src.encode pathStr payload with
      | .error err => .ofError err db
      | .ok encoded => boundedWrite e w (do
          let id ← upsertPrepared e w ⟨pathStr, metadata, encoded⟩
          pure ((), [id])) db

structure BatchSetReport where
  succeeded : ℕ
  failed : List (Path × Error)

/-- The number of distinct texts in a list. -/
def distinctCount (paths : List String) : ℕ := paths.dedup.length

/-- The error of a write whose distinct paths exceed the bound. -/
def checkDistinct (argument noun : String) (paths : List String) : Except Error Unit :=
  match e.maxEntries with
  | none => .ok ()
  | some maxEntries =>
    if distinctCount paths > maxEntries then
      .error (.invalidArgument argument (toString (distinctCount paths) ++ " distinct " ++ noun ++
        " exceed max_entries (" ++ toString maxEntries ++ ")"))
    else .ok ()

/-- A batch item that failed, with its index. -/
structure FailedItem where
  index : ℕ
  path : Path
  error : Error

/-- A batch item past its first pass : the row it occupies, and its payload. -/
structure Occupying (T : Type) where
  index : ℕ
  canonical : Path
  pathStr : String
  metadata : FileMetadata
  payload : T

/-- The first pass over one item of a batch. -/
def occupyItem (item : (Path × T) × ℕ) : FailedItem ⊕ Occupying T :=
  match occupy src item.1.1 with
  | .error (path, err) => .inl ⟨item.2, path, err⟩
  | .ok (canonical, pathStr, metadata) => .inr ⟨item.2, canonical, pathStr, metadata, item.1.2⟩

/-- The second pass over one item. -/
def encodeItem (item : Occupying T) : FailedItem ⊕ Prepared :=
  match src.encode item.pathStr item.payload with
  | .error err => .inl ⟨item.index, item.canonical, err⟩
  | .ok encoded => .inr ⟨item.pathStr, item.metadata, encoded⟩

/-- The items of a batch that occupy a row. -/
def batchOccupying (items : List (Path × T)) : List (Occupying T) :=
  (items.zipIdx.map (occupyItem src)).filterMap Sum.getRight?

/-- The items of a batch that are ready to be stored. -/
def batchPrepared (items : List (Path × T)) : List Prepared :=
  ((batchOccupying src items).map (encodeItem src)).filterMap Sum.getRight?

/-- The items of a batch that failed in either pass, in the items' order. -/
def batchFailed (items : List (Path × T)) : List FailedItem :=
  sortBy FailedItem.index ((items.zipIdx.map (occupyItem src)).filterMap Sum.getLeft? ++
    ((batchOccupying src items).map (encodeItem src)).filterMap Sum.getLeft?)

/-- Store every item that prepares in one transaction, with the eviction it triggers. -/
def batchSet (items : List (Path × T)) (db : Db) : Outcome BatchSetReport :=
  if e.readOnly then .ofError .readOnly db
  else
    match checkDistinct e "items" "paths" ((batchOccupying src items).map Occupying.pathStr) with
    | .error err => .ofError err db
    | .ok () => boundedWrite e w (do
        let ids ← StateExcept.forEach (upsertPrepared e w) (batchPrepared src items)
        pure (⟨ids.length, (batchFailed src items).map fun item => (item.path, item.error)⟩, ids)) db

/-- With an encryption key, every row must be sealed bound to its path. -/
def checkBound (rows : List FullRow) : Except Error Unit :=
  let unbound := (rows.filter fun row => sealState row.encoding ≠ .bound).length
  if e.encryptionKey.isSome ∧ unbound > 0 then
    .error (.invalidArgument "records" (toString unbound ++ " of " ++ toString rows.length ++
      " records are not sealed bound to their path (they are plain, or were sealed before " ++
      "v0.24.0), and an engine with an encryption key accepts only bound records; import them " ++
      "into an engine without a key and call rotate_encryption_key, or purge them"))
  else .ok ()

def checkRecency (rows : List FullRow) : Except Error Unit :=
  if rows.any fun row => (useValueOfRecord row.lastAccessedAt row.updatedAt).isNone then
    .error unrepresentableRecency
  else .ok ()

/-- The one import path. -/
def importBounded (rows : List FullRow) (db : Db) : Outcome ℕ :=
  if rows.isEmpty then ⟨.ok 0, db, [], []⟩
  else
    match (do
      checkBound e rows
      checkRecency rows
      checkDistinct e "records" "entries" (rows.map FullRow.path)) with
    | .error err => .ofError err db
    | .ok () => boundedWrite e w (do
        let ids ← importRowsInTx w e.ns rows
        pure (rows.length, ids)) db

/-- A record of an export. -/
structure ExportRecord where
  path : String
  payloadB64 : String
  encoding : String
  metadata : FileMetadata
  payloadVersion : UInt32
  updatedAt : ℤ
  lastAccessedAt : ℤ

def ExportRecord.toFullRow (r : ExportRecord) : Except Error FullRow :=
  match src.decodeBase64 r.payloadB64 with
  | .ok content =>
    .ok ⟨r.path, content, r.encoding, r.metadata, r.payloadVersion, r.updatedAt, r.lastAccessedAt⟩
  | .error text => .error (.invalidArgument "records"
      ("base64 decode error for '" ++ r.path ++ "': " ++ text))

def importEntries (records : List ExportRecord) (db : Db) : Outcome ℕ :=
  if e.readOnly then .ofError .readOnly db
  else
    match records.mapM (ExportRecord.toFullRow src) with
    | .error err => .ofError err db
    | .ok rows => importBounded e w rows db

/-- Copy the rows of another engine, which `source` is the result of reading. -/
def importFrom (source : Except Error (List FullRow)) (db : Db) : Outcome ℕ :=
  if e.readOnly then .ofError .readOnly db
  else
    match source with
    | .error err => .ofError err db
    | .ok rows => importBounded e w rows db

/-- Remove the entry of a path. -/
def remove (path : Path) (db : Db) : Outcome Bool :=
  if e.readOnly then .ofError .readOnly db
  else
    match resolvePathKey src path with
    | .error err => .ofError err db
    | .ok resolved =>
      let (result, db) := autocommit (deleteByPath w e.ns resolved.key) db
      ⟨result, db, [], []⟩

/-! ## Reads, in the parts between which others may write -/

/-- The seconds an entry has left, by the clock `now`. -/
def ttlRemaining (now updatedAt : ℤ) (ttl : Option ℕ) : Option ℕ :=
  ttl.map fun ttl => ttl - (max (min (now - updatedAt) (2 ^ 63 - 1)) 0).toNat

def isExpired (now updatedAt : ℤ) (ttl : Option ℕ) : Bool := ttlRemaining now updatedAt ttl = some 0

/-- `find_file`. -/
def findFile (key : String) (db : Db) : Except Error (Option FileRow) :=
  (autocommit (select w fun db => db.find? e.ns key) db).1

/-- `get` up to the row of its key. -/
def getFind (path : Path) (db : Db) : Except Error (Option FileRow) := do
  let resolved ← resolvePathKey src path
  findFile e w resolved.key db

/-- `get_if_fresh` up to the row of its key, if it is fresh. -/
def getIfFreshFind (path : Path) (db : Db) : Except Error (Option FileRow) := do
  let resolved ← resolvePathKey src path
  if !resolved.present then return none
  let some row ← findFile e w resolved.key db | return none
  if isExpired (w.nowSecs 0) row.updatedAt e.ttl then return none
  if e.payloadVersion > 0 ∧ row.payloadVersion ≠ e.payloadVersion then return none
  match ← src.detectChange resolved.path row.metadata with
  | .fresh => return some row
  | .stale | .missing => return none

/-- `touch` up to the row of its key. -/
def touchFind (path : Path) (db : Db) : Except Error (Option FileRow) := do
  if e.readOnly then throw .readOnly
  let resolved ← resolvePathKey src path
  if !resolved.present then return none
  findFile e w resolved.key db

/-- An entry as a read returns it. -/
structure CacheEntry (T : Type) where
  path : String
  metadata : FileMetadata
  payload : T
  deriving DecidableEq

/-- A read of the row found : its payload, decoded. -/
def loadEntry (row : FileRow) (db : Db) : Except Error (Option (CacheEntry T)) := do
  let payload ← (autocommit (select w fun db =>
    db.payloads.find? fun p => p.fileId = row.id) db).1
  match payload with
  | none => return none
  | some payload =>
    let value ← src.decode row.path ⟨payload.content, payload.encoding⟩
    return some ⟨row.path, row.metadata, value⟩

/-- The end of a read hit : record the use, whatever comes of that, and return the
entry. -/
def finishRead (row : FileRow) (entry : CacheEntry T) (db : Db) : Outcome (Option (CacheEntry T)) :=
  if e.readOnly then ⟨.ok (some entry), db, [], []⟩
  else
    match autocommit (recordUse w e.ns row.id) db with
    | (.ok (), db) => ⟨.ok (some entry), db, [], [row.id]⟩
    | (.error _, db) => ⟨.ok (some entry), db, [], []⟩

/-- The end of a `touch` : record the use. -/
def finishTouch (row : FileRow) (db : Db) : Outcome Bool :=
  match autocommit (recordUse w e.ns row.id) db with
  | (.ok (), db) => ⟨.ok true, db, [], [row.id]⟩
  | (.error err, db) => .ofError err db

end Calls

/-! ## A quiet outside, for examples -/

/-- No statement fails, every clock stands at 0, and SQLite skips no id. -/
def World.quiet : World where
  fault _ := none
  nowUs _ := 0
  nowSecs _ := 0
  gap _ := 0

/-- Every file exists, is canonical and empty, and a payload carries nothing. -/
def Sources.quiet : Sources Unit where
  normalizePath := .ok
  collectMetadata _ := .ok ⟨0, 0, none⟩
  computeHash _ := .ok none
  detectChange _ _ := .ok .fresh
  encode _ _ := .ok ⟨[], "bin"⟩
  decode _ _ := .ok ()
  decodeBase64 _ := .ok []

/-- An engine on `ns`, with this bound and no key. -/
def Engine.plain (ns : String) (maxEntries : Option ℕ) : Engine :=
  ⟨ns, false, maxEntries, 0, none, none⟩

end LocalCache
