import LocalCache.Db
import LocalCache.RunningMax
import LocalCache.Versions

/-!
# Migration to the current schema

`initializeWithHook` brings a database of any version to version 6 in one `IMMEDIATE` transaction :
classification, a snapshot of the rows, the steps from its version on, the checks against the
snapshot, and the commit. `Faults` fails any statement, any hook between them, or the commit,
and then the database is as it was.

Each step is a function of the tables, from one version's row types to the next's.
-/

namespace LocalCache

/-- The points between the statements where a test may stop the migration. -/
inductive MigrationPoint
  | afterPreliminaryVersionRead
  | afterAuthoritativeClassification
  | afterShadowFilesCreation
  | afterShadowPayloadsCreation
  | afterParentCopy
  | afterPayloadCopy
  | afterBidirectionalEquivalence
  | afterOldPayloadsDrop
  | afterOldFilesDrop
  | afterNewFilesRename
  | afterNewPayloadsRename
  | afterSequenceRestoration
  | afterV2ShapeValidation
  | afterV2ToV3
  | afterV3ToV4
  | afterV4NumericSnapshot
  | afterV4ConversionEquivalence
  | afterV6ColumnAdded
  | afterV6Backfill
  | afterV6IndexesDropped
  | afterV6ColumnDropped
  | afterV6UseIndexCreated
  | afterFinalUserVersionWrite
  | afterFinalPostconditions
  | immediatelyBeforeCommit
  deriving DecidableEq, Repr

/-- What fails from outside : the `n`th statement, or the hook of a point. -/
structure Faults where
  statement : ℕ → Option String
  hook : MigrationPoint → Option SchemaError

/-- Nothing fails. -/
def Faults.quiet : Faults := ⟨fun _ => none, fun _ => none⟩

/-- A computation that counts its statements. -/
abbrev StepM (α : Type) := StateExcept ℕ SchemaError α

def migrationInvariant (reason : String) : SchemaError := .databaseState
  ("migration precondition or postcondition failed: " ++ reason ++ "; transaction will be rolled back")

/-- The error of a recency out of range, which two statements give. -/
def recencyOutOfRange : SchemaError :=
  migrationInvariant "a stored recency is outside the range the use order can hold"

def mtimeSecondsMin : ℤ := -9223372036

def mtimeSecondsMax : ℤ := 9223372036

/-- The largest last-use second whose microseconds stay below the limit of a use value. -/
def recencySecondsMax : ℤ := useValueLimit / 1000000

def nanosecondsPerSecond : ℤ := 1000000000

/-- Two relations have the same rows : neither `EXCEPT` finds one. -/
def sameRows {α : Type} [DecidableEq α] (as bs : List α) : Bool :=
  as.all (fun a => decide (a ∈ bs)) && bs.all fun b => decide (b ∈ as)

/-! ## The starting snapshot -/

/-- A row of the snapshot : a file with its payload, if it has one. -/
structure StartRow where
  id : ℤ
  ns : SqlValue
  path : SqlValue
  oldMtime : SqlValue
  fileSize : SqlValue
  hash : SqlValue
  updatedAt : SqlValue
  payloadVersion : SqlValue
  lastAccessedAt : SqlValue
  hasPayload : Bool
  content : SqlValue
  encoding : SqlValue
  deriving DecidableEq, Repr

/-- A column of a joined row that may be missing. -/
def columnOf {P : Type} (column : P → SqlValue) (p : Option P) : SqlValue :=
  (p.map column).getD .null

def FilesV1.start (r : FilesV1) (p : Option PayloadsV1) : StartRow :=
  ⟨r.id, .text "default", r.path, r.mtime, r.fileSize, r.hash, r.updatedAt, .integer 0, .integer 0,
    p.isSome, columnOf PayloadsV1.content p, columnOf (fun _ => .text "raw") p⟩

def FilesV2.start (r : FilesV2) (p : Option PayloadsV1) : StartRow :=
  ⟨r.id, r.ns, r.path, r.mtime, r.fileSize, r.hash, r.updatedAt, .integer 0, .integer 0,
    p.isSome, columnOf PayloadsV1.content p, columnOf (fun _ => .text "raw") p⟩

def FilesV3.start (r : FilesV3) (p : Option PayloadsV3) : StartRow :=
  ⟨r.id, r.ns, r.path, r.mtime, r.fileSize, r.hash, r.updatedAt, r.payloadVersion, .integer 0,
    p.isSome, columnOf (fun p => p.content) p, columnOf PayloadsV3.encoding p⟩

def FilesV4.start (r : FilesV4) (p : Option PayloadsV3) : StartRow :=
  ⟨r.id, r.ns, r.path, r.mtime, r.fileSize, r.hash, r.updatedAt, r.payloadVersion, r.lastAccessedAt,
    p.isSome, columnOf (fun p => p.content) p, columnOf PayloadsV3.encoding p⟩

/-- `files LEFT JOIN payloads`, as rows of the join. -/
def Store.leftJoin {F P α : Type} [Rowid F] [Rowid P] (row : F → Option P → α) (db : Store F P) :
    List α :=
  db.files.map fun r => row r (db.payloads.find? fun p => rowid p = rowid r)

/-- The rows of the snapshot. -/
def Content.startRows : Content → List StartRow
  | .v1 db => db.leftJoin FilesV1.start
  | .v2 db => db.leftJoin FilesV2.start
  | .v3 db => db.leftJoin FilesV3.start
  | .v4 db => db.leftJoin FilesV4.start
  | .v6 _ | .fresh | .other _ => []

/-- The public user indexes of a database. -/
def Content.userIndexes : Content → List IndexDef
  | .v1 db => db.indexes.filter IndexDef.isUser
  | .v2 db => db.indexes.filter IndexDef.isUser
  | .v3 db => db.indexes.filter IndexDef.isUser
  | .v4 db => db.indexes.filter IndexDef.isUser
  | .v6 db => db.indexes.filter IndexDef.isUser
  | .fresh | .other _ => []

/-- The snapshot, with what `oldMtime` must be multiplied by to equal the migrated `mtime`. -/
structure StartingSnapshot where
  rows : List StartRow
  userIndexes : Option (List IndexDef)
  mtimeFactor : ℤ

/-! ## The use order -/

section UseOrder

variable (S : Sqlite)

/-- `CASE WHEN last_accessed_at > 0 THEN last_accessed_at ELSE updated_at END`. -/
def useSeconds (lastAccessedAt updatedAt : SqlValue) : SqlValue :=
  if 0 < S.rank lastAccessedAt then lastAccessedAt else updatedAt

def FilesV4.seconds (r : FilesV4) : SqlValue := useSeconds S r.lastAccessedAt r.updatedAt

def StartRow.seconds (r : StartRow) : SqlValue := useSeconds S r.lastAccessedAt r.updatedAt

/-- A partition of the window, `PARTITION BY namespace ORDER BY s, updated_at, id`. -/
def usePartition (files : List FilesV4) (ns : SqlValue) : List FilesV4 :=
  sortBy (fun r => toLex (S.rank (r.seconds S), toLex (S.rank r.updatedAt, r.id)))
    (files.filter fun r => r.ns = ns)

/-- `rn + MAX(s * 1000000 - rn)` over the rows of a partition so far. -/
def windowValues (seconds : List SqlValue) : List SqlValue :=
  windowed (fun s rn => S.arith .sub (S.arith .mul s (.integer 1000000)) (.integer rn)) S.max
    (fun rn m => S.arith .add (.integer rn) m) seconds

/-- The values of the backfill, with the ids of their rows. -/
def backfillValues (files : List FilesV4) : List (ℤ × SqlValue) :=
  ((files.map fun r => r.ns).dedup).flatMap fun ns =>
    ((usePartition S files ns).map fun r => r.id).zip
      (windowValues S ((usePartition S files ns).map fun r => r.seconds S))

/-- The column's CHECK. -/
def useValueCheck : SqlValue → Bool
  | .integer i => decide (i < useValueLimit)
  | _ => false

/-- The value a row has after the backfill's `UPDATE … FROM`, 0 being the column's default. -/
def backfilledValue (files : List FilesV4) (r : FilesV4) : SqlValue :=
  match (backfillValues S files).find? fun u => u.1 = r.id with
  | some u => S.affinity u.2
  | none => .integer 0

/-- The backfill, as one statement. -/
def backfill (files : List FilesV4) : Except SchemaError (List (FilesV4 × SqlValue)) :=
  let updated := files.map fun r => (r, backfilledValue S files r)
  if updated.all fun u => useValueCheck u.2 then .ok updated else .error recencyOutOfRange

/-- Addition of `i64` that saturates. -/
def saturatingAdd (a b : ℤ) : ℤ := max (-2 ^ 63) (min (a + b) (2 ^ 63 - 1))

/-- `checked_mul`. -/
def checkedMulI64 (a b : ℤ) : Option ℤ := if InI64 (a * b) then some (a * b) else none

/-- The loop of `validateUseOrder` over rows of a namespace, its seconds and its stored value. -/
def checkUseOrder : (ns : String) → (previous : Option ℤ) →
    List (SqlValue × SqlValue × SqlValue) → Except SchemaError Unit
  | _, _, [] => .ok ()
  | ns, previous, (.text rowNs, .integer seconds, stored) :: rows =>
    match stored with
    | .integer stored =>
      let previous := if rowNs = ns then previous else none
      match checkedMulI64 seconds 1000000 with
      | none => .error (migrationInvariant "a stored recency overflows the use order")
      | some floor =>
        let expected := match previous with
          | some last => max floor (saturatingAdd last 1)
          | none => floor
        if ¬(0 ≤ stored ∧ stored < useValueLimit) ∨ stored ≠ expected then
          .error (migrationInvariant "the use order does not match the rule")
        else checkUseOrder rowNs (some stored) rows
    | _ => .error (migrationInvariant "a stored use value is not an integer")
  | _, _, _ :: _ => .error (.database "Invalid column type")

/-- Every stored use value equals the rule recomputed from the snapshot by the recurrence. -/
def validateUseOrder (start : List StartRow) (files : List FilesV6) : Except SchemaError Unit :=
  let joined := start.filterMap fun s =>
    (files.find? fun f => f.id = s.id).map fun f => (s, f.lastUsedUs)
  let ordered := sortBy (fun j => toLex (S.rank j.1.ns, toLex (S.rank (j.1.seconds S),
    toLex (S.rank j.1.updatedAt, j.1.id)))) joined
  checkUseOrder "" none (ordered.map fun j => (j.1.ns, j.1.seconds S, j.2))

end UseOrder

/-! ## The steps -/

/-- A row as the final check compares it. -/
structure FinalRow where
  id : ℤ
  ns : SqlValue
  path : SqlValue
  mtime : SqlValue
  fileSize : SqlValue
  hash : SqlValue
  updatedAt : SqlValue
  payloadVersion : SqlValue
  hasPayload : Bool
  content : SqlValue
  encoding : SqlValue
  deriving DecidableEq, Repr

def StartRow.final (S : Sqlite) (factor : ℤ) (r : StartRow) : FinalRow :=
  ⟨r.id, r.ns, r.path, S.arith .mul r.oldMtime (.integer factor), r.fileSize, r.hash, r.updatedAt,
    r.payloadVersion, r.hasPayload, r.content, r.encoding⟩

def FilesV6.final (r : FilesV6) (p : Option PayloadsV3) : FinalRow :=
  ⟨r.id, r.ns, r.path, r.mtime, r.fileSize, r.hash, r.updatedAt, r.payloadVersion, p.isSome,
    columnOf (fun p => p.content) p, columnOf PayloadsV3.encoding p⟩

/-- The shadow table's row. -/
def FilesV1.shadow (r : FilesV1) : FilesV2 := { toFilesV1 := r, ns := .text "default" }

section Steps

variable (S : Sqlite) (faults : Faults)

/-- One statement with its own outcome, unless it is failed. -/
def sql {α : Type} (outcome : Except SchemaError α) : StepM α := fun n =>
  match faults.statement n with
  | some text => .error (.database text)
  | none => outcome.map fun a => (a, n + 1)

def hook (point : MigrationPoint) : StepM Unit := fun n =>
  match faults.hook point with
  | some e => .error e
  | none => .ok ((), n)

/-- A query that must find that `holds`. -/
def require (holds : Bool) (reason : String) : StepM Unit :=
  sql faults (if holds then .ok () else .error (migrationInvariant reason))

def validateEffectiveVersion {F P : Type} [Rowid F] [Rowid P] (version : ℕ) (versions : List ℕ)
    (db : Store F P) : StepM Unit := do
  let _ ← sql faults (validateVersion version version versions db)
  pure ()

def createFresh : StepM (Store FilesV6 PayloadsV3) :=
  sql faults (.ok ⟨[], [], [],
    [⟨"idx_files_use", "CREATE INDEX idx_files_use ON files(namespace, last_used_us)"⟩]⟩)

def validateV1ShadowEquivalence (db : Store FilesV1 PayloadsV1) (files : List FilesV2)
    (payloads : List PayloadsV1) : StepM Unit :=
  require faults
    (decide (db.files.length = files.length) && sameRows (db.files.map FilesV1.shadow) files &&
      decide (db.payloads.length = payloads.length) && sameRows db.payloads payloads &&
      !hasForeignKeyViolation db.files db.payloads && !hasForeignKeyViolation files payloads)
    "v1 shadow relations are not bidirectionally equivalent"

/-- The row of the sequence for `files`, if there is anything to remember. -/
def restoreSequence (fileCount : ℕ) (filesHighWater : ℤ) (sequence : List (String × SqlValue)) :
    StepM (List (String × SqlValue)) :=
  if fileCount ≠ 0 ∨ filesHighWater ≠ 0 then
    sql faults (.ok (sequence ++ [("files", .integer filesHighWater)]))
  else pure sequence

/-- The tables are copied to shadow tables, which replace them. Dropping `files` drops its
indexes and its row of the sequence, and the shadow table brings a row of its own, so the
sequence is set anew. -/
def migrateV1ToV2 (filesHighWater : ℤ) (db : Store FilesV1 PayloadsV1) :
    StepM (Store FilesV2 PayloadsV1) := do
  sql faults (.ok ())
  hook faults .afterShadowFilesCreation
  sql faults (.ok ())
  hook faults .afterShadowPayloadsCreation
  let files ← sql faults (.ok (db.files.map FilesV1.shadow))
  hook faults .afterParentCopy
  let payloads ← sql faults (.ok db.payloads)
  hook faults .afterPayloadCopy
  validateV1ShadowEquivalence faults db files payloads
  hook faults .afterBidirectionalEquivalence
  sql faults (.ok ())
  hook faults .afterOldPayloadsDrop
  sql faults (.ok ())
  hook faults .afterOldFilesDrop
  sql faults (.ok ())
  hook faults .afterNewFilesRename
  sql faults (.ok ())
  hook faults .afterNewPayloadsRename
  let sequence ← sql faults (.ok (db.sequence.filter fun row =>
    row.1 ∉ ["files", "__localcache_rfc010_files_v2"]))
  let fileCount ← sql faults (.ok files.length)
  let sequence ← restoreSequence faults fileCount filesHighWater sequence
  hook faults .afterSequenceRestoration
  let db ← sql faults (.ok ⟨files, payloads, sequence, [⟨"idx_files_namespace_path",
    "CREATE INDEX idx_files_namespace_path ON files(namespace, path)"⟩]⟩)
  validateEffectiveVersion faults 2 [2] db
  hook faults .afterV2ShapeValidation
  pure db

def migrateV2ToV3 (db : Store FilesV2 PayloadsV1) : StepM (Store FilesV3 PayloadsV3) := do
  let files ← sql faults (.ok (db.files.map fun r => (⟨r, .integer 0⟩ : FilesV3)))
  let payloads ← sql faults (.ok (db.payloads.map fun p => (⟨p, .text "raw"⟩ : PayloadsV3)))
  let db : Store FilesV3 PayloadsV3 := ⟨files, payloads, db.sequence, db.indexes⟩
  validateEffectiveVersion faults 3 [3] db
  hook faults .afterV2ToV3
  pure db

def migrateV3ToV4 (db : Store FilesV3 PayloadsV3) : StepM (Store FilesV4 PayloadsV3) := do
  let files ← sql faults (.ok (db.files.map fun r => (⟨r, .integer 0⟩ : FilesV4)))
  let indexes ← sql faults (.ok (db.indexes ++ [⟨"idx_files_lru",
    "CREATE INDEX idx_files_lru\n            ON files(namespace, last_accessed_at, updated_at)"⟩]))
  let db : Store FilesV4 PayloadsV3 := ⟨files, db.payloads, db.sequence, indexes⟩
  validateEffectiveVersion faults 4 [4, 5] db
  hook faults .afterV3ToV4
  pure db

/-- `UPDATE files SET mtime = mtime * 1000000000`. -/
def FilesV4.toNanoseconds (r : FilesV4) : FilesV4 :=
  { r with mtime := S.affinity (S.arith .mul r.mtime (.integer nanosecondsPerSecond)) }

def validateV4Conversion (old : List (ℤ × SqlValue)) (files : List FilesV4) : StepM Unit :=
  require faults
    (decide (old.length = files.length) &&
      sameRows (old.map fun o => (o.1, S.arith .mul o.2 (.integer nanosecondsPerSecond)))
        ((files.filter fun r => r.mtime.isInteger).map fun r => (r.id, r.mtime)) &&
      files.all fun r => r.mtime.isInteger)
    "v4 mtime conversion equivalence failed"

def migrateV4ToV5 (db : Store FilesV4 PayloadsV3) : StepM (Store FilesV4 PayloadsV3) := do
  require faults (db.files.all fun r => r.mtime.isInteger)
    "v4 mtime must use SQLite INTEGER storage"
  require faults (!db.files.any fun r =>
      decide (S.rank r.mtime < mtimeSecondsMin ∨ mtimeSecondsMax < S.rank r.mtime))
    "v4 mtime is outside the safe seconds range"
  let old ← sql faults (.ok (db.files.map fun r => (r.id, r.mtime)))
  hook faults .afterV4NumericSnapshot
  let files ← sql faults (.ok (db.files.map (FilesV4.toNanoseconds S)))
  validateV4Conversion S faults old files
  hook faults .afterV4ConversionEquivalence
  sql faults (.ok ())
  pure { db with files := files }

def dropIndex (name : String) (indexes : List IndexDef) : Except SchemaError (List IndexDef) :=
  if indexes.any (·.name = name) then .ok (indexes.filter (·.name ≠ name))
  else .error (.database ("no such index: " ++ name))

def migrateV5ToV6 (db : Store FilesV4 PayloadsV3) : StepM (Store FilesV6 PayloadsV3) := do
  sql faults (.ok ())
  hook faults .afterV6ColumnAdded
  sql faults (if db.files.any fun r =>
      decide (S.rank (r.seconds S) < 0 ∨ (recencySecondsMax : ℚ) < S.rank (r.seconds S)) then
    .error recencyOutOfRange else .ok ())
  let updated ← sql faults (backfill S db.files)
  hook faults .afterV6Backfill
  let indexes ← sql faults (dropIndex "idx_files_lru" db.indexes)
  let indexes ← sql faults (dropIndex "idx_files_namespace_path" indexes)
  hook faults .afterV6IndexesDropped
  let files ← sql faults (.ok (updated.map fun u => (⟨u.1.toFilesV3, u.2⟩ : FilesV6)))
  hook faults .afterV6ColumnDropped
  let db ← sql faults (.ok (⟨files, db.payloads, db.sequence, indexes ++ [⟨"idx_files_use",
    "CREATE INDEX idx_files_use ON files(namespace, last_used_us)"⟩]⟩ : Store FilesV6 PayloadsV3))
  validateEffectiveVersion faults 6 [6] db
  hook faults .afterV6UseIndexCreated
  pure db

/-! ## Initialization -/

def migrateFromV4 (db : Store FilesV4 PayloadsV3) : StepM (Store FilesV6 PayloadsV3) := do
  let db ← migrateV4ToV5 S faults db
  migrateV5ToV6 S faults db

def migrateFromV3 (db : Store FilesV3 PayloadsV3) : StepM (Store FilesV6 PayloadsV3) := do
  let db ← migrateV3ToV4 faults db
  migrateFromV4 S faults db

def migrateFromV2 (db : Store FilesV2 PayloadsV1) : StepM (Store FilesV6 PayloadsV3) := do
  let db ← migrateV2ToV3 faults db
  migrateFromV3 S faults db

def migrateFromV1 (filesHighWater : ℤ) (db : Store FilesV1 PayloadsV1) :
    StepM (Store FilesV6 PayloadsV3) := do
  let db ← migrateV1ToV2 faults filesHighWater db
  migrateFromV2 S faults db

/-- The steps from the state found. -/
def migrate : SchemaState → Content → StepM (Store FilesV6 PayloadsV3)
  | .fresh, _ => createFresh faults
  | .version 1 filesHighWater, .v1 db => migrateFromV1 S faults filesHighWater db
  | .version 2 _, .v2 db => migrateFromV2 S faults db
  | .version 3 _, .v3 db => migrateFromV3 S faults db
  | .version 4 _, .v4 db => migrateFromV4 S faults db
  | .version 5 _, .v4 db => migrateV5ToV6 S faults db
  | _, _ => StateExcept.fail (.databaseState "unreachable")

/-- Public user indexes are captured from version 4 on. -/
def captureUserIndexes (version : ℕ) (content : Content) : StepM (Option (List IndexDef)) :=
  if version ≥ 4 then sql faults (.ok (some content.userIndexes)) else pure none

/-- Nothing is captured of a fresh database. -/
def capture (content : Content) : SchemaState → StepM (Option StartingSnapshot)
  | .fresh => pure none
  | .version version _ => do
    sql faults (.ok ())
    let rows ← sql faults (.ok content.startRows)
    let userIndexes ← captureUserIndexes faults version content
    pure (some ⟨rows, userIndexes, if version ≥ 5 then 1 else nanosecondsPerSecond⟩)

def validateUserIndexes (db : Store FilesV6 PayloadsV3) : Option (List IndexDef) → StepM Unit
  | none => pure ()
  | some indexes => require faults (sameRows indexes (db.indexes.filter IndexDef.isUser))
      "released public index definition changed during migration"

def validateAndRemove (snapshot : Option StartingSnapshot) (db : Store FilesV6 PayloadsV3) :
    StepM Unit :=
  match snapshot with
  | none => pure ()
  | some snapshot => do
    require faults
      (decide (snapshot.rows.length = db.files.length) &&
        sameRows (snapshot.rows.map (StartRow.final S snapshot.mtimeFactor))
          (db.leftJoin FilesV6.final))
      "starting row/payload equivalence failed"
    sql faults (validateUseOrder S snapshot.rows db.files)
    validateUserIndexes faults db snapshot.userIndexes
    sql faults (.ok ())

def validateFinalPostconditions (db : Database) : StepM Unit := do
  let state ← sql faults (classify db)
  match state with
  | .version 6 _ => pure ()
  | _ => StateExcept.fail (migrationInvariant "final schema is not exact version 6")

structure InitializationOutcome where
  schemaMigrationCommitted : Bool
  databaseCreated : Bool
  deriving DecidableEq, Repr

/-- What `initializeWithHook` finds before its transaction : the version another connection may
still change, whether the database is in memory, and the journal mode of its file. -/
structure Opening where
  preliminaryVersion : ℤ
  isMemory : Bool
  journal : String

/-- A migration of a file needs a journal it can roll back with. `synchronous` is set for the
connection only. -/
def prepareFileMigration (opening : Opening) : StepM Unit :=
  if opening.isMemory then pure ()
  else do
    sql faults (if opening.journal ∈ ["delete", "truncate", "persist", "wal"] then .ok ()
      else .error (.databaseState ("migration requires an existing rollback-capable or WAL " ++
        "journal; observed_journal_mode=" ++ opening.journal ++ "; database was not modified")))
    sql faults (.ok ())

def validateCurrentReadSnapshot (db : Database) : StepM Unit := do
  let state ← sql faults (classify db)
  match state with
  | .version 6 _ => sql faults (.ok ())
  | _ => StateExcept.fail (.databaseState
      "changed while the current schema was being validated; database was not modified")

/-- The transaction, and what comes before it. -/
def initializeSteps (opening : Opening) (db : Database) :
    StepM (InitializationOutcome × Database) := do
  sql faults (.ok ())
  hook faults .afterPreliminaryVersionRead
  if opening.preliminaryVersion = currentVersion then do
    validateCurrentReadSnapshot faults db
    pure (⟨false, false⟩, db)
  else if opening.preliminaryVersion < 0 ∨ (currentVersion : ℤ) < opening.preliminaryVersion then do
    let _ ← sql faults (classify { db with userVersion := opening.preliminaryVersion })
    StateExcept.fail (.databaseState "unsupported version unexpectedly classified")
  else do
    prepareFileMigration faults opening
    let state ← sql faults (classify db)
    hook faults .afterAuthoritativeClassification
    match state with
    | .version 6 _ => do
      hook faults .immediatelyBeforeCommit
      sql faults (.ok ())
      pure (⟨false, false⟩, db)
    | state => do
      let snapshot ← capture faults db.content state
      let store ← migrate S faults state db.content
      let migrated ← sql faults (.ok ⟨currentVersion, .v6 store⟩)
      hook faults .afterFinalUserVersionWrite
      validateAndRemove S faults snapshot store
      validateFinalPostconditions faults migrated
      hook faults .afterFinalPostconditions
      hook faults .immediatelyBeforeCommit
      sql faults (.ok ())
      pure (⟨true, decide (state = .fresh)⟩, migrated)

/-- Initialize or migrate a database. An error leaves it as it was. -/
def initializeWithHook (opening : Opening) (db : Database) :
    Except SchemaError InitializationOutcome × Database :=
  match initializeSteps S faults opening db 0 with
  | .ok ((outcome, db), _) => (.ok outcome, db)
  | .error e => (.error e, db)

end Steps

end LocalCache
