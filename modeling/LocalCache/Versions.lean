import LocalCache.Sqlite
import Mathlib.Data.List.Basic

/-!
# The schema versions and their classification

A `Store` is the tables of a database of one schema version : the row types give the columns
the version has. Versions 4 and 5 have the same columns, and differ in the unit of `mtime`. A
column holds any `SqlValue`; only ids are integers, being rowids.

`classify` accepts a database only if its tables, its indexes, its AUTOINCREMENT sequence and
its foreign keys are those of the version it names. The contract of columns and DDL is the
type of the store, and `Content.other` is a database without one of them, with what the
classifier finds wrong.
-/

namespace LocalCache

/-- The one current schema version. -/
def currentVersion : ℕ := 6

/-! ## Tables -/

/-- A row of a table with an INTEGER PRIMARY KEY. -/
class Rowid (α : Type) where
  rowid : α → ℤ

export Rowid (rowid)

structure FilesV1 where
  id : ℤ
  path : SqlValue
  mtime : SqlValue
  fileSize : SqlValue
  hash : SqlValue
  updatedAt : SqlValue
  deriving DecidableEq, Repr

structure FilesV2 extends FilesV1 where
  ns : SqlValue
  deriving DecidableEq, Repr

structure FilesV3 extends FilesV2 where
  payloadVersion : SqlValue
  deriving DecidableEq, Repr

/-- Also the rows of version 5. -/
structure FilesV4 extends FilesV3 where
  lastAccessedAt : SqlValue
  deriving DecidableEq, Repr

structure FilesV6 extends FilesV3 where
  lastUsedUs : SqlValue
  deriving DecidableEq, Repr

structure PayloadsV1 where
  fileId : ℤ
  content : SqlValue
  deriving DecidableEq, Repr

structure PayloadsV3 extends PayloadsV1 where
  encoding : SqlValue
  deriving DecidableEq, Repr

instance : Rowid FilesV1 := ⟨FilesV1.id⟩
instance : Rowid FilesV2 := ⟨fun r => r.id⟩
instance : Rowid FilesV3 := ⟨fun r => r.id⟩
instance : Rowid FilesV4 := ⟨fun r => r.id⟩
instance : Rowid FilesV6 := ⟨fun r => r.id⟩
instance : Rowid PayloadsV1 := ⟨PayloadsV1.fileId⟩
instance : Rowid PayloadsV3 := ⟨fun p => p.fileId⟩

/-- An index of `files`, with its definition. -/
structure IndexDef where
  name : String
  sql : String
  deriving DecidableEq, Repr

/-- The tables, the rows of `sqlite_sequence`, and the indexes of `files`. -/
structure Store (F P : Type) where
  files : List F
  payloads : List P
  sequence : List (String × SqlValue)
  indexes : List IndexDef
  deriving DecidableEq, Repr

/-- The contents of a database file. -/
inductive Content
  | fresh
  | v1 (db : Store FilesV1 PayloadsV1)
  | v2 (db : Store FilesV2 PayloadsV1)
  | v3 (db : Store FilesV3 PayloadsV3)
  | v4 (db : Store FilesV4 PayloadsV3)
  | v6 (db : Store FilesV6 PayloadsV3)
  | other (reason : String)
  deriving DecidableEq, Repr

structure Database where
  userVersion : ℤ
  content : Content
  deriving DecidableEq, Repr

inductive SchemaError
  | database (text : String)
  | databaseState (text : String)
  | incompatibleSchema (text : String)
  deriving DecidableEq, Repr

/-! ## Classification -/

inductive SchemaState
  | fresh
  | version (version : ℕ) (filesHighWater : ℤ)
  deriving DecidableEq, Repr

def unrecognized (physicalVersion : ℤ) (reason : String) : SchemaError :=
  .incompatibleSchema ("unrecognized at physical version " ++ toString physicalVersion ++ ": " ++
    reason ++ "; database was not modified")

/-- The indexes a version requires. -/
def requiredIndexes : (version : ℕ) → List String
  | 1 => ["idx_files_path"]
  | 2 | 3 => ["idx_files_namespace_path"]
  | 4 | 5 => ["idx_files_lru", "idx_files_namespace_path"]
  | 6 => ["idx_files_use"]
  | _ => []

/-- A public user index, by its name. -/
def IndexDef.isUser (index : IndexDef) : Bool := "lc_user_".toList.isPrefixOf index.name.toList

section Classify

variable {F P : Type}

/-- The indexes are the required ones, and from version 4 on public user indexes. -/
def validateObjectPolicy (physicalVersion : ℤ) (version : ℕ) (db : Store F P) :
    Except SchemaError Unit :=
  if db.indexes.any fun index =>
      !decide (index.name ∈ requiredIndexes version) && !(decide (4 ≤ version) && index.isUser) then
    .error (unrecognized physicalVersion "unexpected application object")
  else if (requiredIndexes version).any fun name => !db.indexes.any (·.name = name) then
    .error (unrecognized physicalVersion "missing required table or index")
  else .ok ()

variable [Rowid F] [Rowid P]

/-- The largest id the sequence and the rows show to have been used. -/
def validateSequence (physicalVersion : ℤ) (db : Store F P) : Except SchemaError ℤ :=
  if db.sequence.length > 1 ∨ db.sequence.any fun row => row.1 ≠ "files" then
    .error (unrecognized physicalVersion "sqlite_sequence contract mismatch")
  else
    let maxPositive := ((db.files.map rowid).filter fun id => 0 < id).max?
    match db.sequence with
    | [] =>
      if db.files.length = 0 then .ok 0
      else .error (unrecognized physicalVersion "invalid AUTOINCREMENT sequence state")
    | (_, .integer sequence) :: _ =>
      if 0 ≤ sequence then
        .ok (match maxPositive with
          | none => sequence
          | some maximum => max maximum sequence)
      else .error (unrecognized physicalVersion "invalid AUTOINCREMENT sequence state")
    | _ => .error (unrecognized physicalVersion "invalid AUTOINCREMENT sequence state")

/-- `pragma_foreign_key_check` finds a payload without its file. -/
def hasForeignKeyViolation (files : List F) (payloads : List P) : Bool :=
  payloads.any fun p => !files.any fun r => rowid r = rowid p

def validateForeignKeyIntegrity (physicalVersion : ℤ) (db : Store F P) : Except SchemaError Unit :=
  if hasForeignKeyViolation db.files db.payloads then
    .error (unrecognized physicalVersion "foreign-key violation")
  else .ok ()

/-- Whether a store with the columns of `versions` is one of `version`. -/
def validateVersion (physicalVersion : ℤ) (version : ℕ) (versions : List ℕ) (db : Store F P) :
    Except SchemaError ℤ := do
  validateObjectPolicy physicalVersion version db
  if version ∉ versions then
    throw (unrecognized physicalVersion "column contract mismatch")
  let filesHighWater ← validateSequence physicalVersion db
  validateForeignKeyIntegrity physicalVersion db
  return filesHighWater

end Classify

/-- The validation of contents as those of a version. -/
def Content.validateVersion (physicalVersion : ℤ) (version : ℕ) : Content → Except SchemaError ℤ
  | .v1 db => LocalCache.validateVersion physicalVersion version [1] db
  | .v2 db => LocalCache.validateVersion physicalVersion version [2] db
  | .v3 db => LocalCache.validateVersion physicalVersion version [3] db
  | .v4 db => LocalCache.validateVersion physicalVersion version [4, 5] db
  | .v6 db => LocalCache.validateVersion physicalVersion version [6] db
  | .fresh => .error (unrecognized physicalVersion "missing required table or index")
  | .other reason => .error (unrecognized physicalVersion reason)

/-- The version a database has, by its `user_version` and its contents. -/
def classify (db : Database) : Except SchemaError SchemaState :=
  if db.userVersion < 0 ∨ (currentVersion : ℤ) < db.userVersion then
    .error (unrecognized db.userVersion "unsupported schema version")
  else if db.userVersion = 0 ∧ db.content = .fresh then .ok .fresh
  else
    let version := if db.userVersion = 0 then 1 else db.userVersion.toNat
    (db.content.validateVersion db.userVersion version).map (.version version)

end LocalCache
