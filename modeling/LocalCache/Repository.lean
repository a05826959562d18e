import LocalCache.Db
import Mathlib.Data.List.Dedup

/-!
# The repository : statements in transactions

`World` is what the code does not choose : which statement fails, what the clock reads, how
many ids SQLite skips. A `TxM` computation runs statements on one connection, and
`transaction` is the `IMMEDIATE` transaction around it : commit, or the database as it was.

The functions follow the source's repository layer. Each has one specification : what the
tables are after it succeeds.
-/

namespace LocalCache

/-- An operating-system path : its bytes. -/
abbrev Path := List UInt8

/-- The public error. Errors of the storage and format layers are lifted to the variant of
the same name. -/
inductive Error
  | database (text : String)
  | databaseState (text : String)
  | invalidArgument (argument reason : String)
  | io (text : String)
  | serialization (text : String)
  | fileNotFound (path : Path)
  | invalidPath (path : Path)
  | readOnly
  | unknownEncoding (tag : String)
  | payloadTooLarge (limit : ℕ)
  | encryptionError (text : String)
  | missingEncryptionKey
  | unsealedEntry
  deriving DecidableEq, Repr

/-- What happens to one call from outside : the failure of its `n`th statement, the `n`th
reading of the clocks, and the ids SQLite skips. The clock is an `i64` that is not
negative. -/
structure World where
  fault : ℕ → Option String
  nowUs : ℕ → Fin (2 ^ 63)
  nowSecs : ℕ → ℤ
  gap : ℕ → ℕ

/-- A connection inside a call : the database, and how many statements and clock readings
there were. -/
structure Tx where
  db : Db
  statements : ℕ
  readings : ℕ

abbrev TxM (α : Type) := StateExcept Tx Error α

/-! ## Statements -/

/-- An error of a statement that records no use. -/
def databaseError : SqlError → Error
  | .check => .database "CHECK constraint failed: last_used_us"
  | .other text => .database text

/-- An error of a statement that assigns a use value : its CHECK means the use order is
exhausted. -/
def useError : SqlError → Error
  | .check => .databaseState
      "use order exhausted: a use value would reach 2^62; the database was not modified"
  | .other text => .database text

section Statements

variable (w : World)

/-- Run one statement, unless the world fails it. -/
def statement {α : Type} (toError : SqlError → Error)
    (run : (gap : ℕ) → Db → Except SqlError (α × Db)) : TxM α := fun t =>
  match w.fault t.statements with
  | some text => .error (toError (.other text))
  | none =>
    match run (w.gap t.statements) t.db with
    | .ok (a, db) => .ok (a, ⟨db, t.statements + 1, t.readings⟩)
    | .error e => .error (toError e)

/-- A statement that reads. -/
def select {α : Type} (run : Db → α) : TxM α :=
  statement w databaseError fun _ db => .ok (run db, db)

/-- A statement that reads and may fail by itself. -/
def selectOrFail {α : Type} (run : Db → Except SqlError α) : TxM α :=
  statement w databaseError fun _ db => (run db).map fun a => (a, db)

/-- A statement that writes. -/
def execute (toError : SqlError → Error) (run : (gap : ℕ) → Db → Except SqlError Db) : TxM Unit :=
  statement w toError fun gap db => (run gap db).map fun db => ((), db)

def nowUs : TxM ℕ := fun t => .ok (w.nowUs t.readings, { t with readings := t.readings + 1 })

def nowSecs : TxM ℤ := fun t => .ok (w.nowSecs t.readings, t)

/-- An `IMMEDIATE` transaction. An error at any statement, the first and the commit
included, leaves the database as it was. -/
def transaction {α : Type} (body : TxM α) (db : Db) : Except Error α × Db :=
  let run : TxM α := do
    select w fun _ => ()
    let a ← body
    select w fun _ => ()
    pure a
  match run ⟨db, 0, 0⟩ with
  | .ok (a, t) => (.ok a, t.db)
  | .error e => (.error e, db)

/-- A statement in autocommit mode. -/
def autocommit {α : Type} (body : TxM α) (db : Db) : Except Error α × Db :=
  match body ⟨db, 0, 0⟩ with
  | .ok (a, t) => (.ok a, t.db)
  | .error e => (.error e, db)

end Statements

/-! ## The repository's functions -/

/-- A row of an export or an import, with its payload. -/
structure FullRow where
  path : String
  content : List UInt8
  encoding : String
  metadata : FileMetadata
  payloadVersion : UInt32
  updatedAt : ℤ
  lastAccessedAt : ℤ
  deriving DecidableEq, Repr

/-- Multiplication of `i64`, `none` when the product is not one. -/
def checkedMul (a b : ℤ) : Option ℤ :=
  if -2 ^ 63 ≤ a * b ∧ a * b < 2 ^ 63 then some (a * b) else none

/-- The use value an imported record stands for : its last-use second in microseconds. -/
def useValueOfRecord (lastAccessedAt updatedAt : ℤ) : Option ℤ :=
  let seconds := if lastAccessedAt > 0 then lastAccessedAt else updatedAt
  if seconds < 0 then none
  else (checkedMul seconds 1000000).filter (· < useValueLimit)

def unrepresentableRecency : Error := .invalidArgument "records"
  "the recency of a record (last_accessed_at or updated_at) is out of range"

/-- The largest number of ids in one statement. -/
def idListChunk : ℕ := 500

section Repository

variable (w : World)

/-- The row's id, and its payload : the statements an upsert and an import end with. -/
def storePayload (ns path : String) (content : List UInt8) (encoding : String) : TxM ℕ := do
  let fileId ← selectOrFail w (Sql.selectId ns path)
  execute w databaseError fun _ => Sql.upsertPayload ⟨fileId, content, encoding⟩
  pure fileId

/-- Insert or update one entry, returning its row id. A write is a use. -/
def upsertInTx (ns path : String) (metadata : FileMetadata) (content : List UInt8)
    (encoding : String) (payloadVersion : UInt32) : TxM ℕ := do
  let updatedAt ← nowSecs w
  let now ← nowUs w
  execute w useError fun gap db => Sql.upsertFile gap ns path
    ⟨metadata, updatedAt, payloadVersion, Sql.nextUse now db ns⟩ db
  storePayload w ns path content encoding

/-- Import one row, with the use value its record stands for. -/
def importRowInTx (ns : String) (row : FullRow) : TxM ℕ :=
  match useValueOfRecord row.lastAccessedAt row.updatedAt with
  | none => StateExcept.fail unrepresentableRecency
  | some useValue => do
    execute w databaseError fun gap => Sql.upsertFile gap ns row.path
      ⟨row.metadata, row.updatedAt, row.payloadVersion, useValue⟩
    storePayload w ns row.path row.content row.encoding

/-- Import rows, returning the id of the row written for each. -/
def importRowsInTx (ns : String) (rows : List FullRow) : TxM (List ℕ) :=
  StateExcept.forEach (importRowInTx w ns) rows

/-- Record a use of the row `fileId` of `ns`. -/
def recordUse (ns : String) (fileId : ℕ) : TxM Unit := do
  let now ← nowUs w
  execute w useError fun _ => Sql.recordUse now ns fileId

def deleteIds (ids : List ℕ) : TxM Unit :=
  execute w databaseError fun _ db => .ok (Sql.deleteFiles (fun r => decide (r.id ∈ ids)) db)

/-- Evict up to `n` rows of `ns`, the oldest uses first, never a protected one. Returns the
paths of the rows deleted. -/
def evictLru (ns : String) (n : ℕ) (protectedIds : List ℕ) : TxM (List String) := do
  let protectedSet := protectedIds.dedup
  let fetch := min (n + protectedSet.length) (2 ^ 64 - 1)
  let candidates ← select w (Sql.evictionCandidates ns fetch)
  let selected := (candidates.filter fun r => decide (r.id ∉ protectedSet)).take n
  let _ ← StateExcept.forEach (deleteIds w) (chunks idListChunk (selected.map FileRow.id))
  pure (selected.map FileRow.path)

def deleteByPath (ns path : String) : TxM Bool :=
  statement w databaseError fun _ db => .ok ((db.find? ns path).isSome,
    Sql.deleteFiles (fun r => decide (Db.HasKey ns path r)) db)

/-- Delete every path of a list, returning how many rows there were. -/
def deletePathsInTx (ns : String) (paths : List String) : TxM ℕ := do
  let removed ← StateExcept.forEach (deleteByPath w ns) paths
  pure (removed.count true)

end Repository

/-! ## What a statement that succeeded did -/

section Specs

variable {w : World} {t t' : Tx}

theorem statement_ok {α : Type} {toError : SqlError → Error}
    {run : ℕ → Db → Except SqlError (α × Db)} {a : α} (h : statement w toError run t = .ok (a, t')) :
    ∃ gap, run gap t.db = .ok (a, t'.db) ∧ t'.readings = t.readings := by
  unfold statement at h
  split at h
  · exact absurd h (by simp)
  · split at h
    · next hrun =>
      obtain ⟨rfl, rfl⟩ := Prod.mk.inj (Except.ok.inj h)
      exact ⟨_, hrun, rfl⟩
    · exact absurd h (by simp)

theorem select_ok {α : Type} {run : Db → α} {a : α} (h : select w run t = .ok (a, t')) :
    a = run t.db ∧ t'.db = t.db ∧ t'.readings = t.readings := by
  obtain ⟨gap, hrun, hread⟩ := statement_ok h
  obtain ⟨rfl, hdb⟩ := Prod.mk.inj (Except.ok.inj hrun)
  exact ⟨rfl, hdb.symm, hread⟩

theorem selectOrFail_ok {α : Type} {run : Db → Except SqlError α} {a : α}
    (h : selectOrFail w run t = .ok (a, t')) :
    run t.db = .ok a ∧ t'.db = t.db ∧ t'.readings = t.readings := by
  obtain ⟨gap, hrun, hread⟩ := statement_ok h
  cases hr : run t.db with
  | error e =>
    rw [hr] at hrun
    exact absurd hrun (by simp [Except.map])
  | ok b =>
    rw [hr] at hrun
    obtain ⟨rfl, hdb⟩ := Prod.mk.inj (Except.ok.inj hrun)
    exact ⟨rfl, hdb.symm, hread⟩

theorem execute_ok {toError : SqlError → Error} {run : ℕ → Db → Except SqlError Db}
    (h : execute w toError run t = .ok ((), t')) :
    ∃ gap, run gap t.db = .ok t'.db ∧ t'.readings = t.readings := by
  obtain ⟨gap, hrun, hread⟩ := statement_ok h
  refine ⟨gap, ?_, hread⟩
  cases hr : run gap t.db with
  | error e =>
    rw [hr] at hrun
    exact absurd hrun (by simp [Except.map])
  | ok db =>
    rw [hr] at hrun
    exact congrArg Except.ok (Prod.mk.inj (Except.ok.inj hrun)).2

/-- A transaction returned `ok`, from the state its body reached, or an error with the
database as it was. -/
theorem transaction_cases {α : Type} (body : TxM α) (db : Db) :
    (∃ a t₀ t, transaction w body db = (.ok a, t.db) ∧ t₀.db = db ∧ t₀.readings = 0 ∧
      body t₀ = .ok (a, t)) ∨
      ∃ e, transaction w body db = (.error e, db) := by
  unfold transaction
  simp only
  split
  · next a t h =>
    refine Or.inl ?_
    obtain ⟨_, t₀, h₀, h⟩ := StateExcept.bind_eq_ok h
    obtain ⟨b, t₁, hbody, h⟩ := StateExcept.bind_eq_ok h
    obtain ⟨_, t₂, h₂, h⟩ := StateExcept.bind_eq_ok h
    obtain ⟨rfl, rfl⟩ := StateExcept.pure_eq_ok h
    obtain ⟨-, hdb, hread⟩ := select_ok h₀
    obtain ⟨-, hdb₂, -⟩ := select_ok h₂
    exact ⟨b, t₀, t₁, by rw [hdb₂], hdb, hread, hbody⟩
  · next e h => exact Or.inr ⟨e, rfl⟩

/-- An autocommit statement returned `ok`, or left the database as it was. -/
theorem autocommit_cases {α : Type} (body : TxM α) (db : Db) :
    (∃ a t, autocommit body db = (.ok a, t.db) ∧ body ⟨db, 0, 0⟩ = .ok (a, t)) ∨
      ∃ e, autocommit body db = (.error e, db) ∧ body ⟨db, 0, 0⟩ = .error e := by
  unfold autocommit
  split
  · next a t h => exact Or.inl ⟨a, t, rfl, h⟩
  · next e h => exact Or.inr ⟨e, rfl, h⟩

/-! ## What each function does -/

variable {ns path : String} {id : ℕ}

theorem Upserted.congr {row : FileRow} {db db₁ db₂ : Db} (h : Upserted ns path row db db₁)
    (hfiles : db₂.files = db₁.files) (hseq : db₂.seq = db₁.seq) (hv : db₂.Valid) :
    Upserted ns path row db db₂ :=
  ⟨h.hasKey, fun r => by rw [hfiles]; exact h.mem r, h.id, hseq ▸ h.seq, hv⟩

/-- The id returned is the row's that was just written, and the payload changes no file
row. -/
theorem storePayload_ok {content : List UInt8} {encoding : String} {row : FileRow} {db : Db}
    (hu : Upserted ns path row db t.db)
    (h : storePayload w ns path content encoding t = .ok (id, t')) :
    Upserted ns path row db t'.db ∧ row.id = id ∧ t'.readings = t.readings := by
  obtain ⟨fileId, t₁, hid, h⟩ := StateExcept.bind_eq_ok h
  obtain ⟨_, t₂, hp, h⟩ := StateExcept.bind_eq_ok h
  obtain ⟨rfl, rfl⟩ := StateExcept.pure_eq_ok h
  obtain ⟨hsel, hdb, hread⟩ := selectOrFail_ok hid
  obtain ⟨gap, hpay, hread'⟩ := execute_ok hp
  rw [hdb] at hpay
  obtain ⟨r, hr, hk, rfl⟩ := Sql.selectId_ok hu.valid hsel
  obtain ⟨hfiles, hseq, hv⟩ := Sql.upsertPayload_ok hu.valid hpay
  have hrow : row ∈ t.db.files := (hu.mem row).mpr (Or.inl rfl)
  exact ⟨hu.congr hfiles hseq hv, congrArg FileRow.id (hu.valid.eq_of_hasKey hrow hr hu.hasKey hk),
    hread'.trans hread⟩

/-- A write upserts a row whose use value is the newest of its namespace. -/
theorem upsertInTx_ok {metadata : FileMetadata} {content : List UInt8} {encoding : String}
    {payloadVersion : UInt32} (hv : t.db.Valid)
    (h : upsertInTx w ns path metadata content encoding payloadVersion t = .ok (id, t')) :
    ∃ row, Upserted ns path row t.db t'.db ∧ row.id = id ∧ row.lastUsedUs < useValueLimit ∧
      row.lastUsedUs = Sql.nextUse (w.nowUs t.readings) t.db ns ∧
        t'.readings = t.readings + 1 := by
  obtain ⟨updatedAt, t₁, h₁, h⟩ := StateExcept.bind_eq_ok h
  obtain ⟨now, t₂, h₂, h⟩ := StateExcept.bind_eq_ok h
  obtain ⟨_, t₃, h₃, h₄⟩ := StateExcept.bind_eq_ok h
  obtain ⟨-, rfl⟩ := Prod.mk.inj (Except.ok.inj h₁)
  obtain ⟨rfl, rfl⟩ := Prod.mk.inj (Except.ok.inj h₂)
  obtain ⟨gap, hup, hread⟩ := execute_ok h₃
  obtain ⟨hlt, rowId, hu⟩ := Sql.upsertFile_ok hv hup
  obtain ⟨hu, hid, hread'⟩ := storePayload_ok hu h₄
  exact ⟨_, hu, hid, hlt, rfl, hread'.trans hread⟩

/-- An import upserts a row with the use value its record stands for. -/
theorem importRowInTx_ok {row : FullRow} (hv : t.db.Valid)
    (h : importRowInTx w ns row t = .ok (id, t')) :
    ∃ r, Upserted ns row.path r t.db t'.db ∧ r.id = id ∧
      useValueOfRecord row.lastAccessedAt row.updatedAt = some r.lastUsedUs := by
  unfold importRowInTx at h
  cases huse : useValueOfRecord row.lastAccessedAt row.updatedAt with
  | none =>
    rw [huse] at h
    exact absurd h StateExcept.not_fail_eq_ok
  | some useValue =>
    rw [huse] at h
    obtain ⟨_, t₁, h₁, h⟩ := StateExcept.bind_eq_ok h
    obtain ⟨gap, hup, -⟩ := execute_ok h₁
    obtain ⟨-, rowId, hu⟩ := Sql.upsertFile_ok hv hup
    obtain ⟨hu, hid, -⟩ := storePayload_ok hu h
    exact ⟨_, hu, hid, rfl⟩

/-- A use value an import gives is in the range of use values. -/
theorem useValueOfRecord_range {lastAccessedAt updatedAt v : ℤ}
    (h : useValueOfRecord lastAccessedAt updatedAt = some v) : 0 ≤ v ∧ v < useValueLimit := by
  unfold useValueOfRecord checkedMul at h
  simp only at h
  generalize (if lastAccessedAt > 0 then lastAccessedAt else updatedAt) = seconds at h
  by_cases hneg : seconds < 0
  · rw [if_pos hneg] at h
    exact absurd h (by simp)
  · rw [if_neg hneg] at h
    obtain ⟨hmul, hlt⟩ := Option.filter_eq_some_iff.mp h
    split_ifs at hmul
    obtain rfl := Option.some.inj hmul
    exact ⟨by omega, by simpa using hlt⟩

theorem recordUseInTx_ok (h : recordUse w ns id t = .ok ((), t')) :
    Sql.recordUse (w.nowUs t.readings) ns id t.db = .ok t'.db := by
  obtain ⟨now, t₁, h₁, h⟩ := StateExcept.bind_eq_ok h
  obtain ⟨rfl, rfl⟩ := Prod.mk.inj (Except.ok.inj h₁)
  obtain ⟨gap, hrec, -⟩ := execute_ok h
  exact hrec

theorem deleteIds_ok {ids : List ℕ} {u : Unit} (h : deleteIds w ids t = .ok (u, t')) :
    t'.db = Sql.deleteFiles (fun r => decide (r.id ∈ ids)) t.db := by
  obtain ⟨gap, hrun, -⟩ := execute_ok h
  exact (Except.ok.inj hrun).symm

/-- Deleting ids chunk by chunk deletes them all, and nothing else. -/
theorem deleteChunks_ok {idChunks : List (List ℕ)} {us : List Unit} (hv : t.db.Valid)
    (h : StateExcept.forEach (deleteIds w) idChunks t = .ok (us, t')) :
    t'.db.Valid ∧ t'.db.seq = t.db.seq ∧
      ∀ r, r ∈ t'.db.files ↔ r ∈ t.db.files ∧ r.id ∉ idChunks.flatten := by
  refine StateExcept.forEach_ok (fun done _ s => s.db.Valid ∧ s.db.seq = t.db.seq ∧
      ∀ r, r ∈ s.db.files ↔ r ∈ t.db.files ∧ r.id ∉ done.flatten) ?_ idChunks [] [] us t t'
      ⟨hv, rfl, by simp⟩ h
  rintro done _ ids u s s' ⟨hs, hseq, hmem⟩ hstep
  rw [deleteIds_ok hstep]
  refine ⟨Sql.valid_deleteFiles hs _, hseq, fun r => ?_⟩
  rw [Sql.mem_deleteFiles, hmem r, List.flatten_append, List.mem_append, not_or]
  simp [and_assoc]

/-- The rows of a list whose ids are in another are at most as many as the ids. -/
theorem length_filter_id_le {rows : List FileRow} (h : (rows.map FileRow.id).Nodup)
    (ids : List ℕ) : (rows.filter fun r => decide (r.id ∈ ids)).length ≤ ids.dedup.length := by
  rw [← List.length_map FileRow.id]
  refine (List.subperm_of_subset (h.sublist ((List.filter_sublist).map _)) fun id hid => ?_).length_le
  obtain ⟨r, hr, rfl⟩ := List.mem_map.mp hid
  rw [List.mem_dedup]
  simpa using (List.mem_filter.mp hr).2

/-- An eviction : the `n` least unprotected rows of the namespace by use, `victims`, are
gone, and nothing else changed. -/
structure Evicted (ns : String) (n : ℕ) (protectedIds : List ℕ) (victims : List FileRow)
    (db db' : Db) : Prop where
  least : Least Sql.useKey n
    ((db.inNamespace ns).filter fun r => decide (r.id ∉ protectedIds)) victims
  mem : ∀ r, r ∈ db'.files ↔ r ∈ db.files ∧ r ∉ victims
  seq : db'.seq = db.seq
  valid : db'.Valid

/-- Eviction returns the paths of its victims, in their order. -/
theorem evictLru_ok {n : ℕ} {protectedIds : List ℕ} {paths : List String} (hv : t.db.Valid)
    (h : evictLru w ns n protectedIds t = .ok (paths, t')) :
    ∃ victims, Evicted ns n protectedIds victims t.db t'.db ∧
      paths = victims.map FileRow.path := by
  obtain ⟨candidates, t₁, h₁, h⟩ := StateExcept.bind_eq_ok h
  obtain ⟨us, t₂, h₂, h⟩ := StateExcept.bind_eq_ok h
  obtain ⟨rfl, rfl⟩ := StateExcept.pure_eq_ok h
  obtain ⟨rfl, hdb, -⟩ := select_ok h₁
  set rows := t.db.inNamespace ns with hrows
  have hids : (rows.map FileRow.id).Nodup := hv.ids.sublist ((List.filter_sublist).map _)
  have hkeys : (rows.map Sql.useKey).Nodup :=
    (hids.of_map (f := FileRow.id)).map_on fun a ha b hb hab =>
      List.inj_on_of_nodup_map hids ha hb (congrArg (fun k => (ofLex k).2) hab)
  have hfetch : ((Sql.evictionCandidates ns
      (min (n + protectedIds.dedup.length) (2 ^ 64 - 1)) t.db).filter
        fun r => decide (r.id ∉ protectedIds.dedup)).take n =
      ((sortBy Sql.useKey rows).filter fun r => decide (r.id ∉ protectedIds)).take n := by
    simp only [List.mem_dedup, Sql.evictionCandidates, Sql.limitRows, ← hrows]
    split_ifs with hsmall
    · rw [min_eq_left (by omega)]
      refine take_filter_take (p := protectedIds.dedup.length) _ le_rfl ?_
      have := length_filter_id_le (((sortBy_perm Sql.useKey rows).map FileRow.id).nodup_iff.mpr hids)
        protectedIds
      simpa using this
    · rfl
  have hleast := least_take
    ((pairwise_sortBy_lt Sql.useKey hkeys).sublist List.filter_sublist)
    ((sortBy_perm Sql.useKey rows).filter fun r => decide (r.id ∉ protectedIds)) n
  rw [hfetch] at h₂ ⊢
  obtain ⟨hv', hseq, hmem⟩ := deleteChunks_ok (hdb.symm ▸ hv) h₂
  refine ⟨_, ⟨hleast, fun r => ?_, hseq.trans (congrArg Db.seq hdb), hv'⟩, rfl⟩
  rw [hmem r, flatten_chunks (by decide), hdb]
  refine and_congr_right fun hr => not_congr ⟨fun hid => ?_, List.mem_map_of_mem⟩
  obtain ⟨q, hq, hqid⟩ := List.mem_map.mp hid
  have hqmem : q ∈ t.db.files :=
    (Db.mem_inNamespace.mp (List.mem_of_mem_filter (hleast.subset q hq))).1
  rwa [← hv.eq_of_id hqmem hr hqid]

theorem deleteByPath_ok {b : Bool} (h : deleteByPath w ns path t = .ok (b, t')) :
    b = (t.db.find? ns path).isSome ∧
      t'.db = Sql.deleteFiles (fun r => decide (Db.HasKey ns path r)) t.db := by
  obtain ⟨gap, hrun, -⟩ := statement_ok h
  obtain ⟨rfl, hdb⟩ := Prod.mk.inj (Except.ok.inj hrun)
  exact ⟨rfl, hdb.symm⟩

/-- Deleting paths one by one deletes their rows, and nothing else. -/
theorem deletePathsInTx_ok {paths : List String} {n : ℕ} (hv : t.db.Valid)
    (h : deletePathsInTx w ns paths t = .ok (n, t')) :
    t'.db.Valid ∧ ∀ r, r ∈ t'.db.files ↔ r ∈ t.db.files ∧ ¬(r.ns = ns ∧ r.path ∈ paths) := by
  obtain ⟨removed, hloop, -⟩ := StateExcept.map_eq_ok h
  refine StateExcept.forEach_ok (fun done _ s => s.db.Valid ∧
      ∀ r, r ∈ s.db.files ↔ r ∈ t.db.files ∧ ¬(r.ns = ns ∧ r.path ∈ done)) ?_ paths [] [] removed
      t t' ⟨hv, by simp⟩ hloop
  rintro done _ path b s s' ⟨hs, hmem⟩ hstep
  rw [(deleteByPath_ok hstep).2]
  refine ⟨Sql.valid_deleteFiles hs _, fun r => ?_⟩
  rw [Sql.mem_deleteFiles, hmem r, decide_eq_false_iff_not, Db.HasKey, List.mem_append,
    List.mem_singleton]
  tauto

end Specs

end LocalCache
