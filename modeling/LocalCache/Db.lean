import LocalCache.Selection
import LocalCache.StateExcept
import LocalCache.Bytes

/-!
# The database and its statements

`Db` is the two tables and the high-water mark of the `files` ids. A statement is a
function of the database, and `Db.Valid` is what SQLite's keys keep : the primary keys, the
unique `(namespace, path)`, and the foreign key of `payloads`. Every statement keeps it.

The `files` ids are AUTOINCREMENT : a new id is above every id used before, by an amount
SQLite does not promise. Use values are integers below `2 ^ 62`, by the column's CHECK.

The order of text is SQLite's BINARY collation, the order of the UTF-8 bytes (`textKey`).
-/

namespace LocalCache

/-! ## Rows -/

/-- The exclusive upper bound of a use value, also the column's CHECK. -/
def useValueLimit : ℤ := 2 ^ 62

/-- The order of text in SQLite's BINARY collation. -/
def textKey (s : String) : List ℕ := (strBytes s).map UInt8.toNat

structure FileMetadata where
  mtime : ℤ
  fileSize : UInt64
  hash : Option String
  deriving DecidableEq, Repr

/-- A row of `files`. -/
structure FileRow where
  id : ℕ
  ns : String
  path : String
  metadata : FileMetadata
  updatedAt : ℤ
  payloadVersion : UInt32
  lastUsedUs : ℤ
  deriving DecidableEq, Repr

/-- A row of `payloads`. -/
structure PayloadRow where
  fileId : ℕ
  content : List UInt8
  encoding : String
  deriving DecidableEq, Repr

/-- The tables, and the largest id `files` ever had. -/
structure Db where
  files : List FileRow
  payloads : List PayloadRow
  seq : ℕ
  deriving DecidableEq, Repr

namespace Db

def empty : Db := ⟨[], [], 0⟩

/-- The row has the unique key `(ns, path)`. -/
def HasKey (ns path : String) (r : FileRow) : Prop := r.ns = ns ∧ r.path = path

instance (ns path : String) (r : FileRow) : Decidable (HasKey ns path r) :=
  inferInstanceAs (Decidable (_ ∧ _))

/-- The row of `(ns, path)`. -/
def find? (db : Db) (ns path : String) : Option FileRow :=
  db.files.find? fun r => HasKey ns path r

/-- The rows of a namespace. -/
def inNamespace (db : Db) (ns : String) : List FileRow :=
  db.files.filter fun r => r.ns = ns

/-- What SQLite's keys keep. -/
structure Valid (db : Db) : Prop where
  ids : (db.files.map FileRow.id).Nodup
  keys : (db.files.map fun r => (r.ns, r.path)).Nodup
  payloadIds : (db.payloads.map PayloadRow.fileId).Nodup
  foreign : ∀ p ∈ db.payloads, ∃ r ∈ db.files, r.id = p.fileId
  seq : ∀ r ∈ db.files, r.id ≤ db.seq

end Db

/-- Why a statement failed : the CHECK of `last_used_us`, or anything else. -/
inductive SqlError
  | check
  | other (text : String)
  deriving DecidableEq, Repr

/-! ## Statements -/

namespace Sql

/-- `COALESCE(MAX(last_used_us), 0)` over a namespace. -/
def maxUse (db : Db) (ns : String) : ℤ :=
  ((db.inNamespace ns).map FileRow.lastUsedUs).max?.getD 0

/-- The value a use takes : the larger of the clock and one more than every value in the
namespace. -/
def nextUse (nowUs : ℕ) (db : Db) (ns : String) : ℤ := max nowUs (maxUse db ns + 1)

/-- The columns an upsert writes besides the key. -/
structure FileColumns where
  metadata : FileMetadata
  updatedAt : ℤ
  payloadVersion : UInt32
  lastUsedUs : ℤ

def FileColumns.toRow (c : FileColumns) (id : ℕ) (ns path : String) : FileRow :=
  ⟨id, ns, path, c.metadata, c.updatedAt, c.payloadVersion, c.lastUsedUs⟩

/-- `INSERT INTO files … ON CONFLICT(namespace, path) DO UPDATE`. A new id, `gap` above the next one,
is taken before the conflict is seen, so an overwrite uses one up as well. -/
def upsertFile (gap : ℕ) (ns path : String) (c : FileColumns) (db : Db) : Except SqlError Db :=
  if useValueLimit ≤ c.lastUsedUs then .error .check
  else if 2 ^ 63 ≤ db.seq + gap + 1 then .error (.other "database or disk is full")
  else
    match db.find? ns path with
    | some old => .ok { db with
        files := db.files.map fun r => if Db.HasKey ns path r then c.toRow old.id ns path else r
        seq := db.seq + gap + 1 }
    | none => .ok { db with
        files := db.files ++ [c.toRow (db.seq + gap + 1) ns path]
        seq := db.seq + gap + 1 }

/-- An upsert that goes through rewrites the row of its key, or appends one. -/
theorem upsertFile_cases {gap : ℕ} {ns path : String} {c : FileColumns} {db db' : Db}
    (h : upsertFile gap ns path c db = .ok db') : c.lastUsedUs < useValueLimit ∧
      ((∃ old, db.find? ns path = some old ∧ db' = { db with
        files := db.files.map fun r => if Db.HasKey ns path r then c.toRow old.id ns path else r
        seq := db.seq + gap + 1 }) ∨
      db.find? ns path = none ∧ db' = { db with
        files := db.files ++ [c.toRow (db.seq + gap + 1) ns path], seq := db.seq + gap + 1 }) := by
  unfold upsertFile at h
  split_ifs at h with hc hfull
  refine ⟨not_le.mp hc, ?_⟩
  cases hfind : db.find? ns path with
  | some old =>
    rw [hfind] at h
    exact Or.inl ⟨old, rfl, (Except.ok.inj h).symm⟩
  | none =>
    rw [hfind] at h
    exact Or.inr ⟨rfl, (Except.ok.inj h).symm⟩

/-- `SELECT id FROM files WHERE namespace = ?1 AND path = ?2`. -/
def selectId (ns path : String) (db : Db) : Except SqlError ℕ :=
  match db.find? ns path with
  | some r => .ok r.id
  | none => .error (.other "Query returned no rows")

/-- `INSERT INTO payloads … ON CONFLICT(file_id) DO UPDATE`. -/
def upsertPayload (p : PayloadRow) (db : Db) : Except SqlError Db :=
  if db.files.any (·.id = p.fileId) then
    .ok { db with payloads := db.payloads.filter (·.fileId ≠ p.fileId) ++ [p] }
  else .error (.other "FOREIGN KEY constraint failed")

/-- `DELETE FROM files WHERE …` with the cascade to `payloads`. -/
def deleteFiles (gone : FileRow → Bool) (db : Db) : Db :=
  { db with
    files := db.files.filter fun r => !gone r
    payloads := db.payloads.filter fun p => !db.files.any fun r => gone r && r.id = p.fileId }

/-- `RECORD_USE_SQL` : the use value of the row `id` becomes the newest of `ns`. -/
def recordUse (nowUs : ℕ) (ns : String) (id : ℕ) (db : Db) : Except SqlError Db :=
  if useValueLimit ≤ nextUse nowUs db ns ∧ db.files.any (·.id = id) then .error .check
  else .ok { db with
    files := db.files.map fun r =>
      if r.id = id then { r with lastUsedUs := nextUse nowUs db ns } else r }

/-- `UPDATE payloads SET content = ?1, encoding = ?2 WHERE file_id = ?3`. -/
def updatePayload (p : PayloadRow) (db : Db) : Db :=
  { db with payloads := db.payloads.map fun q => if q.fileId = p.fileId then p else q }

/-- `LIMIT` with a `usize` passed as an `i64` : a negative limit is none. -/
def limitRows {α : Type} (limit : ℕ) (rows : List α) : List α :=
  if limit < 2 ^ 63 then rows.take limit else rows

/-- The order of eviction : the oldest use first, then the id. -/
def useKey (r : FileRow) : ℤ ×ₗ ℕ := toLex (r.lastUsedUs, r.id)

/-- `EVICTION_CANDIDATES_SQL`. -/
def evictionCandidates (ns : String) (limit : ℕ) (db : Db) : List FileRow :=
  limitRows limit (sortBy useKey (db.inNamespace ns))

/-- `SELECT path … WHERE namespace = ?1 AND path > ?2 ORDER BY path LIMIT ?3`, as rows. -/
def pathsAfter (ns after : String) (limit : ℕ) (db : Db) : List FileRow :=
  limitRows limit (sortBy (fun r => textKey r.path)
    ((db.inNamespace ns).filter fun r => textKey after < textKey r.path))

end Sql

theorem Sql.limitRows_isPrefix {α : Type} (limit : ℕ) (rows : List α) :
    Sql.limitRows limit rows <+: rows := by
  unfold Sql.limitRows
  split_ifs
  · exact List.take_prefix limit rows
  · exact List.prefix_refl rows

theorem Sql.limitRows_map {α β : Type} (limit : ℕ) (f : α → β) (rows : List α) :
    Sql.limitRows limit (rows.map f) = (Sql.limitRows limit rows).map f := by
  unfold Sql.limitRows
  split_ifs
  · exact List.map_take.symm
  · rfl

theorem Sql.limitRows_ne_nil {α : Type} {limit : ℕ} (hlimit : 1 ≤ limit) {rows : List α}
    (h : rows ≠ []) : Sql.limitRows limit rows ≠ [] := by
  unfold Sql.limitRows
  split_ifs
  · exact fun hnil => (List.take_eq_nil_iff.mp hnil).elim (by omega) h
  · exact h

/-- A page that is shorter than the limit is the last. -/
theorem Sql.rest_eq_nil_of_length_limitRows_lt {α : Type} {limit : ℕ} {rows rest : List α}
    (h : Sql.limitRows limit rows ++ rest = rows) (hlt : (Sql.limitRows limit rows).length < limit) :
    rest = [] := by
  have hrows : Sql.limitRows limit rows = rows := by
    unfold Sql.limitRows at hlt ⊢
    split_ifs at hlt ⊢
    · rw [List.length_take] at hlt
      exact List.take_of_length_le (by omega)
    · rfl
  rw [hrows] at h
  simpa using h

/-! ## Keys determine rows -/

namespace Db.Valid

variable {db : Db} {ns path : String} {r r' : FileRow}

theorem eq_of_id (h : db.Valid) (hr : r ∈ db.files) (hr' : r' ∈ db.files) (hid : r.id = r'.id) :
    r = r' :=
  List.inj_on_of_nodup_map h.ids hr hr' hid

theorem eq_of_hasKey (h : db.Valid) (hr : r ∈ db.files) (hr' : r' ∈ db.files)
    (hk : HasKey ns path r) (hk' : HasKey ns path r') : r = r' :=
  List.inj_on_of_nodup_map h.keys hr hr' (Prod.ext (hk.1.trans hk'.1.symm) (hk.2.trans hk'.2.symm))

theorem nodup (h : db.Valid) : db.files.Nodup := h.ids.of_map _

theorem find?_eq_some (h : db.Valid) :
    db.find? ns path = some r ↔ r ∈ db.files ∧ HasKey ns path r := by
  constructor
  · intro hf
    exact ⟨List.mem_of_find?_eq_some hf, by simpa using List.find?_some hf⟩
  · rintro ⟨hr, hk⟩
    cases hf : db.find? ns path with
    | none =>
      rw [find?, List.find?_eq_none] at hf
      exact absurd hk (by simpa using hf r hr)
    | some r' =>
      have hk' : HasKey ns path r' := by simpa using List.find?_some hf
      rw [h.eq_of_hasKey hr (List.mem_of_find?_eq_some hf) hk hk']

end Db.Valid

theorem Db.find?_eq_none {db : Db} {ns path : String} :
    db.find? ns path = none ↔ ∀ r ∈ db.files, ¬HasKey ns path r := by
  simp [find?, List.find?_eq_none]

@[simp] theorem Db.mem_inNamespace {db : Db} {ns : String} {r : FileRow} :
    r ∈ db.inNamespace ns ↔ r ∈ db.files ∧ r.ns = ns := by
  simp [inNamespace]

theorem Db.valid_empty : Db.empty.Valid :=
  ⟨List.nodup_nil, List.nodup_nil, List.nodup_nil, by simp [empty], by simp [empty]⟩

/-! ## What each statement does -/

/-- An upsert of `row` : it replaces the row of its key, or it is a new row under an id
never used before. -/
structure Upserted (ns path : String) (row : FileRow) (db db' : Db) : Prop where
  hasKey : Db.HasKey ns path row
  mem : ∀ r, r ∈ db'.files ↔ r = row ∨ (r ∈ db.files ∧ ¬Db.HasKey ns path r)
  id : (∃ old ∈ db.files, Db.HasKey ns path old ∧ old.id = row.id) ∨
    db.seq < row.id ∧ ∀ r ∈ db.files, ¬Db.HasKey ns path r
  seq : db.seq ≤ db'.seq
  valid : db'.Valid

namespace Sql

variable {db db' : Db} {ns path : String}

/-- A rewriting of the rows that keeps their ids and keys. -/
theorem valid_map {f : FileRow → FileRow} {seq : ℕ} (hv : db.Valid)
    (hid : ∀ r ∈ db.files, (f r).id = r.id)
    (hkey : ∀ r ∈ db.files, ((f r).ns, (f r).path) = (r.ns, r.path)) (hseq : db.seq ≤ seq) :
    Db.Valid { db with files := db.files.map f, seq := seq } := by
  refine ⟨?_, ?_, hv.payloadIds, ?_, ?_⟩
  · rw [List.map_map]
    exact (List.map_congr_left hid).symm ▸ hv.ids
  · rw [List.map_map]
    exact (List.map_congr_left hkey).symm ▸ hv.keys
  · intro p hp
    obtain ⟨r, hr, hrid⟩ := hv.foreign p hp
    exact ⟨_, List.mem_map_of_mem hr, (hid r hr).trans hrid⟩
  · intro r hr
    obtain ⟨q, hq, rfl⟩ := List.mem_map.mp hr
    rw [hid q hq]
    exact (hv.seq q hq).trans hseq

/-- The row an upsert leaves under its key has the columns it was given. -/
theorem upsertFile_ok {gap : ℕ} {c : FileColumns} (hv : db.Valid)
    (h : upsertFile gap ns path c db = .ok db') :
    c.lastUsedUs < useValueLimit ∧ ∃ id, Upserted ns path (c.toRow id ns path) db db' := by
  obtain ⟨hc, ⟨old, hf, rfl⟩ | ⟨hf, rfl⟩⟩ := upsertFile_cases h
  · obtain ⟨hmem, hkey⟩ := hv.find?_eq_some.mp hf
    refine ⟨hc, old.id, ⟨rfl, rfl⟩, ?_, Or.inl ⟨old, hmem, hkey, rfl⟩, Nat.le_add_right _ (gap + 1),
      valid_map hv ?_ ?_ (Nat.le_add_right _ (gap + 1))⟩
    · intro r
      simp only [List.mem_map]
      constructor
      · rintro ⟨q, hq, rfl⟩
        split_ifs with hk
        · exact Or.inl rfl
        · exact Or.inr ⟨hq, hk⟩
      · rintro (rfl | ⟨hr, hk⟩)
        · exact ⟨old, hmem, if_pos hkey⟩
        · exact ⟨r, hr, if_neg hk⟩
    · intro r hr
      split_ifs with hk
      · rw [← hv.eq_of_hasKey hmem hr hkey hk]
        rfl
      · rfl
    · intro r hr
      split_ifs with hk
      · exact Prod.ext hk.1.symm hk.2.symm
      · rfl
  · have hno := Db.find?_eq_none.mp hf
    refine ⟨hc, db.seq + gap + 1, ⟨rfl, rfl⟩, ?_, Or.inr ⟨by simp only [FileColumns.toRow]; omega, hno⟩,
      by simp only; omega, ⟨?_, ?_, hv.payloadIds, ?_, ?_⟩⟩
    · intro r
      simp only [List.mem_append, List.mem_singleton]
      exact ⟨fun h => h.elim (fun hr => Or.inr ⟨hr, hno r hr⟩) Or.inl,
        fun h => h.elim Or.inr fun hr => Or.inl hr.1⟩
    · rw [List.map_append, List.map_singleton, ← List.concat_eq_append]
      refine hv.ids.concat fun hmem => ?_
      obtain ⟨r, hr, hrid⟩ := List.mem_map.mp hmem
      have := hv.seq r hr
      simp only [FileColumns.toRow] at hrid
      omega
    · rw [List.map_append, List.map_singleton, ← List.concat_eq_append]
      refine hv.keys.concat fun hmem => ?_
      obtain ⟨r, hr, hrkey⟩ := List.mem_map.mp hmem
      exact hno r hr ⟨congrArg Prod.fst hrkey, congrArg Prod.snd hrkey⟩
    · intro p hp
      obtain ⟨r, hr, hrid⟩ := hv.foreign p hp
      exact ⟨r, List.mem_append_left _ hr, hrid⟩
    · intro r hr
      rcases List.mem_append.mp hr with hr | hr
      · have := hv.seq r hr
        simp only
        omega
      · rw [List.mem_singleton.mp hr]
        exact le_rfl

theorem selectId_ok {id : ℕ} (hv : db.Valid) (h : selectId ns path db = .ok id) :
    ∃ r ∈ db.files, Db.HasKey ns path r ∧ r.id = id := by
  unfold selectId at h
  split at h
  · next r hr =>
    obtain rfl := Except.ok.inj h
    exact ⟨r, (hv.find?_eq_some.mp hr).1, (hv.find?_eq_some.mp hr).2, rfl⟩
  · exact absurd h (by simp)

theorem upsertPayload_ok {p : PayloadRow} (hv : db.Valid) (h : upsertPayload p db = .ok db') :
    db'.files = db.files ∧ db'.seq = db.seq ∧ db'.Valid := by
  unfold upsertPayload at h
  split_ifs at h with hf
  obtain rfl := Except.ok.inj h
  refine ⟨rfl, rfl, ⟨hv.ids, hv.keys, ?_, ?_, hv.seq⟩⟩
  · rw [List.map_append, List.map_singleton, ← List.concat_eq_append]
    refine (hv.payloadIds.sublist ((List.filter_sublist).map _)).concat fun hmem => ?_
    obtain ⟨q, hq, hqid⟩ := List.mem_map.mp hmem
    simp [hqid] at hq
  · intro q hq
    rcases List.mem_append.mp hq with hq | hq
    · exact hv.foreign q (List.mem_of_mem_filter hq)
    · rw [List.mem_singleton.mp hq]
      simpa using hf

theorem valid_deleteFiles (hv : db.Valid) (gone : FileRow → Bool) :
    (deleteFiles gone db).Valid := by
  refine ⟨hv.ids.sublist ((List.filter_sublist).map _), hv.keys.sublist ((List.filter_sublist).map _),
    hv.payloadIds.sublist ((List.filter_sublist).map _), ?_, fun r hr => hv.seq r
      (List.mem_of_mem_filter hr)⟩
  intro p hp
  simp only [deleteFiles, List.mem_filter, Bool.not_eq_true', List.any_eq_false] at hp
  obtain ⟨r, hr, hrid⟩ := hv.foreign p hp.1
  refine ⟨r, List.mem_filter.mpr ⟨hr, ?_⟩, hrid⟩
  have := hp.2 r hr
  simpa [hrid] using this

@[simp] theorem mem_deleteFiles {gone : FileRow → Bool} {r : FileRow} :
    r ∈ (deleteFiles gone db).files ↔ r ∈ db.files ∧ gone r = false := by
  simp [deleteFiles]

theorem le_maxUse {r : FileRow} (hr : r ∈ db.files) : r.lastUsedUs ≤ maxUse db r.ns := by
  have hmem : r.lastUsedUs ∈ (db.inNamespace r.ns).map FileRow.lastUsedUs :=
    List.mem_map_of_mem (Db.mem_inNamespace.mpr ⟨hr, rfl⟩)
  unfold maxUse
  cases hm : ((db.inNamespace r.ns).map FileRow.lastUsedUs).max? with
  | none =>
    rw [List.max?_eq_none_iff.mp hm] at hmem
    exact absurd hmem List.not_mem_nil
  | some m => exact (List.max?_eq_some_iff.mp hm).2 _ hmem

/-- The maximum is a stored value, or 0 of an empty namespace. -/
theorem maxUse_lt {limit : ℤ} (h0 : 0 < limit) (h : ∀ r ∈ db.files, r.lastUsedUs < limit) :
    maxUse db ns < limit := by
  unfold maxUse
  cases hm : ((db.inNamespace ns).map FileRow.lastUsedUs).max? with
  | none => exact h0
  | some m =>
    obtain ⟨r, hr, rfl⟩ := List.mem_map.mp (List.max?_eq_some_iff.mp hm).1
    exact h r (Db.mem_inNamespace.mp hr).1

theorem maxUse_nonneg (h : ∀ r ∈ db.files, 0 ≤ r.lastUsedUs) : 0 ≤ maxUse db ns := by
  unfold maxUse
  cases hm : ((db.inNamespace ns).map FileRow.lastUsedUs).max? with
  | none => exact le_rfl
  | some m =>
    obtain ⟨r, hr, rfl⟩ := List.mem_map.mp (List.max?_eq_some_iff.mp hm).1
    exact h r (Db.mem_inNamespace.mp hr).1

/-- A use value is above every value of the namespace. -/
theorem lt_nextUse {now : ℕ} {r : FileRow} (hr : r ∈ db.files) :
    r.lastUsedUs < nextUse now db r.ns :=
  (Int.lt_add_one_of_le (le_maxUse hr)).trans_le (le_max_right _ _)

theorem nextUse_nonneg (now : ℕ) (db : Db) (ns : String) : 0 ≤ nextUse now db ns :=
  (Int.natCast_nonneg now).trans (le_max_left _ _)

/-- A recorded use changes the use value of the row, if it is still there. -/
theorem recordUse_ok {now id : ℕ} (hv : db.Valid) (h : recordUse now ns id db = .ok db') :
    (∀ r ∈ db.files, r.id = id → nextUse now db ns < useValueLimit) ∧ db'.Valid ∧
      db'.seq = db.seq ∧ db'.files = db.files.map fun r =>
        if r.id = id then { r with lastUsedUs := nextUse now db ns } else r := by
  unfold recordUse at h
  split_ifs at h with hc
  obtain rfl := Except.ok.inj h
  refine ⟨fun r hr hid => ?_, valid_map hv ?_ ?_ le_rfl, rfl, rfl⟩
  · by_contra hlt
    exact hc ⟨not_lt.mp hlt, by simpa using ⟨r, hr, hid⟩⟩
  · intro r hr
    split_ifs <;> rfl
  · intro r hr
    split_ifs <;> rfl

end Sql

end LocalCache
