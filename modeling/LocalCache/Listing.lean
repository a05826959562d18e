import LocalCache.Effects
import Mathlib.Algebra.BigOperators.Group.List.Lemmas

/-!
# Listing and counting entries

The readers of a namespace. Some read `files` alone and some join `payloads`, so they agree on
the number of entries only in a database whose tables are kept in step. In every state that
sessions reach, they are (`Sessions.countsAgree_of_reached`) : a file row has its payload row and
a payload row its file row, whatever calls failed on the way and wherever.
-/

namespace LocalCache

/-! ## Statements -/

/-- A `u64` written to an `i64` column and read back. -/
def castSize (n : UInt64) : UInt64 := n.toInt64.toUInt64

/-- A `u32` written to an `i64` column and read back. -/
def castVersion (v : UInt32) : UInt32 := v.toUInt64.toInt64.toUInt64.toUInt32

@[simp] theorem castSize_eq (n : UInt64) : castSize n = n := UInt64.toUInt64_toInt64 n

@[simp] theorem castVersion_eq (v : UInt32) : castVersion v = v := by
  rw [castVersion, UInt64.toUInt64_toInt64, UInt32.toUInt32_toUInt64]

/-- A listed entry, without its payload. -/
structure EntryInfo where
  path : String
  metadata : FileMetadata
  updatedAt : ℤ
  payloadVersion : UInt32
  lastAccessedAt : ℤ
  encoding : String
  deriving DecidableEq, Repr

structure RawStats where
  totalEntries : ℕ
  totalPayloadBytes : ℕ
  oldestUpdatedAt : Option ℤ
  newestUpdatedAt : Option ℤ
  deriving DecidableEq, Repr

structure CacheStats where
  ns : String
  totalEntries : ℕ
  totalPayloadBytes : ℕ
  oldestUpdatedAt : Option ℤ
  newestUpdatedAt : Option ℤ
  entriesByEncoding : List (String × ℕ)
  entriesByPayloadVersion : List (UInt32 × ℕ)
  deriving DecidableEq, Repr

/-- `GROUP BY … ORDER BY` : each value with how often it occurs, in the order of a key. -/
def groupCounts {κ β : Type} [DecidableEq κ] [LinearOrder β] (key : κ → β) (l : List κ) :
    List (κ × ℕ) :=
  (sortBy key l.dedup).map fun k => (k, l.count k)

namespace Sql

variable (ns : String) (db : Db)

/-- `files f JOIN payloads p ON p.file_id = f.id`, of these rows in their order. -/
def joinRows (rows : List FileRow) : List (FileRow × PayloadRow) :=
  rows.filterMap fun r => (db.payload? r.id).map fun p => (r, p)

def countInNamespace : ℕ := (db.inNamespace ns).length

def countByVersion : List (UInt32 × ℕ) :=
  groupCounts UInt32.toNat ((db.inNamespace ns).map FileRow.payloadVersion)

def keys {T : Type} (lib : QueryLib T) (pattern : Option String) : List String :=
  (filteredRows lib ns ⟨pattern, none, none⟩ db).map FileRow.path

/-- The newest writes first; SQLite does not promise an order among equal times. -/
def listEntries : List EntryInfo :=
  (sortBy (fun row => -row.1.updatedAt) (joinRows db (db.inNamespace ns))).map fun row =>
    ⟨row.1.path, { row.1.metadata with fileSize := castSize row.1.metadata.fileSize },
      row.1.updatedAt, castVersion row.1.payloadVersion, row.1.lastUsedUs.tdiv 1000000,
      row.2.encoding⟩

def aggregateStats : RawStats :=
  let rows := joinRows db (db.inNamespace ns)
  ⟨rows.length, (rows.map fun row => row.2.content.length).sum,
    (rows.map fun row => row.1.updatedAt).min?, (rows.map fun row => row.1.updatedAt).max?⟩

def encodingBreakdown : List (String × ℕ) :=
  groupCounts textKey ((joinRows db (db.inNamespace ns)).map fun row => row.2.encoding)

/-- `load_all_full` : the entries in the order of eviction. -/
def loadAllFull : List FullRow :=
  (joinRows db (sortBy useKey (db.inNamespace ns))).map fun row =>
    ⟨row.1.path, row.2.content, row.2.encoding,
      { row.1.metadata with fileSize := castSize row.1.metadata.fileSize },
      castVersion row.1.payloadVersion, row.1.updatedAt, row.1.lastUsedUs.tdiv 1000000⟩

end Sql

/-! ## Calls -/

section Calls

variable {T : Type} (e : Engine) (w : World) (db : Db)

def entryCount : Except Error ℕ := (autocommit (select w (Sql.countInNamespace e.ns)) db).1

def entryCountByVersion : Except Error (List (UInt32 × ℕ)) :=
  (autocommit (select w (Sql.countByVersion e.ns)) db).1

def keys (lib : QueryLib T) (pattern : Option String) : Except Error (List String) :=
  (autocommit (select w fun db => Sql.keys e.ns db lib pattern) db).1

def listEntries : Except Error (List EntryInfo) :=
  (autocommit (select w (Sql.listEntries e.ns)) db).1

/-- Three statements, with nothing in between. -/
def cacheStats : Except Error CacheStats :=
  (autocommit (do
    let raw ← select w (Sql.aggregateStats e.ns)
    let byEncoding ← select w (Sql.encodingBreakdown e.ns)
    let byVersion ← select w (Sql.countByVersion e.ns)
    pure ⟨e.ns, raw.totalEntries, raw.totalPayloadBytes, raw.oldestUpdatedAt, raw.newestUpdatedAt,
      byEncoding, byVersion⟩) db).1

def loadAllFull : Except Error (List FullRow) :=
  (autocommit (select w (Sql.loadAllFull e.ns)) db).1

/-- A record of an export. -/
def FullRow.toExportRecord (encodeBase64 : List UInt8 → String) (r : FullRow) : ExportRecord :=
  ⟨r.path, encodeBase64 r.content, r.encoding, r.metadata, r.payloadVersion, r.updatedAt,
    r.lastAccessedAt⟩

def exportEntries (encodeBase64 : List UInt8 → String) : Except Error (List ExportRecord) :=
  (loadAllFull e w db).map fun rows => rows.map (FullRow.toExportRecord encodeBase64)

end Calls

/-! ## Whole tables -/

theorem sublist_filterMap_map {α β κ : Type} {g : α → Option β} {key : α → κ} {key' : β → κ} :
    ∀ {l : List α}, (∀ a ∈ l, ∀ b, g a = some b → key' b = key a) →
      ((l.filterMap g).map key').Sublist (l.map key)
  | [], _ => .slnil
  | a :: l, h => by
    have htail := sublist_filterMap_map (l := l) fun a' ha' => h a' (List.mem_cons_of_mem _ ha')
    cases hg : g a with
    | none =>
      rw [List.filterMap_cons_none hg]
      exact htail.cons _
    | some b =>
      rw [List.filterMap_cons_some hg, List.map_cons, List.map_cons, h a List.mem_cons_self b hg]
      exact htail.cons_cons _

section Counts

variable {T : Type} {db : Db} {ns : String}

theorem Db.Whole.length_joinRows (hw : db.Whole) {rows : List FileRow}
    (hrows : ∀ r ∈ rows, r ∈ db.files) : (Sql.joinRows db rows).length = rows.length := by
  induction rows with
  | nil => rfl
  | cons r rows ih =>
    obtain ⟨p, hp⟩ := hw.payload r (hrows r List.mem_cons_self)
    rw [Sql.joinRows, List.filterMap_cons_some (by rw [hp]; rfl), List.length_cons,
      List.length_cons]
    exact congrArg Nat.succ (ih fun q hq => hrows q (List.mem_cons_of_mem _ hq))

theorem Db.inNamespace_subset (db : Db) (ns : String) : ∀ r ∈ db.inNamespace ns, r ∈ db.files :=
  fun _ hr => (Db.mem_inNamespace.mp hr).1

theorem sum_groupCounts {κ β : Type} [DecidableEq κ] [LinearOrder β] (key : κ → β) (l : List κ) :
    ((groupCounts key l).map Prod.snd).sum = l.length := by
  rw [groupCounts, List.map_map, ((sortBy_perm key l.dedup).map _).sum_eq]
  exact l.sum_map_count_dedup_eq_length

/-- A whole file row has exactly one payload row. -/
theorem Db.Whole.length_payloads (hw : db.Whole) {r : FileRow} (hr : r ∈ db.files) :
    (db.payloads.filter fun p => p.fileId = r.id).length = 1 := by
  obtain ⟨p, hp⟩ := hw.payload r hr
  obtain ⟨hmem, hid⟩ := (Db.payload?_eq_some hw.valid).mp hp
  have hcount := List.count_eq_one_of_mem hw.valid.payloadIds (List.mem_map_of_mem hmem)
  rw [hid, List.count, List.countP_map, List.countP_eq_length_filter] at hcount
  rw [← hcount]
  congr 2

/-- Every count of a namespace is `n`, on a database that answers. -/
structure CountsAgree (lib : QueryLib T) (encodeBase64 : List UInt8 → String) (e : Engine)
    (w : World) (db : Db) (n : ℕ) : Prop where
  entryCount : entryCount e w db = .ok n
  keys : ∃ paths, keys e w db lib none = .ok paths ∧ paths.length = n
  listEntries : ∃ entries, listEntries e w db = .ok entries ∧ entries.length = n
  cacheStats : ∃ stats, cacheStats e w db = .ok stats ∧ stats.totalEntries = n ∧
    (stats.entriesByEncoding.map Prod.snd).sum = n ∧
      (stats.entriesByPayloadVersion.map Prod.snd).sum = n
  byVersion : ∃ counts, entryCountByVersion e w db = .ok counts ∧ (counts.map Prod.snd).sum = n
  exportEntries : ∃ records, exportEntries e w db encodeBase64 = .ok records ∧ records.length = n

theorem autocommit_select {α : Type} {w : World} (hfault : ∀ k, w.fault k = none) (run : Db → α) :
    (autocommit (select w run) db).1 = .ok (run db) := by
  rw [autocommit, select_of_fault (hfault _)]

theorem Db.Whole.countsAgree (hw : db.Whole) (lib : QueryLib T)
    (encodeBase64 : List UInt8 → String) (e : Engine) {w : World}
    (hfault : ∀ k, w.fault k = none) :
    CountsAgree lib encodeBase64 e w db (Sql.countInNamespace e.ns db) := by
  have hjoin := hw.length_joinRows (db.inNamespace_subset e.ns)
  have hversion : ((Sql.countByVersion e.ns db).map Prod.snd).sum = Sql.countInNamespace e.ns db := by
    rw [Sql.countByVersion, sum_groupCounts, List.length_map]
    rfl
  have hencoding : ((Sql.encodingBreakdown e.ns db).map Prod.snd).sum =
      Sql.countInNamespace e.ns db := by
    rw [Sql.encodingBreakdown, sum_groupCounts, List.length_map, hjoin]
    rfl
  refine ⟨autocommit_select hfault _, ⟨_, autocommit_select hfault _, ?_⟩,
    ⟨_, autocommit_select hfault _, ?_⟩, ?_, ⟨_, autocommit_select hfault _, hversion⟩, ?_⟩
  · simp [Sql.keys, Sql.filteredRows, PreparedPathFilters.matches, Sql.countInNamespace]
  · rw [Sql.listEntries, List.length_map, length_sortBy, hjoin]
    rfl
  · let raw := Sql.aggregateStats e.ns db
    refine ⟨⟨e.ns, raw.totalEntries, raw.totalPayloadBytes, raw.oldestUpdatedAt, raw.newestUpdatedAt,
      Sql.encodingBreakdown e.ns db, Sql.countByVersion e.ns db⟩, ?_, hjoin, hencoding, hversion⟩
    rw [LocalCache.cacheStats, autocommit, StateExcept.bind_of_ok (select_of_fault (hfault _)),
      StateExcept.bind_of_ok (select_of_fault (hfault _)),
      StateExcept.bind_of_ok (select_of_fault (hfault _))]
    rfl
  · refine ⟨_, by rw [LocalCache.exportEntries, loadAllFull, autocommit_select hfault]; rfl, ?_⟩
    rw [List.length_map, Sql.loadAllFull, List.length_map,
      hw.length_joinRows fun r hr => db.inNamespace_subset e.ns r (mem_sortBy _ |>.mp hr),
      length_sortBy]
    rfl

end Counts

/-! ## Every state reached -/

/-- No orphans in any state that sessions of any engines reach from a fresh database, whatever
their calls, their interleaving and their faults : the two tables are in step, and every count
of a namespace is the same. -/
theorem Sessions.countsAgree_of_reached {T : Type} (host : Host T) (engines : ℕ → Engine)
    (events : List (SessionEvent T)) :
    let db := (runFrom (Sessions.step host) (Sessions.init engines Db.empty) events).db
    (∀ r ∈ db.files, (db.payloads.filter fun p => p.fileId = r.id).length = 1) ∧
      (∀ p ∈ db.payloads, ∃ r ∈ db.files, r.id = p.fileId) ∧
      (db.files.map fun r => (r.ns, r.path)).Nodup ∧
      ∀ (encodeBase64 : List UInt8 → String) (e : Engine),
        ∃ n, ∀ w : World, (∀ k, w.fault k = none) →
          CountsAgree host.query encodeBase64 e w db n := by
  intro db
  have hw : db.Whole := (Sessions.Reached.whole ⟨events, rfl⟩).1
  exact ⟨fun r hr => hw.length_payloads hr, hw.valid.foreign, hw.valid.keys,
    fun encodeBase64 e => ⟨_, fun w hfault => hw.countsAgree host.query encodeBase64 e hfault⟩⟩

end LocalCache
