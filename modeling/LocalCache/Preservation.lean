import LocalCache.Migration

/-!
# A migration preserves the cache

An `Entry` is what a row of any version says about the cache : `Content.entries` reads a
database of any version as a list of entries, with `mtime` in nanoseconds and the defaults of
columns the version does not have. Each step keeps the entries (`Kept`), so a chain of steps
does, whatever the version it starts from. A step that succeeds ran all its checks, but the
entries are kept by what its statements do.
-/

namespace LocalCache

/-! ## What the rows of each version say -/

/-- An entry of the cache, with the content and the encoding of its payload. -/
structure Entry where
  id : ℤ
  ns : SqlValue
  path : SqlValue
  mtime : SqlValue
  fileSize : SqlValue
  hash : SqlValue
  updatedAt : SqlValue
  payloadVersion : SqlValue
  payload : Option (SqlValue × SqlValue)
  deriving DecidableEq, Repr

/-- Seconds as nanoseconds. -/
def nanoseconds : SqlValue → SqlValue
  | .integer s => .integer (s * nanosecondsPerSecond)
  | v => v

def FilesV1.entry (r : FilesV1) (p : Option PayloadsV1) : Entry :=
  ⟨r.id, .text "default", r.path, nanoseconds r.mtime, r.fileSize, r.hash, r.updatedAt, .integer 0,
    p.map fun p => (p.content, .text "raw")⟩

def FilesV2.entry (r : FilesV2) (p : Option PayloadsV1) : Entry :=
  ⟨r.id, r.ns, r.path, nanoseconds r.mtime, r.fileSize, r.hash, r.updatedAt, .integer 0,
    p.map fun p => (p.content, .text "raw")⟩

def FilesV3.entry (r : FilesV3) (p : Option PayloadsV3) : Entry :=
  ⟨r.id, r.ns, r.path, nanoseconds r.mtime, r.fileSize, r.hash, r.updatedAt, r.payloadVersion,
    p.map fun p => (p.content, p.encoding)⟩

def FilesV4.entry (r : FilesV4) (p : Option PayloadsV3) : Entry := r.toFilesV3.entry p

/-- From version 5 on, `mtime` is in nanoseconds. -/
def FilesV4.entryV5 (r : FilesV4) (p : Option PayloadsV3) : Entry :=
  { r.entry p with mtime := r.mtime }

def FilesV6.entry (r : FilesV6) (p : Option PayloadsV3) : Entry :=
  { r.toFilesV3.entry p with mtime := r.mtime }

/-- The entries of a database of this version. -/
def Content.entries (version : ℕ) : Content → List Entry
  | .v1 db => db.leftJoin FilesV1.entry
  | .v2 db => db.leftJoin FilesV2.entry
  | .v3 db => db.leftJoin FilesV3.entry
  | .v4 db => db.leftJoin (if version = 4 then FilesV4.entry else FilesV4.entryV5)
  | .v6 db => db.leftJoin FilesV6.entry
  | .fresh | .other _ => []

section HighWater

variable {F P : Type} [Rowid F]

/-- The sequence's value for `files`. -/
def Store.sequenceOf (db : Store F P) : ℤ :=
  match db.sequence.lookup "files" with
  | some (.integer n) => n
  | _ => 0

/-- The largest id the sequence and the rows show to have been used. AUTOINCREMENT hands out
only ids above it. -/
def Store.highWater (db : Store F P) : ℤ := (db.files.map rowid).foldr max db.sequenceOf

theorem foldr_max_mono {a b : ℤ} (h : a ≤ b) : ∀ ids : List ℤ, ids.foldr max a ≤ ids.foldr max b
  | [] => h
  | _ :: ids => max_le_max le_rfl (foldr_max_mono h ids)

end HighWater

def Content.highWater : Content → ℤ
  | .v1 db => db.highWater
  | .v2 db => db.highWater
  | .v3 db => db.highWater
  | .v4 db => db.highWater
  | .v6 db => db.highWater
  | .fresh | .other _ => 0

/-! ## What a step keeps -/

section Kept

variable {F P F' P' F'' P'' : Type} [Rowid F] [Rowid P] [Rowid F'] [Rowid P'] [Rowid F''] [Rowid P'']

/-- A step keeps the entries, the public user indexes, and the ids it must not hand out again. -/
structure Kept (entry : F → Option P → Entry) (entry' : F' → Option P' → Entry)
    (db : Store F P) (db' : Store F' P') : Prop where
  entries : db'.leftJoin entry' = db.leftJoin entry
  userIndexes : db'.indexes.filter IndexDef.isUser = db.indexes.filter IndexDef.isUser
  highWater : db.highWater ≤ db'.highWater

theorem Kept.trans {entry : F → Option P → Entry} {entry' : F' → Option P' → Entry}
    {entry'' : F'' → Option P'' → Entry} {db : Store F P} {db' : Store F' P'} {db'' : Store F'' P''}
    (h : Kept entry entry' db db') (h' : Kept entry' entry'' db' db'') :
    Kept entry entry'' db db'' where
  entries := h'.entries.trans h.entries
  userIndexes := h'.userIndexes.trans h.userIndexes
  highWater := h.highWater.trans h'.highWater

/-- A step that rewrites the rows one by one, and neither their ids nor the sequence. -/
theorem Kept.of_map {entry : F → Option P → Entry} {entry' : F' → Option P' → Entry}
    {db : Store F P} {indexes : List IndexDef} {f : F → F'} {g : P → P'}
    (hf : ∀ r, rowid (f r) = rowid r) (hg : ∀ p, rowid (g p) = rowid p)
    (hentry : ∀ r ∈ db.files, ∀ p, entry' (f r) (Option.map g p) = entry r p)
    (hindexes : indexes.filter IndexDef.isUser = db.indexes.filter IndexDef.isUser) :
    Kept entry entry' db ⟨db.files.map f, db.payloads.map g, db.sequence, indexes⟩ where
  entries := by
    rw [Store.leftJoin, List.map_map]
    refine List.map_congr_left fun r hr => ?_
    rw [Function.comp_apply, List.find?_map]
    simp only [Function.comp_def, hf, hg]
    exact hentry r hr _
  userIndexes := hindexes
  highWater := by
    have hids : (db.files.map f).map rowid = db.files.map rowid := by
      rw [List.map_map]
      exact List.map_congr_left fun r _ => hf r
    rw [Store.highWater, Store.highWater, hids]
    exact le_rfl

end Kept

/-! ## The steps -/

section Steps

variable {S : Sqlite} {faults : Faults} {n n' : ℕ}

theorem sql_ok {α : Type} {outcome : Except SchemaError α} {a : α}
    (h : sql faults outcome n = .ok (a, n')) : outcome = .ok a := by
  unfold sql at h
  split at h
  · exact absurd h (by simp)
  · cases outcome with
    | error e => exact absurd h (by simp [Except.map])
    | ok b => rw [(Prod.mk.inj (Except.ok.inj h)).1]

/-- What a sequence of a statement and the rest did. -/
theorem sql_bind_ok {α β : Type} {outcome : Except SchemaError α} {f : α → StepM β} {b : β}
    (h : (sql faults outcome >>= f) n = .ok (b, n')) : ∃ a k, outcome = .ok a ∧ f a k = .ok (b, n') := by
  obtain ⟨a, k, ha, hf⟩ := StateExcept.bind_eq_ok h
  exact ⟨a, k, sql_ok ha, hf⟩

/-- A statement without a value, and the hook after it. -/
theorem step_ok {α : Type} {x : StepM Unit} {point : MigrationPoint} {y : StepM α} {a : α}
    (h : (do x; hook faults point; y) n = .ok (a, n')) : ∃ k, y k = .ok (a, n') := by
  obtain ⟨_, hrest⟩ := StateExcept.then_eq_ok h
  exact StateExcept.then_eq_ok hrest

theorem require_ok {holds : Bool} {reason : String} {u : Unit}
    (h : require faults holds reason n = .ok (u, n')) : holds = true := by
  unfold require at h
  have hok := sql_ok h
  split_ifs at hok with hholds
  exact hholds

theorem sequenceOf_le_of_validateSequence {F P : Type} [Rowid F] {physical filesHighWater : ℤ}
    {db : Store F P} (h : validateSequence physical db = .ok filesHighWater) :
    db.sequenceOf ≤ filesHighWater := by
  unfold validateSequence at h
  by_cases hcontract : db.sequence.length > 1 ∨ (db.sequence.any fun row => row.1 ≠ "files") = true
  · rw [if_pos hcontract] at h
    exact absurd h (by simp)
  rw [if_neg hcontract] at h
  unfold Store.sequenceOf
  rcases hrows : db.sequence with _ | ⟨⟨name, value⟩, rest⟩
  · rw [hrows] at h
    simp only at h
    split_ifs at h
    exact (Except.ok.inj h).le
  · rw [hrows] at h hcontract
    obtain rfl : name = "files" := by
      by_contra hname
      exact hcontract (Or.inr (by simp [hname]))
    rw [List.lookup_cons_self]
    cases value with
    | integer sequence =>
      simp only at h ⊢
      by_cases hneg : 0 ≤ sequence
      · rw [if_pos hneg] at h
        rw [← Except.ok.inj h]
        split
        · exact le_rfl
        · exact le_max_right _ _
      · rw [if_neg hneg] at h
        exact absurd h (by simp)
    | null => exact absurd h (by simp)
    | real bits => exact absurd h (by simp)
    | text t => exact absurd h (by simp)
    | blob bytes => exact absurd h (by simp)

theorem filter_isUser_append (indexes : List IndexDef) {index : IndexDef}
    (h : index.isUser = false) :
    (indexes ++ [index]).filter IndexDef.isUser = indexes.filter IndexDef.isUser := by
  rw [List.filter_append, List.filter_singleton, h, cond_false, List.append_nil]

/-- Dropping an index that is not a public user index keeps those. -/
theorem filter_isUser_dropIndex {name : String} {indexes indexes' : List IndexDef}
    (hname : "lc_user_".toList.isPrefixOf name.toList = false)
    (h : dropIndex name indexes = .ok indexes') :
    indexes'.filter IndexDef.isUser = indexes.filter IndexDef.isUser := by
  unfold dropIndex at h
  split_ifs at h
  obtain rfl := Except.ok.inj h
  rw [List.filter_filter]
  refine List.filter_congr fun index _ => ?_
  by_cases heq : index.name = name
  · rw [IndexDef.isUser, heq, hname, Bool.false_and]
  · simp [heq]

/-- Before version 4 there are no public user indexes. -/
theorem userIndexes_eq_nil {F P : Type} {physical : ℤ} {version : ℕ} {db : Store F P}
    (hversion : version < 4) (h : validateObjectPolicy physical version db = .ok ()) :
    db.indexes.filter IndexDef.isUser = [] := by
  unfold validateObjectPolicy at h
  split_ifs at h with hunexpected
  rw [List.filter_eq_nil_iff]
  intro index hindex huser
  have hname : index.name ∈ requiredIndexes version := by
    by_contra hname
    refine hunexpected (List.any_eq_true.mpr ⟨index, hindex, ?_⟩)
    simp [hname, not_le.mpr hversion]
  have hbuiltin : ∀ v < 4, ∀ name ∈ requiredIndexes v, "lc_user_".toList.isPrefixOf name.toList = false := by
    decide
  rw [IndexDef.isUser, hbuiltin version hversion _ hname] at huser
  exact absurd huser (by simp)

/-- The sequence as a value for `files`. -/
theorem le_lookup_restoreSequence {fileCount : ℕ} {filesHighWater : ℤ}
    {rows sequence : List (String × SqlValue)}
    (h : restoreSequence faults fileCount filesHighWater (rows.filter fun row =>
      row.1 ∉ ["files", "__localcache_rfc010_files_v2"]) n = .ok (sequence, n'))
    {F P : Type} {files : List F} {payloads : List P} {indexes : List IndexDef} :
    filesHighWater ≤ Store.sequenceOf ⟨files, payloads, sequence, indexes⟩ := by
  have hnone : (rows.filter fun row =>
      row.1 ∉ ["files", "__localcache_rfc010_files_v2"]).lookup "files" = none := by
    rw [List.lookup_eq_none_iff]
    intro row hrow
    have hname := (List.mem_filter.mp hrow).2
    have hne : row.1 ≠ "files" := fun heq => by simp [heq] at hname
    simpa using hne.symm
  unfold restoreSequence at h
  unfold Store.sequenceOf
  split_ifs at h with hany
  · obtain rfl := Except.ok.inj (sql_ok h)
    simp only [List.lookup_append, hnone, List.lookup_cons_self, Option.none_or]
    exact le_rfl
  · obtain ⟨rfl, -⟩ := StateExcept.pure_eq_ok h
    simp only [hnone]
    omega

theorem kept_migrateV1ToV2 {filesHighWater : ℤ} {db : Store FilesV1 PayloadsV1}
    {db' : Store FilesV2 PayloadsV1} (hseq : db.sequenceOf ≤ filesHighWater)
    (huser : db.indexes.filter IndexDef.isUser = [])
    (h : migrateV1ToV2 faults filesHighWater db n = .ok (db', n')) :
    Kept FilesV1.entry FilesV2.entry db db' := by
  unfold migrateV1ToV2 at h
  obtain ⟨_, h⟩ := step_ok h
  obtain ⟨_, h⟩ := step_ok h
  obtain ⟨files, _, hfiles, h⟩ := sql_bind_ok h
  obtain ⟨_, h⟩ := StateExcept.then_eq_ok h
  obtain ⟨payloads, _, hpayloads, h⟩ := sql_bind_ok h
  obtain ⟨_, h⟩ := StateExcept.then_eq_ok h
  -- the checks of the copies, the drops and the renames
  obtain ⟨_, h⟩ := step_ok h
  obtain ⟨_, h⟩ := step_ok h
  obtain ⟨_, h⟩ := step_ok h
  obtain ⟨_, h⟩ := step_ok h
  obtain ⟨_, h⟩ := step_ok h
  obtain ⟨cleared, _, hcleared, h⟩ := sql_bind_ok h
  obtain ⟨fileCount, _, hcount, h⟩ := sql_bind_ok h
  obtain ⟨sequence, _, hsequence, h⟩ := StateExcept.bind_eq_ok h
  obtain ⟨_, h⟩ := StateExcept.then_eq_ok h
  obtain ⟨store, _, hstore, h⟩ := sql_bind_ok h
  obtain ⟨_, h⟩ := step_ok h
  obtain ⟨rfl, -⟩ := StateExcept.pure_eq_ok h
  obtain rfl := Except.ok.inj hfiles
  obtain rfl := Except.ok.inj hpayloads
  obtain rfl := Except.ok.inj hcleared
  obtain rfl := Except.ok.inj hcount
  obtain rfl := Except.ok.inj hstore
  refine ⟨?_, ?_, ?_⟩
  · rw [Store.leftJoin, List.map_map]
    exact List.map_congr_left fun r _ => rfl
  · rw [huser]
    rfl
  · have hids : (db.files.map FilesV1.shadow).map rowid = db.files.map rowid := by
      rw [List.map_map]
      rfl
    rw [Store.highWater, Store.highWater, hids]
    exact foldr_max_mono (hseq.trans (le_lookup_restoreSequence hsequence)) _

theorem kept_migrateV2ToV3 {db : Store FilesV2 PayloadsV1} {db' : Store FilesV3 PayloadsV3}
    (h : migrateV2ToV3 faults db n = .ok (db', n')) :
    Kept FilesV2.entry FilesV3.entry db db' := by
  unfold migrateV2ToV3 at h
  obtain ⟨files, _, hfiles, h⟩ := sql_bind_ok h
  obtain ⟨payloads, _, hpayloads, h⟩ := sql_bind_ok h
  obtain ⟨_, h⟩ := step_ok h
  obtain ⟨rfl, -⟩ := StateExcept.pure_eq_ok h
  obtain rfl := Except.ok.inj hfiles
  obtain rfl := Except.ok.inj hpayloads
  refine .of_map (fun _ => rfl) (fun _ => rfl) (fun r _ p => ?_) rfl
  cases p <;> rfl

/-- The built-in indexes are not public user indexes. -/
theorem kept_migrateV3ToV4 {db : Store FilesV3 PayloadsV3} {db' : Store FilesV4 PayloadsV3}
    (h : migrateV3ToV4 faults db n = .ok (db', n')) :
    Kept FilesV3.entry FilesV4.entry db db' := by
  unfold migrateV3ToV4 at h
  obtain ⟨files, _, hfiles, h⟩ := sql_bind_ok h
  obtain ⟨indexes, _, hindexes, h⟩ := sql_bind_ok h
  obtain ⟨_, h⟩ := step_ok h
  obtain ⟨rfl, -⟩ := StateExcept.pure_eq_ok h
  obtain rfl := Except.ok.inj hfiles
  obtain rfl := Except.ok.inj hindexes
  rw [← List.map_id db.payloads]
  refine .of_map (fun _ => rfl) (fun _ => rfl) (fun r _ p => ?_) ?_
  · rw [Option.map_id]
    rfl
  · exact filter_isUser_append _ rfl

/-- The seconds of a version 4 `mtime`, whose nanoseconds are an `i64`. -/
def HasSeconds (mtime : SqlValue) : Prop := ∃ s, mtime = .integer s ∧ InI64 (s * nanosecondsPerSecond)

theorem kept_migrateV4ToV5 {db db' : Store FilesV4 PayloadsV3}
    (h : migrateV4ToV5 S faults db n = .ok (db', n')) :
    Kept FilesV4.entry FilesV4.entryV5 db db' ∧ ∀ r ∈ db.files, HasSeconds r.mtime := by
  unfold migrateV4ToV5 at h
  obtain ⟨_, _, hinteger, h⟩ := StateExcept.bind_eq_ok h
  obtain ⟨_, _, hrange, h⟩ := StateExcept.bind_eq_ok h
  obtain ⟨old, _, -, h⟩ := sql_bind_ok h
  obtain ⟨_, h⟩ := StateExcept.then_eq_ok h
  obtain ⟨files, _, hfiles, h⟩ := sql_bind_ok h
  obtain ⟨_, h⟩ := StateExcept.then_eq_ok h
  obtain ⟨_, h⟩ := StateExcept.then_eq_ok h
  obtain ⟨_, h⟩ := StateExcept.then_eq_ok h
  obtain ⟨rfl, -⟩ := StateExcept.pure_eq_ok h
  obtain rfl := Except.ok.inj hfiles
  have hinteger := require_ok hinteger
  have hrange := require_ok hrange
  have hseconds : ∀ r ∈ db.files, HasSeconds r.mtime := by
    intro r hr
    obtain ⟨s, hs⟩ := SqlValue.isInteger_iff.mp (List.all_eq_true.mp hinteger r hr)
    refine ⟨s, hs, ?_⟩
    rw [Bool.not_eq_true', List.any_eq_false] at hrange
    have hr := hrange r hr
    rw [decide_eq_true_eq, not_or, hs, S.rank_integer, not_lt, not_lt] at hr
    obtain ⟨hmin, hmax⟩ := hr
    have hmin : mtimeSecondsMin ≤ s := by exact_mod_cast hmin
    have hmax : s ≤ mtimeSecondsMax := by exact_mod_cast hmax
    unfold mtimeSecondsMin at hmin
    unfold mtimeSecondsMax at hmax
    unfold InI64 nanosecondsPerSecond
    omega
  refine ⟨?_, hseconds⟩
  have hkept : Kept FilesV4.entry FilesV4.entryV5 db ⟨db.files.map (FilesV4.toNanoseconds S),
      db.payloads.map id, db.sequence, db.indexes⟩ := by
    refine .of_map (fun _ => rfl) (fun _ => rfl) (fun r hr p => ?_) rfl
    obtain ⟨s, hs, hi64⟩ := hseconds r hr
    have hmul : S.affinity (S.arith .mul r.mtime (.integer nanosecondsPerSecond)) =
        nanoseconds r.mtime := by
      rw [hs, S.arith_integer .mul s nanosecondsPerSecond hi64, S.affinity_integer]
      rfl
    rw [Option.map_id]
    unfold FilesV4.entryV5 FilesV4.toNanoseconds
    simp only [hmul]
    rfl
  rwa [List.map_id] at hkept

theorem backfill_ok {files : List FilesV4} {updated : List (FilesV4 × SqlValue)}
    (h : backfill S files = .ok updated) :
    updated = files.map fun r => (r, backfilledValue S files r) := by
  unfold backfill at h
  simp only at h
  split_ifs at h
  exact (Except.ok.inj h).symm

/-- What the step to version 6 did. -/
theorem migrateV5ToV6_ok {db : Store FilesV4 PayloadsV3} {db' : Store FilesV6 PayloadsV3}
    (h : migrateV5ToV6 S faults db n = .ok (db', n')) :
    (db.files.any fun r =>
      decide (S.rank (r.seconds S) < 0 ∨ (recencySecondsMax : ℚ) < S.rank (r.seconds S))) = false ∧
    ∃ updated indexes₁ indexes₂, backfill S db.files = .ok updated ∧
      dropIndex "idx_files_lru" db.indexes = .ok indexes₁ ∧
      dropIndex "idx_files_namespace_path" indexes₁ = .ok indexes₂ ∧
      db' = ⟨updated.map fun u => ⟨u.1.toFilesV3, u.2⟩, db.payloads, db.sequence, indexes₂ ++
        [⟨"idx_files_use", "CREATE INDEX idx_files_use ON files(namespace, last_used_us)"⟩]⟩ := by
  unfold migrateV5ToV6 at h
  obtain ⟨_, h⟩ := step_ok h
  obtain ⟨_, _, hrange, h⟩ := sql_bind_ok h
  obtain ⟨updated, _, hupdated, h⟩ := sql_bind_ok h
  obtain ⟨_, h⟩ := StateExcept.then_eq_ok h
  obtain ⟨indexes₁, _, hindexes₁, h⟩ := sql_bind_ok h
  obtain ⟨indexes₂, _, hindexes₂, h⟩ := sql_bind_ok h
  obtain ⟨_, h⟩ := StateExcept.then_eq_ok h
  obtain ⟨files, _, hfiles, h⟩ := sql_bind_ok h
  obtain ⟨_, h⟩ := StateExcept.then_eq_ok h
  obtain ⟨store, _, hstore, h⟩ := sql_bind_ok h
  obtain ⟨_, h⟩ := step_ok h
  obtain ⟨rfl, -⟩ := StateExcept.pure_eq_ok h
  obtain rfl := Except.ok.inj hfiles
  obtain rfl := Except.ok.inj hstore
  split_ifs at hrange with hany
  exact ⟨Bool.eq_false_iff.mpr hany, updated, indexes₁, indexes₂, hupdated, hindexes₁, hindexes₂, rfl⟩

theorem kept_migrateV5ToV6 {db : Store FilesV4 PayloadsV3} {db' : Store FilesV6 PayloadsV3}
    (h : migrateV5ToV6 S faults db n = .ok (db', n')) :
    Kept FilesV4.entryV5 FilesV6.entry db db' := by
  obtain ⟨-, updated, indexes₁, indexes₂, hupdated, hindexes₁, hindexes₂, rfl⟩ := migrateV5ToV6_ok h
  have hrows := backfill_ok hupdated
  have hkept : Kept FilesV4.entryV5 FilesV6.entry db ⟨db.files.map fun r =>
      (⟨r.toFilesV3, backfilledValue S db.files r⟩ : FilesV6), db.payloads.map id, db.sequence,
        indexes₂ ++ [⟨"idx_files_use", "CREATE INDEX idx_files_use ON files(namespace, last_used_us)"⟩]⟩ := by
    refine .of_map (fun _ => rfl) (fun _ => rfl) (fun r _ p => by rw [Option.map_id]; rfl) ?_
    rw [filter_isUser_append _ rfl, filter_isUser_dropIndex rfl hindexes₂,
      filter_isUser_dropIndex rfl hindexes₁]
  rw [hrows, List.map_map]
  rwa [List.map_id] at hkept

/-! ## The chain of steps -/

/-- Every `mtime` of the entries is an `i64` of nanoseconds. -/
def AllNanoseconds (entries : List Entry) : Prop :=
  ∀ en ∈ entries, ∃ t, en.mtime = .integer t ∧ InI64 t

theorem hasSeconds_of_nanoseconds {mtime : SqlValue} {t : ℤ} (h : nanoseconds mtime = .integer t)
    (ht : InI64 t) : HasSeconds mtime := by
  cases mtime with
  | integer s => exact ⟨s, rfl, SqlValue.integer.inj h ▸ ht⟩
  | null => exact absurd h (by simp [nanoseconds])
  | real bits => exact absurd h (by simp [nanoseconds])
  | text t => exact absurd h (by simp [nanoseconds])
  | blob bytes => exact absurd h (by simp [nanoseconds])

theorem kept_migrateFromV4 {db : Store FilesV4 PayloadsV3} {db' : Store FilesV6 PayloadsV3}
    (h : migrateFromV4 S faults db n = .ok (db', n')) :
    Kept FilesV4.entry FilesV6.entry db db' ∧ AllNanoseconds (db.leftJoin FilesV4.entry) := by
  obtain ⟨db₅, _, h₅, h₆⟩ := StateExcept.bind_eq_ok h
  obtain ⟨hkept, hseconds⟩ := kept_migrateV4ToV5 h₅
  refine ⟨hkept.trans (kept_migrateV5ToV6 h₆), fun en hen => ?_⟩
  obtain ⟨r, hr, rfl⟩ := List.mem_map.mp hen
  obtain ⟨s, hs, hi64⟩ := hseconds r hr
  refine ⟨s * nanosecondsPerSecond, ?_, hi64⟩
  show nanoseconds r.mtime = _
  rw [hs]
  rfl

theorem kept_migrateFromV3 {db : Store FilesV3 PayloadsV3} {db' : Store FilesV6 PayloadsV3}
    (h : migrateFromV3 S faults db n = .ok (db', n')) :
    Kept FilesV3.entry FilesV6.entry db db' ∧ AllNanoseconds (db.leftJoin FilesV3.entry) := by
  obtain ⟨db₄, _, h₄, h₆⟩ := StateExcept.bind_eq_ok h
  have hkept := kept_migrateV3ToV4 h₄
  obtain ⟨hrest, hnanos⟩ := kept_migrateFromV4 h₆
  exact ⟨hkept.trans hrest, hkept.entries ▸ hnanos⟩

theorem kept_migrateFromV2 {db : Store FilesV2 PayloadsV1} {db' : Store FilesV6 PayloadsV3}
    (h : migrateFromV2 S faults db n = .ok (db', n')) :
    Kept FilesV2.entry FilesV6.entry db db' ∧ AllNanoseconds (db.leftJoin FilesV2.entry) := by
  obtain ⟨db₃, _, h₃, h₆⟩ := StateExcept.bind_eq_ok h
  have hkept := kept_migrateV2ToV3 h₃
  obtain ⟨hrest, hnanos⟩ := kept_migrateFromV3 h₆
  exact ⟨hkept.trans hrest, hkept.entries ▸ hnanos⟩

theorem kept_migrateFromV1 {filesHighWater : ℤ} {db : Store FilesV1 PayloadsV1}
    {db' : Store FilesV6 PayloadsV3} (hseq : db.sequenceOf ≤ filesHighWater)
    (huser : db.indexes.filter IndexDef.isUser = [])
    (h : migrateFromV1 S faults filesHighWater db n = .ok (db', n')) :
    Kept FilesV1.entry FilesV6.entry db db' ∧ AllNanoseconds (db.leftJoin FilesV1.entry) := by
  obtain ⟨db₂, _, h₂, h₆⟩ := StateExcept.bind_eq_ok h
  have hkept := kept_migrateV1ToV2 hseq huser h₂
  obtain ⟨hrest, hnanos⟩ := kept_migrateFromV2 h₆
  exact ⟨hkept.trans hrest, hkept.entries ▸ hnanos⟩

/-! ## Initialization -/

/-- What a migration from `version` did : the entries are those of the start, no `mtime` in
seconds overflowed, the public user indexes are as they were, and no id is forgotten. -/
structure Migrated (version : ℕ) (start : Content) (final : Store FilesV6 PayloadsV3) : Prop where
  entries : final.leftJoin FilesV6.entry = start.entries version
  seconds : version ≤ 4 → ∀ r ∈ start.startRows, HasSeconds r.oldMtime
  userIndexes : final.indexes.filter IndexDef.isUser = start.userIndexes
  highWater : start.highWater ≤ final.highWater

theorem validateVersion_eq_ok_iff {F P : Type} [Rowid F] [Rowid P] {physical filesHighWater : ℤ}
    {version : ℕ} {versions : List ℕ} {db : Store F P} :
    validateVersion physical version versions db = .ok filesHighWater ↔
      version ∈ versions ∧ validateObjectPolicy physical version db = .ok () ∧
        validateSequence physical db = .ok filesHighWater ∧
        validateForeignKeyIntegrity physical db = .ok () := by
  unfold validateVersion
  cases hpolicy : validateObjectPolicy physical version db with
  | error e => simp [bind, Except.bind]
  | ok u =>
    by_cases hversion : version ∈ versions
    · cases hseq : validateSequence physical db with
      | error e => simp [hversion, bind, Except.bind]
      | ok k =>
        cases hforeign : validateForeignKeyIntegrity physical db with
        | error e => simp [hversion, bind, Except.bind]
        | ok u' => simp [hversion, bind, Except.bind, pure, Except.pure]
    · simp [hversion, bind, Except.bind, throw, throwThe, MonadExceptOf.throw]

theorem classify_ok {db : Database} {version : ℕ} {filesHighWater : ℤ}
    (h : classify db = .ok (.version version filesHighWater)) :
    db.content.validateVersion db.userVersion version = .ok filesHighWater := by
  unfold classify at h
  by_cases hrange : db.userVersion < 0 ∨ (currentVersion : ℤ) < db.userVersion
  · rw [if_pos hrange] at h
    exact absurd h (by simp)
  rw [if_neg hrange] at h
  by_cases hfresh : db.userVersion = 0 ∧ db.content = .fresh
  · rw [if_pos hfresh] at h
    exact absurd h (by simp)
  rw [if_neg hfresh] at h
  generalize (if db.userVersion = 0 then 1 else db.userVersion.toNat) = effective at h
  cases hvalid : db.content.validateVersion db.userVersion effective with
  | error e => exact absurd h (by simp [hvalid, Except.map])
  | ok k =>
    simp only [hvalid, Except.map] at h
    obtain ⟨rfl, rfl⟩ := SchemaState.version.inj (Except.ok.inj h)
    exact hvalid

theorem hasSeconds_of_leftJoin {F P : Type} [Rowid F] [Rowid P] {start : F → Option P → StartRow}
    {entry : F → Option P → Entry} {db : Store F P}
    (hmtime : ∀ r p, (entry r p).mtime = nanoseconds (start r p).oldMtime)
    (hall : AllNanoseconds (db.leftJoin entry)) : ∀ r ∈ db.leftJoin start, HasSeconds r.oldMtime := by
  intro r hr
  obtain ⟨file, hfile, rfl⟩ := List.mem_map.mp hr
  obtain ⟨t, ht, hi64⟩ := hall _ (List.mem_map_of_mem hfile)
  rw [hmtime] at ht
  exact hasSeconds_of_nanoseconds ht hi64

theorem migrate_ok {physical : ℤ} {version : ℕ} {filesHighWater : ℤ} {content : Content}
    {store : Store FilesV6 PayloadsV3} (hversion : version < 6)
    (hclass : content.validateVersion physical version = .ok filesHighWater)
    (h : migrate S faults (.version version filesHighWater) content n = .ok (store, n')) :
    Migrated version content store := by
  cases content with
  | v1 db =>
    obtain ⟨hmem, hpolicy, hsequence, -⟩ := validateVersion_eq_ok_iff.mp hclass
    obtain rfl := List.mem_singleton.mp hmem
    have huser := userIndexes_eq_nil (by decide) hpolicy
    obtain ⟨hkept, hnanos⟩ :=
      kept_migrateFromV1 (sequenceOf_le_of_validateSequence hsequence) huser h
    exact ⟨hkept.entries, fun _ => hasSeconds_of_leftJoin (fun _ _ => rfl) hnanos,
      hkept.userIndexes, hkept.highWater⟩
  | v2 db =>
    obtain ⟨hmem, -⟩ := validateVersion_eq_ok_iff.mp hclass
    obtain rfl := List.mem_singleton.mp hmem
    obtain ⟨hkept, hnanos⟩ := kept_migrateFromV2 h
    exact ⟨hkept.entries, fun _ => hasSeconds_of_leftJoin (fun _ _ => rfl) hnanos,
      hkept.userIndexes, hkept.highWater⟩
  | v3 db =>
    obtain ⟨hmem, -⟩ := validateVersion_eq_ok_iff.mp hclass
    obtain rfl := List.mem_singleton.mp hmem
    obtain ⟨hkept, hnanos⟩ := kept_migrateFromV3 h
    exact ⟨hkept.entries, fun _ => hasSeconds_of_leftJoin (fun _ _ => rfl) hnanos,
      hkept.userIndexes, hkept.highWater⟩
  | v4 db =>
    obtain ⟨hmem, -⟩ := validateVersion_eq_ok_iff.mp hclass
    rcases List.mem_pair.mp hmem with rfl | rfl
    · obtain ⟨hkept, hnanos⟩ := kept_migrateFromV4 h
      exact ⟨hkept.entries, fun _ => hasSeconds_of_leftJoin (fun _ _ => rfl) hnanos,
        hkept.userIndexes, hkept.highWater⟩
    · have hkept := kept_migrateV5ToV6 h
      exact ⟨hkept.entries, fun hle => absurd hle (by decide), hkept.userIndexes, hkept.highWater⟩
  | v6 db =>
    obtain ⟨hmem, -⟩ := validateVersion_eq_ok_iff.mp hclass
    exact absurd (List.mem_singleton.mp hmem) hversion.ne
  | fresh => exact absurd hclass (by simp [Content.validateVersion])
  | other reason => exact absurd hclass (by simp [Content.validateVersion])

/-- The transaction of a database of an older version, when it commits. -/
theorem initializeSteps_ok {opening : Opening} {db db' : Database} {version : ℕ}
    {filesHighWater : ℤ} {outcome : InitializationOutcome} (hversion : version < 6)
    (hclass : classify db = .ok (.version version filesHighWater))
    (h : initializeSteps S faults opening db n = .ok ((outcome, db'), n')) :
    ∃ store, db' = ⟨currentVersion, .v6 store⟩ ∧ Migrated version db.content store ∧
      ∃ k, classify db' = .ok (.version 6 k) := by
  unfold initializeSteps at h
  obtain ⟨_, h⟩ := step_ok h
  by_cases hcurrent : opening.preliminaryVersion = currentVersion
  · -- the check of a current database does not accept this one
    rw [if_pos hcurrent] at h
    obtain ⟨_, _, hvalidate, -⟩ := StateExcept.bind_eq_ok h
    unfold validateCurrentReadSnapshot at hvalidate
    obtain ⟨state, _, hstate, hvalidate⟩ := sql_bind_ok hvalidate
    split at hvalidate
    · exact absurd (hclass.symm.trans hstate) (by simp [hversion.ne])
    · exact absurd hvalidate StateExcept.not_fail_eq_ok
  rw [if_neg hcurrent] at h
  by_cases hrange : opening.preliminaryVersion < 0 ∨ (currentVersion : ℤ) < opening.preliminaryVersion
  · rw [if_pos hrange] at h
    obtain ⟨_, h⟩ := StateExcept.then_eq_ok h
    exact absurd h StateExcept.not_fail_eq_ok
  rw [if_neg hrange] at h
  obtain ⟨_, h⟩ := StateExcept.then_eq_ok h
  obtain ⟨state, _, hstate, h⟩ := sql_bind_ok h
  obtain ⟨_, h⟩ := StateExcept.then_eq_ok h
  split at h
  · exact absurd (hclass.symm.trans hstate) (by simp [hversion.ne])
  obtain rfl := Except.ok.inj (hclass.symm.trans hstate)
  obtain ⟨snapshot, _, -, h⟩ := StateExcept.bind_eq_ok h
  obtain ⟨store, _, hmigrate, h⟩ := StateExcept.bind_eq_ok h
  obtain ⟨migrated, _, hmigrated, h⟩ := sql_bind_ok h
  obtain ⟨_, h⟩ := StateExcept.then_eq_ok h
  obtain ⟨_, h⟩ := StateExcept.then_eq_ok h
  obtain ⟨_, _, hfinal, h⟩ := StateExcept.bind_eq_ok h
  obtain ⟨_, h⟩ := StateExcept.then_eq_ok h
  obtain ⟨_, h⟩ := StateExcept.then_eq_ok h
  obtain ⟨_, h⟩ := StateExcept.then_eq_ok h
  obtain ⟨heq, -⟩ := StateExcept.pure_eq_ok h
  obtain ⟨-, rfl⟩ := Prod.mk.inj heq
  obtain rfl := Except.ok.inj hmigrated
  refine ⟨store, rfl, migrate_ok hversion (classify_ok hclass) hmigrate, ?_⟩
  unfold validateFinalPostconditions at hfinal
  obtain ⟨state, _, hstate, hfinal⟩ := sql_bind_ok hfinal
  split at hfinal
  · exact ⟨_, hstate⟩
  · exact absurd hfinal StateExcept.not_fail_eq_ok

/-- Whatever fails, `initializeWithHook` on a database of version 1 to 5 leaves it as it was
with an error, or commits one of version 6 that says the same about the cache. It refuses a
database of version 1 to 4 with an `mtime` that is not an integer or overflows in nanoseconds. -/
theorem initializeWithHook_preserves (S : Sqlite) (faults : Faults) (opening : Opening)
    {db : Database} {version : ℕ} {filesHighWater : ℤ} (hversion : version < 6)
    (hclass : classify db = .ok (.version version filesHighWater)) :
    (∀ err, (initializeWithHook S faults opening db).1 = .error err →
      (initializeWithHook S faults opening db).2 = db) ∧
    (∀ outcome, (initializeWithHook S faults opening db).1 = .ok outcome →
      ∃ store, (initializeWithHook S faults opening db).2 = ⟨currentVersion, .v6 store⟩ ∧
        Migrated version db.content store ∧
          ∃ k, classify ⟨currentVersion, .v6 store⟩ = .ok (.version 6 k)) ∧
    (version ≤ 4 → (∃ r ∈ db.content.startRows, ¬HasSeconds r.oldMtime) →
      ∃ err, (initializeWithHook S faults opening db).1 = .error err) := by
  unfold initializeWithHook
  cases hrun : initializeSteps S faults opening db 0 with
  | error err => exact ⟨fun _ _ => rfl, fun _ h => absurd h (by simp), fun _ _ => ⟨err, rfl⟩⟩
  | ok result =>
    obtain ⟨⟨outcome, db'⟩, k⟩ := result
    obtain ⟨store, rfl, hmigrated, hfinal⟩ := initializeSteps_ok hversion hclass hrun
    refine ⟨fun _ h => absurd h (by simp), fun _ _ => ⟨store, rfl, hmigrated, hfinal⟩, ?_⟩
    rintro hle ⟨r, hr, hseconds⟩
    exact absurd (hmigrated.seconds hle r hr) hseconds

end Steps

section Witness

/-- Version 1, with an entry without a payload and a sequence behind the ids. -/
def oldDatabase : Database := ⟨0, .v1 {
  files := [⟨7, .text "/a", .integer 5, .integer 1, .null, .integer 9⟩,
    ⟨8, .text "/b", .integer (-6), .integer 1, .text "h", .integer 9⟩]
  payloads := [⟨7, .blob [1]⟩]
  sequence := [("files", .integer 7)]
  indexes := [⟨"idx_files_path", "CREATE INDEX idx_files_path ON files(path)"⟩] }⟩

/-- It is migrated through all the steps. -/
theorem initializeWithHook_preserves_sample : ∃ store,
    initializeWithHook .exact .quiet ⟨0, true, "memory"⟩ oldDatabase =
      (.ok ⟨true, false⟩, ⟨currentVersion, .v6 store⟩) ∧ Migrated 1 oldDatabase.content store := by
  have hclass : classify oldDatabase = .ok (.version 1 8) := by decide
  have hok : (initializeWithHook .exact .quiet ⟨0, true, "memory"⟩ oldDatabase).1 =
    .ok ⟨true, false⟩ := by decide +kernel
  obtain ⟨store, hdb, hmigrated, -⟩ :=
    (initializeWithHook_preserves .exact .quiet ⟨0, true, "memory"⟩ (by decide) hclass).2.1 _ hok
  exact ⟨store, Prod.ext hok hdb, hmigrated⟩

end Witness

end LocalCache
