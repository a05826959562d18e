import LocalCache.OneShot

/-!
# One freshness verdict

`getIfFresh`, `checkStatusAt`, `explainAt` and `cleanupExpired` each test existence, row, expiry,
version and content in an order of their own. Here are the first three, over the files as they
answer while nothing changes, and what the four verdicts have to do with each other (`OneVerdict`).
They agree unless the path resolves to the empty key and an expired row is stored there : no page
of a cleanup lists that row (`oneVerdict_iff`).
-/

namespace LocalCache

/-! ## Change detection -/

inductive ChangeDetectionMode
  | metadataOnly
  | metadataThenPartialHash
  | metadataThenFullHash
  | strictFullHash
  deriving DecidableEq, Repr

/-- What the files answer : `mtime` in nanoseconds and the size, and the two digests of the
content. -/
structure Files where
  metadata : Path → Except Error (ℤ × UInt64)
  computeFullHash : Path → Except Error String
  computePartialHash : Path → Except Error String

section Detection

variable (files : Files)

/-- The current metadata. The hash is left to the caller. -/
def collectMetadata (path : Path) : Except Error FileMetadata :=
  (files.metadata path).map fun m => ⟨m.1, m.2, none⟩

def computeHashForMode (mode : ChangeDetectionMode) (path : Path) : Except Error (Option String) :=
  match mode with
  | .metadataOnly => .ok none
  | .metadataThenPartialHash => (files.computePartialHash path).map some
  | .metadataThenFullHash | .strictFullHash => (files.computeFullHash path).map some

def partialPrefix : String := "partial:"

def isPartialHash (stored : String) : Bool := partialPrefix.toList.isPrefixOf stored.toList

def metadataMatches (stored current : FileMetadata) : Bool :=
  stored.mtime = current.mtime && stored.fileSize = current.fileSize

def freshenIfEqual (a b : String) : CacheStatus := if a = b then .fresh else .stale

/-- Without a stored hash, or with a partial one, the entry counts as stale. -/
def compareFullHash (path : Path) (stored : FileMetadata) : Except Error CacheStatus :=
  match stored.hash with
  | none => .ok .stale
  | some storedHash =>
    if isPartialHash storedHash then .ok .stale
    else (files.computeFullHash path).map fun newHash => freshenIfEqual newHash storedHash

def detectMetadataOnly (path : Path) (stored : FileMetadata) : Except Error CacheStatus := do
  let current ← collectMetadata files path
  return if metadataMatches stored current then .fresh else .stale

/-- A change of the size is conclusive, as the partial hash samples the head and the tail only. -/
def detectMetadataThenPartialHash (path : Path) (stored : FileMetadata) :
    Except Error CacheStatus := do
  let current ← collectMetadata files path
  if metadataMatches stored current then return .fresh
  if stored.fileSize ≠ current.fileSize then return .stale
  match stored.hash with
  | none => return .stale
  | some storedHash =>
    if isPartialHash storedHash then
      let newHash ← files.computePartialHash path
      return freshenIfEqual newHash storedHash
    else
      let newHash ← files.computeFullHash path
      return freshenIfEqual newHash storedHash

def detectMetadataThenFullHash (path : Path) (stored : FileMetadata) :
    Except Error CacheStatus := do
  let current ← collectMetadata files path
  if metadataMatches stored current then return .fresh
  if stored.fileSize ≠ current.fileSize then return .stale
  compareFullHash files path stored

def detectStrictFullHash (path : Path) (stored : FileMetadata) : Except Error CacheStatus :=
  compareFullHash files path stored

def detectChange (path : Path) (stored : FileMetadata) : ChangeDetectionMode →
    Except Error CacheStatus
  | .metadataOnly => detectMetadataOnly files path stored
  | .metadataThenPartialHash => detectMetadataThenPartialHash files path stored
  | .metadataThenFullHash => detectMetadataThenFullHash files path stored
  | .strictFullHash => detectStrictFullHash files path stored

/-- The sources of an engine of this mode over these files. -/
def Sources.onFiles {T : Type} (src : Sources T) (mode : ChangeDetectionMode) : Sources T :=
  { src with
    collectMetadata := LocalCache.collectMetadata files
    computeHash := computeHashForMode files mode
    detectChange := fun path stored => LocalCache.detectChange files path stored mode }

end Detection

/-! ## Arithmetic -/

/-- `a.saturating_sub(b)` of `i64`. -/
def saturatingSub (a b : ℤ) : ℤ := max (-2 ^ 63) (min (a - b) (2 ^ 63 - 1))

/-- `i64::try_from(r).unwrap_or(i64::MAX)`. -/
def clampI64 (r : ℕ) : ℤ := if r < 2 ^ 63 then r else 2 ^ 63 - 1

/-- `ttl_remaining` on machine integers : the age saturates as an `i64` and is clamped at 0, and
the rest is a saturating subtraction of `u64`. -/
def ttlRemaining64 (now updatedAt : Int64) (ttl : Option UInt64) : Option UInt64 :=
  ttl.map fun ttl =>
    let age := (max (Int64.ofIntClamp (now.toInt - updatedAt.toInt)) 0).toUInt64
    if age ≤ ttl then ttl - age else 0

/-! ## The three calls -/

structure MetadataDiff where
  storedMtime : ℤ
  currentMtime : ℤ
  storedFileSize : UInt64
  currentFileSize : UInt64
  mtimeChanged : Bool
  sizeChanged : Bool
  deriving DecidableEq

structure PayloadVersionInfo where
  stored : UInt32
  expected : UInt32
  matches_ : Bool
  deriving DecidableEq

/-- What `explain` reports. -/
structure Diagnosis where
  path : Path
  status : CacheStatus
  entryExists : Bool
  fileExists : Bool
  ttlRemainingSecs : Option ℤ
  hashMatch : Option Bool
  metadataDiff : Option MetadataDiff
  payloadVersion : Option PayloadVersionInfo
  summary : String
  deriving DecidableEq

/-- The world after a statement. -/
def World.next (w : World) : World := { w with fault := fun n => w.fault (n + 1) }

/-- What a `get_if_fresh` did, with the payloads it decoded as a history variable. -/
structure FreshRead (T : Type) where
  result : Except Error (Option (CacheEntry T))
  db : Db
  decoded : List PayloadRow

section Calls

variable {T : Type} (e : Engine) (src : Sources T) (files : Files) (w wUse : World) (path : Path)

/-- `get_if_fresh` with no other writer in between. Its use is recorded in `wUse`, where that
statement may fail by itself. -/
def getIfFresh (db : Db) : FreshRead T :=
  match getIfFreshFind e src w path db with
  | .error err => ⟨.error err, db, []⟩
  | .ok none => ⟨.ok none, db, []⟩
  | .ok (some row) =>
    match (autocommit (select w fun db => db.payload? row.id) db).1 with
    | .error err => ⟨.error err, db, []⟩
    | .ok none => ⟨.ok none, db, []⟩
    | .ok (some payload) =>
      match src.decode row.path ⟨payload.content, payload.encoding⟩ with
      | .error err => ⟨.error err, db, [payload]⟩
      | .ok value =>
        let read := finishRead e wUse row ⟨row.path, row.metadata, value⟩ db
        ⟨read.result, read.db, [payload]⟩

def checkStatusAt (now : ℤ) (db : Db) : Except Error CacheStatus := do
  let resolved ← resolvePathKey src path
  if !resolved.present then return .missing
  let some row ← findFile e w resolved.key db | return .missing
  if ttlRemaining now row.updatedAt e.ttl = some 0 then return .stale
  if e.payloadVersion > 0 ∧ row.payloadVersion ≠ e.payloadVersion then return .stale
  src.detectChange resolved.path row.metadata

def checkStatus (db : Db) : Except Error CacheStatus := checkStatusAt e src w path (w.nowSecs 0) db

/-- The text for the metadata that differ. -/
def metadataChange : Option MetadataDiff → Option String
  | none => none
  | some d =>
    match d.mtimeChanged, d.sizeChanged with
    | true, true => some "Both mtime and file_size differ."
    | true, false => some "mtime changed; file_size unchanged."
    | false, true => some "file_size changed; mtime unchanged."
    | false, false => none

/-- Whether the content still has the digest stored, by the strategy that made it. -/
def hashMatch (stored : FileMetadata) (canonical : Path) : Option Bool :=
  match stored.hash with
  | none => none
  | some storedHash =>
    let current := if isPartialHash storedHash then files.computePartialHash canonical
      else files.computeFullHash canonical
    current.toOption.map fun h => decide (h = storedHash)

/-- The metadata and the digest against the file's. -/
def compareFile (stored : FileMetadata) (resolved : ResolvedPathKey) :
    Except Error (Option MetadataDiff × Option Bool) := do
  if !resolved.present then return (none, none)
  let current ← src.collectMetadata resolved.path
  return (some ⟨stored.mtime, current.mtime, stored.fileSize, current.fileSize,
    decide (stored.mtime ≠ current.mtime), decide (stored.fileSize ≠ current.fileSize)⟩,
    hashMatch files stored resolved.path)

/-- The version against the engine's, unless the engine checks none. -/
def versionInfo (row : FileRow) : Option PayloadVersionInfo :=
  if e.payloadVersion > 0 then
    some ⟨row.payloadVersion, e.payloadVersion, decide (row.payloadVersion = e.payloadVersion)⟩
  else none

/-- The first reason that applies. -/
def summarize (fileExists ttlExpired versionMismatch : Bool) (change : Option String)
    (hashMatch : Option Bool) (now : ℤ) (row : FileRow) : String :=
  if !fileExists then "Source file no longer exists on disk."
  else if ttlExpired then
    "TTL expired (entry is " ++ toString (saturatingSub now row.updatedAt) ++ " s old)."
  else if versionMismatch then
    "Payload version mismatch: stored=" ++ toString row.payloadVersion ++ ", expected=" ++
      toString e.payloadVersion ++ "."
  else
    match change with
    | some change => change
    | none =>
      if hashMatch = some false then "File content changed (hash mismatch)." else "Entry is fresh."

/-- The row is read twice, by the second statement for the status. -/
def explainAt (now : ℤ) (db : Db) : Except Error Diagnosis := do
  let resolved ← resolvePathKey src path
  let some row ← findFile e w resolved.key db
    | return ⟨resolved.path, .missing, false, resolved.present, none, none, none, none,
        if resolved.present then "File exists on disk but has no cache entry."
        else "File does not exist on disk and has no cache entry."⟩
  let remaining := ttlRemaining now row.updatedAt e.ttl
  let pvInfo := versionInfo e row
  let (diff, hm) ← compareFile src files row.metadata resolved
  let status ← checkStatusAt e src w.next path now db
  return ⟨resolved.path, status, true, resolved.present, remaining.map clampI64, hm, diff, pvInfo,
    summarize e resolved.present (decide (remaining = some 0))
      ((pvInfo.map fun i => !i.matches_).getD false) (metadataChange diff) hm now row⟩

def explain (db : Db) : Except Error Diagnosis := explainAt e src files w path (w.nowSecs 0) db

end Calls

/-! ## What each call finds -/

section Verdicts

variable {T : Type} {e : Engine} {src : Sources T} {files : Files} {w wUse : World} {path : Path}
  {now : ℤ} {db : Db}

theorem findFile_eq (key : String) :
    findFile e w key db =
      match w.fault 0 with
      | some text => .error (databaseError (.other text))
      | none => .ok (db.find? e.ns key) := by
  cases hfault : w.fault 0 <;> simp [findFile, autocommit, select, statement, hfault]

theorem findFile_eq_ok {key : String} {found : Option FileRow} :
    findFile e w key db = .ok found ↔ w.fault 0 = none ∧ db.find? e.ns key = found := by
  rw [findFile_eq]
  cases w.fault 0 <;> simp

/-- The row of the key that the path resolves to. -/
def RowOf (e : Engine) (src : Sources T) (path : Path) (db : Db) (resolved : ResolvedPathKey)
    (row : FileRow) : Prop :=
  resolvePathKey src path = .ok resolved ∧ db.find? e.ns resolved.key = some row

theorem RowOf.path_eq {resolved : ResolvedPathKey} {row : FileRow}
    (h : RowOf e src path db resolved row) : row.path = resolved.key := by
  have hkey : Db.HasKey e.ns resolved.key row := by simpa using List.find?_some h.2
  exact hkey.2

theorem RowOf.mem {resolved : ResolvedPathKey} {row : FileRow}
    (h : RowOf e src path db resolved row) : row ∈ db.files ∧ row.ns = e.ns := by
  have hkey : Db.HasKey e.ns resolved.key row := by simpa using List.find?_some h.2
  exact ⟨List.mem_of_find?_eq_some h.2, hkey.1⟩

/-- `get_if_fresh` goes past its gates exactly when the status is fresh. -/
theorem getIfFreshFind_of_checkStatus (e : Engine) (src : Sources T) (w : World) (path : Path)
    (db : Db) :
    match checkStatus e src w path db with
    | .error err => getIfFreshFind e src w path db = .error err
    | .ok .fresh => ∃ resolved row, RowOf e src path db resolved row ∧ w.fault 0 = none ∧
        getIfFreshFind e src w path db = .ok (some row)
    | .ok .stale | .ok .missing => getIfFreshFind e src w path db = .ok none := by
  unfold checkStatus checkStatusAt getIfFreshFind
  simp only [bind, Except.bind, pure, Except.pure]
  cases hres : resolvePathKey src path with
  | error err => rfl
  | ok resolved =>
    simp only
    by_cases hpresent : (!resolved.present) = true
    · simp only [if_pos hpresent]
    simp only [if_neg hpresent]
    cases hfind : findFile e w resolved.key db with
    | error err => rfl
    | ok found =>
      cases found with
      | none => rfl
      | some row =>
        obtain ⟨hfault, hrow⟩ := findFile_eq_ok.mp hfind
        by_cases hexpired : ttlRemaining (w.nowSecs 0) row.updatedAt e.ttl = some 0
        · simp only [isExpired, hexpired, decide_true, if_true]
        simp only [isExpired, hexpired, decide_false, if_false, Bool.false_eq_true]
        by_cases hversion : e.payloadVersion > 0 ∧ row.payloadVersion ≠ e.payloadVersion
        · simp only [if_pos hversion]
        simp only [if_neg hversion]
        cases src.detectChange resolved.path row.metadata with
        | error err => rfl
        | ok status =>
          cases status with
          | fresh => exact ⟨resolved, row, ⟨hres, hrow⟩, hfault, rfl⟩
          | stale => rfl
          | missing => rfl

/-- The entry that the path's row and payload decode to. -/
def DecodesTo (e : Engine) (src : Sources T) (path : Path) (db : Db) (entry : CacheEntry T) : Prop :=
  ∃ resolved row payload, RowOf e src path db resolved row ∧ db.payload? row.id = some payload ∧
    src.decode row.path ⟨payload.content, payload.encoding⟩ = .ok entry.payload ∧
    entry.path = row.path ∧ entry.metadata = row.metadata

theorem finishRead_result (row : FileRow) (entry : CacheEntry T) :
    (finishRead e w row entry db).result = .ok (some entry) := by
  unfold finishRead
  split
  · rfl
  · split <;> rfl

theorem getIfFresh_eq_some {entry : CacheEntry T} :
    (getIfFresh e src w wUse path db).result = .ok (some entry) ↔
      checkStatus e src w path db = .ok .fresh ∧ DecodesTo e src path db entry := by
  have hgates := getIfFreshFind_of_checkStatus e src w path db
  unfold getIfFresh
  cases hstatus : checkStatus e src w path db with
  | error err =>
    rw [hstatus] at hgates
    simp [show getIfFreshFind e src w path db = _ from hgates]
  | ok status =>
    rw [hstatus] at hgates
    cases status with
    | stale => simp [show getIfFreshFind e src w path db = _ from hgates]
    | missing => simp [show getIfFreshFind e src w path db = _ from hgates]
    | fresh =>
      obtain ⟨resolved, row, hrow, hfault, hfind⟩ := hgates
      have hload : (autocommit (select w fun db => db.payload? row.id) db).1 =
          .ok (db.payload? row.id) := by
        rw [autocommit, select_of_fault hfault]
      have hunique : ∀ resolved' row', RowOf e src path db resolved' row' → row' = row := by
        rintro resolved' row' ⟨hres, hfind'⟩
        obtain rfl := Except.ok.inj (hres.symm.trans hrow.1)
        exact Option.some.inj (hfind'.symm.trans hrow.2)
      rw [hfind]
      simp only [hload, true_and]
      cases hpayload : db.payload? row.id with
      | none =>
        simp only [Except.ok.injEq, reduceCtorEq, false_iff]
        rintro ⟨resolved', row', payload, hrow', hsome, -⟩
        rw [hunique _ _ hrow', hpayload] at hsome
        exact absurd hsome (by simp)
      | some payload =>
        simp only
        constructor
        · intro h
          cases hdecode : src.decode row.path ⟨payload.content, payload.encoding⟩ with
          | error err => simp [hdecode] at h
          | ok value =>
            simp only [hdecode, finishRead_result] at h
            obtain rfl := Option.some.inj (Except.ok.inj h)
            exact ⟨resolved, row, payload, hrow, hpayload, hdecode, rfl, rfl⟩
        · rintro ⟨resolved', row', payload', hrow', hsome, hdecode, hpath, hmetadata⟩
          obtain rfl := hunique _ _ hrow'
          obtain rfl := Option.some.inj (hpayload.symm.trans hsome)
          rw [hdecode, ← hpath, ← hmetadata]
          exact finishRead_result _ _

/-- A status other than fresh ends the read before anything is decoded. -/
theorem getIfFresh_of_not_fresh {status : CacheStatus}
    (h : checkStatus e src w path db = .ok status) (hstatus : status ≠ .fresh) :
    getIfFresh e src w wUse path db = ⟨.ok none, db, []⟩ := by
  have hgates := getIfFreshFind_of_checkStatus e src w path db
  rw [h] at hgates
  unfold getIfFresh
  cases status with
  | fresh => exact absurd rfl hstatus
  | stale => rw [show getIfFreshFind e src w path db = _ from hgates]
  | missing => rw [show getIfFreshFind e src w path db = _ from hgates]

/-- A status that was found is found again, if the statement for the row goes through. -/
theorem checkStatusAt_of_next {status : CacheStatus} (hfault : w.fault 0 = none)
    (h : checkStatusAt e src w.next path now db = .ok status) :
    checkStatusAt e src w path now db = .ok status := by
  unfold checkStatusAt at h ⊢
  simp only [bind, Except.bind] at h ⊢
  cases hres : resolvePathKey src path with
  | error err => simp [hres] at h
  | ok resolved =>
    simp only [hres] at h ⊢
    split_ifs at h ⊢
    · exact h
    · cases hfind : findFile e w.next resolved.key db with
      | error err => simp [hfind] at h
      | ok found =>
        rw [hfind] at h
        rw [findFile_eq_ok.mpr ⟨hfault, (findFile_eq_ok.mp hfind).2⟩]
        exact h

/-- What a diagnosis says of the status and the TTL. -/
theorem explainAt_ok {d : Diagnosis} (h : explainAt e src files w path now db = .ok d) :
    checkStatusAt e src w path now db = .ok d.status ∧
      ∃ resolved, resolvePathKey src path = .ok resolved ∧ w.fault 0 = none ∧
        d.ttlRemainingSecs = (db.find? e.ns resolved.key).bind fun row =>
          (ttlRemaining now row.updatedAt e.ttl).map clampI64 := by
  unfold explainAt at h
  simp only [bind, Except.bind, pure, Except.pure] at h
  cases hres : resolvePathKey src path with
  | error err => simp [hres] at h
  | ok resolved =>
    simp only [hres] at h
    cases hfind : findFile e w resolved.key db with
    | error err => simp [hfind] at h
    | ok found =>
      obtain ⟨hfault, hrow⟩ := findFile_eq_ok.mp hfind
      simp only [hfind] at h
      cases found with
      | none =>
        obtain rfl := Except.ok.inj h
        refine ⟨?_, resolved, rfl, hfault, by rw [hrow]; rfl⟩
        unfold checkStatusAt
        simp only [bind, Except.bind, pure, Except.pure, hres, hfind]
        split <;> rfl
      | some row =>
        simp only at h
        cases hcompare : compareFile src files row.metadata resolved with
        | error err => simp [hcompare] at h
        | ok compared =>
          simp only [hcompare] at h
          cases hstatus : checkStatusAt e src w.next path now db with
          | error err => simp [hstatus] at h
          | ok status =>
            simp only [hstatus] at h
            obtain rfl := Except.ok.inj h
            exact ⟨checkStatusAt_of_next hfault hstatus, resolved, rfl, hfault, by rw [hrow]; rfl⟩

/-- With the file gone a diagnosis needs nothing but the row. -/
theorem explainAt_of_absent {resolved : ResolvedPathKey} {row : FileRow}
    (hrow : RowOf e src path db resolved row) (hfault : w.fault 0 = none)
    (habsent : resolved.present = false) : ∃ d, explainAt e src files w path now db = .ok d := by
  have hfind : findFile e w resolved.key db = .ok (some row) := findFile_eq_ok.mpr ⟨hfault, hrow.2⟩
  have hcompare : compareFile src files row.metadata resolved = .ok (none, none) := by
    rw [compareFile, habsent]
    rfl
  have hstatus : checkStatusAt e src w.next path now db = .ok .missing := by
    unfold checkStatusAt
    simp only [bind, Except.bind, pure, Except.pure, hrow.1, habsent]
    rfl
  unfold explainAt
  simp only [bind, Except.bind, pure, Except.pure, hrow.1, hfind, hcompare, hstatus]
  exact ⟨_, rfl⟩

theorem clampI64_eq_zero {r : ℕ} : clampI64 r = 0 ↔ r = 0 := by
  unfold clampI64
  split <;> omega

theorem clampI64_mem (r : ℕ) : 0 ≤ clampI64 r ∧ clampI64 r < 2 ^ 63 := by
  unfold clampI64
  split <;> omega

/-- Expiry comes before the version and the content. -/
theorem checkStatus_of_expired {resolved : ResolvedPathKey} {row : FileRow}
    (hrow : RowOf e src path db resolved row) (hpresent : resolved.present = true)
    (hfault : w.fault 0 = none) (hexpired : isExpired (w.nowSecs 0) row.updatedAt e.ttl = true) :
    checkStatus e src w path db = .ok .stale := by
  have hfind : findFile e w resolved.key db = .ok (some row) := findFile_eq_ok.mpr ⟨hfault, hrow.2⟩
  rw [isExpired, decide_eq_true_eq] at hexpired
  unfold checkStatus checkStatusAt
  simp only [bind, Except.bind, pure, Except.pure, hrow.1, hpresent, hfind, hexpired]
  rfl

/-- The time a diagnosis gives is 0 when the row is expired. -/
theorem map_clampI64_eq {updatedAt : ℤ} {ttl : Option ℕ} :
    (ttlRemaining now updatedAt ttl).map clampI64 = some 0 ↔ isExpired now updatedAt ttl = true := by
  rw [isExpired, decide_eq_true_eq]
  cases ttlRemaining now updatedAt ttl with
  | none => simp
  | some r => simp [clampI64_eq_zero]

/-! ## The verdict -/

/-- `cleanup_expired` by the clock `now`, on a writable handle of the same configuration, deletes
the row. -/
def CleanupDeletes (e : Engine) (ws : ℕ → World) (now : ℤ) (size fuel : ℕ) (db : Db)
    (row : FileRow) : Prop :=
  ∃ o, cleanupExpired { e with readOnly := false } ws (fun _ => now) size fuel db = some o ∧
    row ∈ db.files ∧ row ∉ o.db.files

variable {ws : ℕ → World} {size fuel : ℕ}

theorem cleanupDeletes_iff (hv : db.Valid) (hws : ∀ n k, (ws n).fault k = none) (hsize : 1 ≤ size)
    (hfuel : (db.inNamespace e.ns).length < fuel) {row : FileRow} :
    CleanupDeletes e ws now size fuel db row ↔
      row ∈ db.files ∧ row.ns = e.ns ∧ row.path ≠ "" ∧ isExpired now row.updatedAt e.ttl = true := by
  have hdelete := cleanupExpired_eq_deleteListed (e := { e with readOnly := false }) hv hws rfl hsize
    hfuel fun _ => now
  obtain ⟨o, ho, houtcome⟩ := Option.map_eq_some_iff.mp hdelete
  have hdb : o.db = _ := (Prod.mk.inj houtcome).2
  have hmem : row ∉ o.db.files ↔
      ¬(row ∈ db.files ∧ (decide (row.ns = e.ns) &&
        listedGone (fun r => isExpired now r.updatedAt e.ttl) row) = false) := by
    rw [hdb]
    exact not_congr Sql.mem_deleteFiles
  constructor
  · rintro ⟨o', ho', hrow, hgone⟩
    obtain rfl := Option.some.inj (ho.symm.trans ho')
    rw [hmem, not_and, Bool.not_eq_false, Bool.and_eq_true, decide_eq_true_eq, listedGone,
      Bool.and_eq_true, decide_eq_true_eq] at hgone
    obtain ⟨hns, hexpired, hpath⟩ := hgone hrow
    exact ⟨hrow, hns, hpath, hexpired⟩
  · rintro ⟨hrow, hns, hpath, hexpired⟩
    refine ⟨o, ho, hrow, hmem.mpr ?_⟩
    rw [listedGone, hexpired, decide_eq_true hns, decide_eq_true hpath]
    simp

/-- What the four calls say of one path, with the clock at `w.nowSecs 0` and nothing changing. -/
structure OneVerdict (e : Engine) (src : Sources T) (files : Files) (w wUse : World)
    (ws : ℕ → World) (size fuel : ℕ) (path : Path) (db : Db) : Prop where
  /-- An entry is returned exactly when the status is fresh and the payload exists and decodes. -/
  hit : ∀ entry, (getIfFresh e src w wUse path db).result = .ok (some entry) ↔
    checkStatus e src w path db = .ok .fresh ∧ DecodesTo e src path db entry
  /-- Nothing is decoded for another status. -/
  miss : ∀ status, checkStatus e src w path db = .ok status → status ≠ .fresh →
    getIfFresh e src w wUse path db = ⟨.ok none, db, []⟩
  /-- A diagnosis reports that status. -/
  explained : ∀ d, explain e src files w path db = .ok d →
    checkStatus e src w path db = .ok d.status
  /-- Its remaining time is 0 exactly for a row that a cleanup deletes. -/
  expiry : ∀ d, explain e src files w path db = .ok d →
    (d.ttlRemainingSecs = some 0 ↔ ∃ resolved row, RowOf e src path db resolved row ∧
      CleanupDeletes e ws (w.nowSecs 0) size fuel db row)
  /-- With the file there, such a row is stale. -/
  stale : ∀ resolved row, RowOf e src path db resolved row → resolved.present = true →
    CleanupDeletes e ws (w.nowSecs 0) size fuel db row → w.fault 0 = none →
    checkStatus e src w path db = .ok .stale
  /-- The machine's arithmetic is that of the integers, so nothing wraps. -/
  arithmetic : ∀ (now updatedAt : Int64) (ttl : Option UInt64),
    (ttlRemaining64 now updatedAt ttl).map UInt64.toNat =
      ttlRemaining now.toInt updatedAt.toInt (ttl.map UInt64.toNat)
  /-- The remaining time reported is an `i64`. -/
  reported : ∀ d secs, explain e src files w path db = .ok d → d.ttlRemainingSecs = some secs →
    0 ≤ secs ∧ secs < 2 ^ 63

theorem present_of_key_empty (hsrc : src.Canonical) {resolved : ResolvedPathKey}
    (h : resolvePathKey src path = .ok resolved) (hkey : resolved.key = "") :
    resolved.present = false := by
  unfold resolvePathKey at h
  split at h
  · next canonical hnormalize =>
    unfold pathToStr at h
    split at h
    · next s hread =>
      obtain rfl := Except.ok.inj h
      obtain rfl : s = "" := hkey
      exact absurd (strBytes_of_fromUtf8 hread).symm (hsrc path canonical hnormalize)
    · exact absurd h (by simp [Except.map])
  · cases hstr : pathToStr path with
    | error err => simp [hstr, Except.map] at h
    | ok s =>
      simp only [hstr, Except.map] at h
      rw [← Except.ok.inj h]
  · exact absurd h (by simp)

theorem toInt_ofIntClamp_eq (x : ℤ) :
    (Int64.ofIntClamp x).toInt = max (-2 ^ 63) (min x (2 ^ 63 - 1)) := by
  have hmin : Int64.minValue.toInt = -2 ^ 63 := rfl
  have hmax : Int64.maxValue.toInt = 2 ^ 63 - 1 := rfl
  unfold Int64.ofIntClamp
  split
  · next hl =>
    split
    · next hr =>
      rw [Int64.toInt_ofIntLE]
      omega
    · rw [hmax]
      omega
  · rw [hmin]
    omega

/-- The age as a machine integer. -/
theorem toNat_age64 (now updatedAt : Int64) :
    (max (Int64.ofIntClamp (now.toInt - updatedAt.toInt)) 0).toUInt64.toNat =
      (max (min (now.toInt - updatedAt.toInt) (2 ^ 63 - 1)) 0).toNat := by
  have hclamp := toInt_ofIntClamp_eq (now.toInt - updatedAt.toInt)
  have hzero : (0 : Int64).toInt = 0 := rfl
  generalize Int64.ofIntClamp (now.toInt - updatedAt.toInt) = age at hclamp
  have hmax : (max age 0).toInt = max age.toInt 0 := by
    have hdef : max age 0 = if age ≤ 0 then 0 else age := rfl
    rw [hdef]
    split
    · next hle =>
      rw [Int64.le_iff_toInt_le, hzero] at hle
      rw [hzero, max_eq_right hle]
    · next hlt =>
      rw [Int64.le_iff_toInt_le, hzero, not_le] at hlt
      rw [max_eq_left hlt.le]
  have hnonneg : 0 ≤ max age 0 := by
    rw [Int64.le_iff_toInt_le, hzero, hmax]
    exact le_max_right _ _
  rw [Int64.toNat_toUInt64_of_le hnonneg, ← Int64.toNat_toInt, hmax, hclamp]
  omega

/-- `ttl_remaining` computes on machine integers what it computes on integers. -/
theorem toNat_ttlRemaining64 (now updatedAt : Int64) (ttl : Option UInt64) :
    (ttlRemaining64 now updatedAt ttl).map UInt64.toNat =
      ttlRemaining now.toInt updatedAt.toInt (ttl.map UInt64.toNat) := by
  cases ttl with
  | none => rfl
  | some ttl =>
    have hage := toNat_age64 now updatedAt
    simp only [ttlRemaining64, ttlRemaining, Option.map_some, ← hage]
    generalize (max (Int64.ofIntClamp (now.toInt - updatedAt.toInt)) 0).toUInt64 = age
    split
    · next hle => rw [UInt64.toNat_sub_of_le _ _ hle]
    · next hlt =>
      rw [UInt64.le_iff_toNat_le, not_le] at hlt
      rw [Nat.sub_eq_zero_of_le hlt.le]
      rfl

/-- The four calls agree on a path, unless it resolves to the empty key and the row found there is
expired. -/
theorem oneVerdict_iff (hv : db.Valid) (hsrc : src.Canonical)
    (hws : ∀ n k, (ws n).fault k = none) (hsize : 1 ≤ size)
    (hfuel : (db.inNamespace e.ns).length < fuel) (mode : ChangeDetectionMode) :
    OneVerdict e (src.onFiles files mode) files w wUse ws size fuel path db ↔
      ∀ resolved row, RowOf e src path db resolved row → w.fault 0 = none →
        isExpired (w.nowSecs 0) row.updatedAt e.ttl = true → resolved.key ≠ "" := by
  have hdeletes : ∀ {resolved row}, RowOf e (src.onFiles files mode) path db resolved row →
      (CleanupDeletes e ws (w.nowSecs 0) size fuel db row ↔
        resolved.key ≠ "" ∧ isExpired (w.nowSecs 0) row.updatedAt e.ttl = true) := by
    intro resolved row hrow
    rw [cleanupDeletes_iff hv hws hsize hfuel, and_iff_right hrow.mem.1, and_iff_right hrow.mem.2,
      hrow.path_eq]
  constructor
  · intro h resolved row hrow hfault hexpired hkey
    have hrow' : RowOf e (src.onFiles files mode) path db resolved row := hrow
    obtain ⟨d, hd⟩ : ∃ d, explain e (src.onFiles files mode) files w path db = .ok d :=
      explainAt_of_absent hrow' hfault (present_of_key_empty hsrc hrow.1 hkey)
    obtain ⟨-, resolved', hres, -, hremaining⟩ := explainAt_ok hd
    obtain rfl := Except.ok.inj (hrow'.1.symm.trans hres)
    have hzero : d.ttlRemainingSecs = some 0 := by
      rw [hremaining, hrow.2, Option.bind_some]
      exact map_clampI64_eq.mpr hexpired
    obtain ⟨resolved', row', hfound, hdeleted⟩ := (h.expiry d hd).mp hzero
    obtain rfl := Except.ok.inj (hrow'.1.symm.trans hfound.1)
    exact ((hdeletes hfound).mp hdeleted).1 hkey
  · intro h
    refine ⟨fun entry => getIfFresh_eq_some, fun status => getIfFresh_of_not_fresh,
      fun d hd => (explainAt_ok hd).1, fun d hd => ?_, fun resolved row hrow hpresent hdeleted hfault => ?_,
      toNat_ttlRemaining64, fun d secs hd hsecs => ?_⟩
    · obtain ⟨-, resolved, hres, hfault, hremaining⟩ := explainAt_ok hd
      constructor
      · intro hzero
        rw [hremaining] at hzero
        obtain ⟨row, hfind, hzero⟩ := Option.bind_eq_some_iff.mp hzero
        have hexpired := map_clampI64_eq.mp hzero
        exact ⟨resolved, row, ⟨hres, hfind⟩, (hdeletes ⟨hres, hfind⟩).mpr
          ⟨h resolved row ⟨hres, hfind⟩ hfault hexpired, hexpired⟩⟩
      · rintro ⟨resolved', row, hrow, hdeleted⟩
        obtain rfl := Except.ok.inj (hres.symm.trans hrow.1)
        rw [hremaining, hrow.2, Option.bind_some]
        exact map_clampI64_eq.mpr ((hdeletes hrow).mp hdeleted).2
    · exact checkStatus_of_expired hrow hpresent hfault ((hdeletes hrow).mp hdeleted).2
    · obtain ⟨-, resolved, -, -, hremaining⟩ := explainAt_ok hd
      rw [hremaining] at hsecs
      obtain ⟨row, -, hsecs⟩ := Option.bind_eq_some_iff.mp hsecs
      obtain ⟨r, -, rfl⟩ := Option.map_eq_some_iff.mp hsecs
      exact clampI64_mem r

end Verdicts

section Samples

/-- The clock stands at 100 s. -/
def World.late : World := { World.quiet with nowSecs := fun _ => 100 }

/-- Every file is empty, with `mtime` 0. -/
def Files.empty : Files := ⟨fun _ => .ok (0, 0), fun _ => .ok "00", fun _ => .ok "partial:00"⟩

/-- An engine on `ns` with this TTL. -/
def Engine.timed (ns : String) (ttl : ℕ) : Engine := { Engine.plain ns none with ttl := some ttl }

/-- `/a` is expired and `/b` has 2 s left : it is served, and no cleanup deletes it. -/
theorem oneVerdict_iff_sample :
    (OneVerdict (.timed "n" 97) (Sources.rooted.onFiles .empty .metadataOnly) .empty .late .late
        (fun _ => .quiet) 1 4 [47, 97] fourFiles ∧
      OneVerdict (.timed "n" 97) (Sources.rooted.onFiles .empty .metadataOnly) .empty .late .late
        (fun _ => .quiet) 1 4 [47, 98] fourFiles) ∧
      (explain (.timed "n" 97) (Sources.rooted.onFiles .empty .metadataOnly) .empty .late [47, 97]
        fourFiles).map (fun d => (d.status, d.ttlRemainingSecs)) = .ok (.stale, some 0) ∧
      (explain (.timed "n" 97) (Sources.rooted.onFiles .empty .metadataOnly) .empty .late [47, 98]
        fourFiles).map (fun d => (d.status, d.ttlRemainingSecs)) = .ok (.fresh, some 2) := by
  refine ⟨⟨?_, ?_⟩, by decide, by decide⟩
  · refine (oneVerdict_iff valid_fourFiles Sources.canonical_rooted (fun _ _ => rfl) le_rfl (by decide)
      .metadataOnly).mpr ?_
    rintro resolved row ⟨hres, -⟩ - -
    obtain rfl := Except.ok.inj hres
    decide
  · refine (oneVerdict_iff valid_fourFiles Sources.canonical_rooted (fun _ _ => rfl) le_rfl (by decide)
      .metadataOnly).mpr ?_
    rintro resolved row ⟨hres, -⟩ - -
    obtain rfl := Except.ok.inj hres
    decide

/-- A record with the empty path is imported and expires : its remaining time is 0, and no cleanup
deletes its row. -/
theorem emptyPath_expired :
    let db := ((System.init Db.empty : System Unit).run
      [.write (.plain "n" none) .quiet (.importEntries .rooted [plainRecord ""])]).db
    ¬OneVerdict (.timed "n" 10) (Sources.rooted.onFiles .empty .metadataOnly) .empty .late .late
      (fun _ => .quiet) 1 2 [] db := by
  intro db h
  have hkept : (cleanupExpired (.timed "n" 10) (fun _ => .quiet) (fun _ => 100) 1 2 db).map
      (fun o => o.db) = some db := by decide
  have hzero : explain (.timed "n" 10) (Sources.rooted.onFiles .empty .metadataOnly) .empty .late []
      db = .ok ⟨[], .missing, true, false, some 0, none, none, none,
        "Source file no longer exists on disk."⟩ := by decide
  obtain ⟨resolved, row, -, o, ho, hrow, hgone⟩ := (h.expiry _ hzero).mp rfl
  obtain ⟨o', ho', hsame⟩ := Option.map_eq_some_iff.mp hkept
  obtain rfl := Option.some.inj (ho'.symm.trans ho)
  exact hgone (hsame ▸ hrow)

end Samples

end LocalCache
