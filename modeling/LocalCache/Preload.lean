import LocalCache.Addressing
import LocalCache.BatchSequence
import LocalCache.DirWalk

/-!
# Preloading a directory

`preload` takes the files that a scan of a directory found, each with its status, and stores a
payload for those that are not fresh. A file whose payload cannot be computed is skipped and
reported; a failed store ends the preload, and what was stored before it stays.

A preload does the sets of the files it chose, one after the other, and ends with the first that
fails, or with a report that counts every file once (`preload_spec`). On an engine without a bound
and a TTL, and files that do not change, all files of the scan are then fresh, but for those
reported : a second preload stores nothing (`preload_again`).
-/

namespace LocalCache

structure PreloadReport where
  stored : ℕ
  skipped : ℕ
  alreadyFresh : ℕ
  errors : List (Path × String)
  deriving DecidableEq, Repr

/-! ## The loop -/

section Loop

variable {T : Type} (e : Engine) (src : Sources T)

variable (force : Bool) (factory : Path → Except String T) (ws : ℕ → World)

/-- The loop of `preload`, with the world of the `k`th file's `set`. -/
def preloadLoop : ℕ → List (Path × CacheStatus) → PreloadReport → Db →
    Except Error PreloadReport × Db
  | _, [], report, db => (.ok report, db)
  | k, (path, status) :: rest, report, db =>
    if !force ∧ status = .fresh then
      preloadLoop (k + 1) rest { report with alreadyFresh := report.alreadyFresh + 1 } db
    else
      match factory path with
      | .ok payload =>
        let o := set e src (ws k) path payload db
        match o.result with
        | .ok () => preloadLoop (k + 1) rest { report with stored := report.stored + 1 } o.db
        | .error err => (.error err, o.db)
      | .error text =>
        preloadLoop (k + 1) rest
          { report with skipped := report.skipped + 1, errors := report.errors ++ [(path, text)] } db

def preload (scan : Except Error (List (Path × CacheStatus))) (db : Db) :
    Except Error PreloadReport × Db :=
  if e.readOnly then (.error .readOnly, db)
  else
    match scan with
    | .error err => (.error err, db)
    | .ok scan => preloadLoop e src force factory ws 0 scan ⟨0, 0, 0, []⟩ db

/-! ## What the loop chooses -/

/-- The sets of the files that are not kept as fresh and have a payload. -/
def preloadCalls : ℕ → List (Path × CacheStatus) → List (World × Path × T)
  | _, [] => []
  | k, (path, status) :: rest =>
    if !force ∧ status = .fresh then preloadCalls (k + 1) rest
    else
      match factory path with
      | .ok payload => (ws k, path, payload) :: preloadCalls (k + 1) rest
      | .error _ => preloadCalls (k + 1) rest

/-- The files whose payload cannot be computed, with the reason. -/
def preloadErrors : List (Path × CacheStatus) → List (Path × String)
  | [] => []
  | (path, status) :: rest =>
    if !force ∧ status = .fresh then preloadErrors rest
    else
      match factory path with
      | .ok _ => preloadErrors rest
      | .error text => (path, text) :: preloadErrors rest

/-- The number of files kept as fresh. -/
def preloadFresh (scan : List (Path × CacheStatus)) : ℕ :=
  scan.countP fun file => !force ∧ file.2 = .fresh

end Loop

section Reports

variable {T : Type} {e : Engine} {src : Sources T} {force : Bool} {factory : Path → Except String T}
  {ws : ℕ → World} {db db' : Db}

/-- The loop does its sets in order. It returns a report of all files if every set returned, and
else the error of the first that failed, after which it does nothing more. -/
theorem preloadLoop_spec (e : Engine) (src : Sources T) (force : Bool)
    (factory : Path → Except String T) (ws : ℕ → World) : ∀ (scan : List (Path × CacheStatus)) (k : ℕ)
    (report : PreloadReport) (db : Db),
    ((∀ r ∈ (setAll e src (preloadCalls force factory ws k scan) db).1, r = .ok ()) ∧
      preloadLoop e src force factory ws k scan report db =
        (.ok ⟨report.stored + (preloadCalls force factory ws k scan).length,
          report.skipped + (preloadErrors force factory scan).length,
          report.alreadyFresh + preloadFresh force scan,
          report.errors ++ preloadErrors force factory scan⟩,
        (setAll e src (preloadCalls force factory ws k scan) db).2)) ∨
    ∃ before w path payload after err,
      preloadCalls force factory ws k scan = before ++ (w, path, payload) :: after ∧
      (∀ r ∈ (setAll e src before db).1, r = .ok ()) ∧
      (set e src w path payload (setAll e src before db).2).result = .error err ∧
      preloadLoop e src force factory ws k scan report db =
        (.error err, (set e src w path payload (setAll e src before db).2).db)
  | [], k, report, db => by
    refine Or.inl ⟨by simp [preloadCalls, setAll], ?_⟩
    simp [preloadLoop, preloadCalls, preloadErrors, preloadFresh, setAll]
  | (path, status) :: rest, k, report, db => by
    by_cases hfresh : (!force) = true ∧ status = .fresh
    · have hloop : preloadLoop e src force factory ws k ((path, status) :: rest) report db =
          preloadLoop e src force factory ws (k + 1) rest
            { report with alreadyFresh := report.alreadyFresh + 1 } db := by
        rw [preloadLoop, if_pos hfresh]
      have hcount : preloadFresh force ((path, status) :: rest) = preloadFresh force rest + 1 := by
        rw [preloadFresh, List.countP_cons_of_pos (by simpa using hfresh)]
        rfl
      rw [hloop, preloadCalls, if_pos hfresh, preloadErrors, if_pos hfresh, hcount]
      have hrest := preloadLoop_spec e src force factory ws rest (k + 1)
        { report with alreadyFresh := report.alreadyFresh + 1 } db
      rwa [show report.alreadyFresh + 1 + preloadFresh force rest =
        report.alreadyFresh + (preloadFresh force rest + 1) by omega] at hrest
    have hcount : preloadFresh force ((path, status) :: rest) = preloadFresh force rest := by
      rw [preloadFresh, List.countP_cons_of_neg (by simpa using hfresh)]
      rfl
    cases hfactory : factory path with
    | error text =>
      have hloop : preloadLoop e src force factory ws k ((path, status) :: rest) report db =
          preloadLoop e src force factory ws (k + 1) rest
            { report with
              skipped := report.skipped + 1, errors := report.errors ++ [(path, text)] } db := by
        rw [preloadLoop, if_neg hfresh, hfactory]
      have hcalls : preloadCalls force factory ws k ((path, status) :: rest) =
          preloadCalls force factory ws (k + 1) rest := by
        rw [preloadCalls, if_neg hfresh, hfactory]
      have herrors : preloadErrors force factory ((path, status) :: rest) =
          (path, text) :: preloadErrors force factory rest := by
        rw [preloadErrors, if_neg hfresh, hfactory]
      rw [hloop, hcalls, herrors, hcount]
      have hrest := preloadLoop_spec e src force factory ws rest (k + 1)
        { report with skipped := report.skipped + 1, errors := report.errors ++ [(path, text)] } db
      simp only [List.append_assoc, List.singleton_append] at hrest
      rwa [show report.skipped + 1 + (preloadErrors force factory rest).length =
        report.skipped + ((path, text) :: preloadErrors force factory rest).length by
          rw [List.length_cons]; omega] at hrest
    | ok payload =>
      have hcalls : preloadCalls force factory ws k ((path, status) :: rest) =
          (ws k, path, payload) :: preloadCalls force factory ws (k + 1) rest := by
        rw [preloadCalls, if_neg hfresh, hfactory]
      have herrors : preloadErrors force factory ((path, status) :: rest) =
          preloadErrors force factory rest := by
        rw [preloadErrors, if_neg hfresh, hfactory]
      cases hset : (set e src (ws k) path payload db).result with
      | error err =>
        refine Or.inr ⟨[], ws k, path, payload, _, err, hcalls, by simp [setAll], hset, ?_⟩
        rw [preloadLoop, if_neg hfresh, hfactory]
        dsimp only
        rw [hset]
        rfl
      | ok _ =>
        have hloop : preloadLoop e src force factory ws k ((path, status) :: rest) report db =
            preloadLoop e src force factory ws (k + 1) rest
              { report with stored := report.stored + 1 } (set e src (ws k) path payload db).db := by
          rw [preloadLoop, if_neg hfresh, hfactory]
          dsimp only
          rw [hset]
        rw [hloop, hcalls, herrors, hcount]
        rcases preloadLoop_spec e src force factory ws rest (k + 1) { report with stored := report.stored + 1 }
          (set e src (ws k) path payload db).db with
          ⟨hall, hrest⟩ | ⟨before, w, p, v, after, err, hsplit, hall, herr, hrest⟩
        · refine Or.inl ⟨fun r hr => ?_, ?_⟩
          · rcases List.mem_cons.mp hr with rfl | hr
            · exact hset
            · exact hall r hr
          · rw [hrest, List.length_cons, show report.stored +
              ((preloadCalls force factory ws (k + 1) rest).length + 1) =
                report.stored + 1 + (preloadCalls force factory ws (k + 1) rest).length by omega]
            rfl
        · refine Or.inr ⟨(ws k, path, payload) :: before, w, p, v, after, err, ?_, fun r hr => ?_, herr,
            hrest⟩
          · rw [hsplit]
            rfl
          · rcases List.mem_cons.mp hr with rfl | hr
            · exact hset
            · exact hall r hr

/-- Every file is chosen, reported or kept as fresh. -/
theorem preload_counts (force : Bool) (factory : Path → Except String T) (ws : ℕ → World) :
    ∀ (scan : List (Path × CacheStatus)) (k : ℕ),
    (preloadCalls force factory ws k scan).length + (preloadErrors force factory scan).length +
      preloadFresh force scan = scan.length
  | [], _ => rfl
  | (path, status) :: rest, k => by
    have hrest := preload_counts force factory ws rest (k + 1)
    rw [preloadCalls, preloadErrors, preloadFresh, List.countP_cons, List.length_cons, ← hrest,
      preloadFresh]
    by_cases hfresh : (!force) = true ∧ status = .fresh
    · rw [if_pos hfresh, if_pos hfresh, if_pos (by simpa using hfresh)]
      omega
    · rw [if_neg hfresh, if_neg hfresh, if_neg (by simpa using hfresh)]
      cases factory path with
      | ok payload =>
        dsimp only
        rw [List.length_cons]
        omega
      | error text =>
        dsimp only
        rw [List.length_cons]
        omega

/-- A preload that returns a report stored, reported or kept every file, and did the sets of the
files it stored, each of which returned. -/
theorem preload_of_ok {scan : List (Path × CacheStatus)} {report : PreloadReport}
    (h : preload e src force factory ws (.ok scan) db = (.ok report, db')) :
    report.stored + report.skipped + report.alreadyFresh = scan.length ∧
      report.errors = preloadErrors force factory scan ∧ report.skipped = report.errors.length ∧
      report.stored = (preloadCalls force factory ws 0 scan).length ∧
      db' = (setAll e src (preloadCalls force factory ws 0 scan) db).2 ∧
      ∀ r ∈ (setAll e src (preloadCalls force factory ws 0 scan) db).1, r = .ok () := by
  unfold preload at h
  split_ifs at h
  · cases h
  · rcases preloadLoop_spec e src force factory ws scan 0
      ⟨0, 0, 0, []⟩ db with ⟨hall, hloop⟩ | ⟨_, _, _, _, _, err, _, _, _, hloop⟩
    · dsimp only at h
      rw [hloop] at h
      obtain ⟨hreport, rfl⟩ := Prod.mk.inj h
      obtain rfl := Except.ok.inj hreport
      have hcounts := preload_counts force factory ws scan 0
      simp only [Nat.zero_add, List.nil_append]
      exact ⟨hcounts, trivial, trivial, trivial, trivial, hall⟩
    · dsimp only at h
      rw [hloop] at h
      cases h

/-- A preload does the sets it chose one by one. It returns a report that counts every file once
and lists those without a payload, or the error of the first set that failed : what was stored
before stays, and nothing comes after. -/
theorem preload_spec (hro : e.readOnly = false) (scan : List (Path × CacheStatus)) :
    ((∀ r ∈ (setAll e src (preloadCalls force factory ws 0 scan) db).1, r = .ok ()) ∧
      ∃ report, preload e src force factory ws (.ok scan) db =
          (.ok report, (setAll e src (preloadCalls force factory ws 0 scan) db).2) ∧
        report.stored = (preloadCalls force factory ws 0 scan).length ∧
        report.errors = preloadErrors force factory scan ∧ report.skipped = report.errors.length ∧
        report.stored + report.skipped + report.alreadyFresh = scan.length) ∨
    ∃ before w path payload after err,
      preloadCalls force factory ws 0 scan = before ++ (w, path, payload) :: after ∧
      (∀ r ∈ (setAll e src before db).1, r = .ok ()) ∧
      (set e src w path payload (setAll e src before db).2).result = .error err ∧
      preload e src force factory ws (.ok scan) db =
        (.error err, (set e src w path payload (setAll e src before db).2).db) := by
  have hpreload : preload e src force factory ws (.ok scan) db =
      preloadLoop e src force factory ws 0 scan ⟨0, 0, 0, []⟩ db := by
    rw [preload, if_neg (by simp [hro])]
  rcases preloadLoop_spec e src force factory ws scan 0 ⟨0, 0, 0, []⟩ db with ⟨hall, hloop⟩ | hfails
  · have hreport := hpreload.trans hloop
    obtain ⟨hcounts, herrors, hskipped, hstored, -⟩ := preload_of_ok hreport
    exact Or.inl ⟨hall, _, hreport, hstored, herrors, hskipped, hcounts⟩
  · exact Or.inr (by rwa [hpreload])

end Reports

/-! ## After a preload -/

/-- A use that leaves an entry under a key with a property, if all that are used under it have it. -/
theorem exists_foldl_refresh {key : String} {P : CachedEntry → Prop} :
    ∀ (as l : List CachedEntry), (∀ a ∈ as, a.path = key → P a) →
      (∃ x ∈ l ++ as, x.path = key ∧ P x) →
        ∃ x ∈ as.foldl (refresh CachedEntry.path) l, x.path = key ∧ P x
  | [], l, _, ⟨x, hx, hkey, hP⟩ => ⟨x, by simpa using hx, hkey, hP⟩
  | a :: as, l, has, ⟨x, hx, hkey, hP⟩ => by
    rw [List.foldl_cons]
    refine exists_foldl_refresh as _ (fun b hb => has b (List.mem_cons_of_mem _ hb)) ?_
    by_cases ha : a.path = key
    · exact ⟨a, List.mem_append_left _ (List.mem_append_right _ (List.mem_singleton_self a)), ha,
        has a List.mem_cons_self ha⟩
    · have hne : x ≠ a := fun h => ha (h ▸ hkey)
      refine ⟨x, ?_, hkey, hP⟩
      rcases List.mem_append.mp hx with hx | hx
      · exact List.mem_append_left _ (List.mem_append_left _
          (List.mem_filter.mpr ⟨hx, by simpa [hkey] using Ne.symm ha⟩))
      · exact List.mem_append_right _ ((List.mem_cons.mp hx).resolve_left hne)

section Freshness

variable {T : Type} {e : Engine} {src : Sources T} {db : Db}

/-- The entry would be fresh for the file of the path with this canonical form. -/
def CurrentEntry (e : Engine) (src : Sources T) (canonical : Path) (entry : CachedEntry) : Prop :=
  ¬(e.payloadVersion > 0 ∧ entry.payloadVersion ≠ e.payloadVersion) ∧
    src.detectChange canonical entry.metadata = .ok .fresh

/-- Nothing changes : what `set` collects of a file is fresh for the file. -/
def Unchanging (src : Sources T) : Prop :=
  ∀ path canonical pathStr metadata, occupy src path = .ok (canonical, pathStr, metadata) →
    src.detectChange canonical metadata = .ok .fresh

theorem exists_row_of_mem_entries (hv : db.Valid) {ns : String} {entry : CachedEntry}
    (h : entry ∈ db.entries ns) :
    ∃ row, db.find? ns entry.path = some row ∧ row.metadata = entry.metadata ∧
      row.payloadVersion = entry.payloadVersion := by
  obtain ⟨row, hrow, rfl⟩ := List.mem_map.mp h
  obtain ⟨hmem, hns⟩ := Db.mem_byUse.mp hrow
  exact ⟨row, hv.find?_eq_some.mpr ⟨hmem, hns, rfl⟩, rfl, rfl⟩

/-- Without a TTL, a file is fresh exactly when it exists and its key has an entry that would be. -/
theorem checkStatus_eq_fresh_iff (hv : db.Valid) (httl : e.ttl = none) {w : World}
    (hfault : w.fault 0 = none) {path : Path} :
    checkStatus e src w path db = .ok .fresh ↔
      ∃ resolved, resolvePathKey src path = .ok resolved ∧ resolved.present = true ∧
        ∃ entry ∈ db.entries e.ns, entry.path = resolved.key ∧
          CurrentEntry e src resolved.path entry := by
  have httlNone : ∀ now updatedAt, ttlRemaining now updatedAt e.ttl ≠ some 0 := fun now updatedAt => by
    rw [ttlRemaining, httl]
    simp
  constructor
  · intro h
    have hfind := getIfFreshFind_of_checkStatus e src w path db
    rw [h] at hfind
    obtain ⟨resolved, row, hrow, -, hok⟩ := hfind
    obtain ⟨hmem, hns⟩ := hrow.mem
    have hentry : db.entry row ∈ db.entries e.ns :=
      List.mem_map_of_mem (Db.mem_byUse.mpr ⟨hmem, hns⟩)
    simp only [checkStatus, checkStatusAt, bind, Except.bind, pure, Except.pure, hrow.1] at h
    split_ifs at h with hpresent
    · cases h
    · have hfound : findFile e w resolved.key db = .ok (some row) :=
        findFile_eq_ok.mpr ⟨hfault, hrow.2⟩
      rw [hfound] at h
      dsimp only at h
      rw [if_neg (httlNone _ _)] at h
      split_ifs at h with hversion
      · cases h
      · exact ⟨resolved, hrow.1, by simpa using hpresent, _, hentry, hrow.path_eq, hversion, h⟩
  · rintro ⟨resolved, hresolved, hpresent, entry, hentry, hpath, hversion, hdetect⟩
    obtain ⟨row, hrow, hmetadata, hpv⟩ := exists_row_of_mem_entries hv hentry
    rw [hpath] at hrow
    have hfound : findFile e w resolved.key db = .ok (some row) := findFile_eq_ok.mpr ⟨hfault, hrow⟩
    simp only [checkStatus, checkStatusAt, bind, Except.bind, pure, Except.pure, hresolved, hpresent,
      Bool.not_true, Bool.false_eq_true, if_false, hfound]
    rw [if_neg (httlNone _ _), if_neg (by rwa [hpv]), hmetadata, hdetect]

/-- What a prepared item stores for a path. -/
theorem prepare_eq_ok {path : Path} {payload : T} {item : Prepared}
    (h : prepare src path payload = .ok item) :
    ∃ canonical, occupy src path = .ok (canonical, item.path, item.metadata) := by
  unfold prepare at h
  split at h
  · cases h
  · next canonical pathStr metadata hocc =>
    split at h
    · cases h
    · rw [← Except.ok.inj h]
      exact ⟨canonical, hocc⟩

/-- The path of what occupies a row is the canonical form of its source, as text. -/
theorem occupy_eq_ok {path canonical : Path} {pathStr : String} {metadata : FileMetadata}
    (h : occupy src path = .ok (canonical, pathStr, metadata)) :
    src.normalizePath path = .ok canonical ∧ pathToStr canonical = .ok pathStr := by
  unfold occupy at h
  cases hnormal : src.normalizePath path with
  | error err => simp [hnormal, bind, Except.bind, Except.mapError] at h
  | ok c =>
    cases hstr : pathToStr c with
    | error err => simp [hnormal, hstr, bind, Except.bind, Except.mapError] at h
    | ok s =>
      simp only [hnormal, hstr, bind, Except.bind, Except.mapError, pure, Except.pure] at h
      split at h
      · cases h
      · split at h
        · cases h
        · obtain ⟨rfl, rest⟩ := Prod.mk.inj (Except.ok.inj h)
          obtain ⟨rfl, -⟩ := Prod.mk.inj rest
          exact ⟨rfl, hstr⟩

theorem valid_setAll (hro : e.readOnly = false) (hbound : e.maxEntries ≠ some 0) :
    ∀ (calls : List (World × Path × T)) {db : Db}, db.Valid → SetsWork e src calls db →
      (setAll e src calls db).2.Valid
  | [], _, hv, _ => hv
  | (w, path, payload) :: calls, db, hv, ⟨hworks, huse, hrest⟩ => by
    refine valid_setAll hro hbound calls ?_ hrest
    cases hprepare : prepare src path payload with
    | ok item => exact (set_of_prepare hv hro hbound hworks huse hprepare).2.1
    | error failed =>
      rw [set_eq e src w path payload db hro, hprepare]
      exact hv

/-- Sets that all returned had items that prepare. -/
theorem prepares_of_setAll (hro : e.readOnly = false) : ∀ (calls : List (World × Path × T)) (db : Db),
    (∀ r ∈ (setAll e src calls db).1, r = .ok ()) →
      ∀ call ∈ calls, ∃ item, prepare src call.2.1 call.2.2 = .ok item
  | [], _, _ => by simp
  | (w, path, payload) :: calls, db, hall => by
    intro call hcall
    rcases List.mem_cons.mp hcall with rfl | hcall
    · have hset := hall _ List.mem_cons_self
      cases hprepare : prepare src path payload with
      | ok item => exact ⟨item, rfl⟩
      | error failed =>
        rw [set_eq e src w path payload db hro, hprepare] at hset
        cases hset
    · exact prepares_of_setAll hro calls _ (fun r hr => hall r (List.mem_cons_of_mem _ hr)) call hcall

variable {force : Bool} {factory : Path → Except String T} {ws ws' : ℕ → World}

/-- A file of a scan is kept as fresh, or stored, or reported. -/
theorem preload_cases (force : Bool) (factory : Path → Except String T) (ws : ℕ → World) {path : Path}
    {status : CacheStatus} :
    ∀ {scan : List (Path × CacheStatus)} (k : ℕ), (path, status) ∈ scan →
      status = .fresh ∨ (∃ w payload, (w, path, payload) ∈ preloadCalls force factory ws k scan) ∨
        path ∈ (preloadErrors force factory scan).map Prod.fst
  | (p, st) :: rest, k, hmem => by
    rw [preloadCalls, preloadErrors]
    by_cases hfresh : (!force) = true ∧ st = .fresh
    · rw [if_pos hfresh, if_pos hfresh]
      rcases List.mem_cons.mp hmem with heq | hmem
      · obtain ⟨rfl, rfl⟩ := Prod.mk.inj heq
        exact Or.inl hfresh.2
      · exact preload_cases force factory ws (k + 1) hmem
    · rw [if_neg hfresh, if_neg hfresh]
      rcases List.mem_cons.mp hmem with heq | hmem
      · obtain ⟨rfl, rfl⟩ := Prod.mk.inj heq
        cases factory path with
        | ok payload => exact Or.inr (Or.inl ⟨ws k, payload, List.mem_cons_self⟩)
        | error text => exact Or.inr (Or.inr (List.mem_cons_self))
      · rcases preload_cases force factory ws (k + 1) hmem with h | ⟨w, payload, h⟩ | h
        · exact Or.inl h
        · refine Or.inr (Or.inl ⟨w, payload, ?_⟩)
          cases factory p with
          | ok payload' => exact List.mem_cons_of_mem _ h
          | error text => exact h
        · refine Or.inr (Or.inr ?_)
          cases factory p with
          | ok payload' => exact h
          | error text => exact List.mem_cons_of_mem _ h

/-- The status a scan found is that of the file. -/
theorem mem_scanStatuses {path : Path} {status : CacheStatus} : ∀ {paths : List Path} {k : ℕ}
    {scan : List (Path × CacheStatus)}, scanStatuses e src ws db k paths = .ok scan →
      (path, status) ∈ scan → ∃ k, checkStatus e src (ws k) path db = .ok status
  | [], k, scan, h, hmem => by
    rw [← Except.ok.inj h] at hmem
    cases hmem
  | p :: rest, k, scan, h, hmem => by
    obtain ⟨st, more, hstatus, hrest, rfl⟩ := scanStatuses_cons_eq_ok.mp h
    rcases List.mem_cons.mp hmem with heq | hmem
    · obtain ⟨rfl, rfl⟩ := Prod.mk.inj heq
      exact ⟨k, hstatus⟩
    · exact mem_scanStatuses hrest hmem

theorem scanStatuses_of_fresh : ∀ {paths : List Path} {k : ℕ},
    (∀ path ∈ paths, ∀ k, checkStatus e src (ws k) path db = .ok .fresh) →
      scanStatuses e src ws db k paths = .ok (paths.map (·, .fresh))
  | [], _, _ => rfl
  | path :: rest, k, h => by
    rw [scanStatuses, h path List.mem_cons_self k,
      scanStatuses_of_fresh fun p hp => h p (List.mem_cons_of_mem _ hp)]
    rfl

theorem paths_of_scanStatuses : ∀ {paths : List Path} {k : ℕ} {scan : List (Path × CacheStatus)},
    scanStatuses e src ws db k paths = .ok scan → scan.map Prod.fst = paths
  | [], k, scan, h => by rw [← Except.ok.inj h]; rfl
  | p :: rest, k, scan, h => by
    obtain ⟨st, more, -, hrest, rfl⟩ := scanStatuses_cons_eq_ok.mp h
    rw [List.map_cons, paths_of_scanStatuses hrest]

/-- A file that was fresh or is stored, is fresh after the sets of a preload. -/
theorem fresh_of_setAll (hv : db.Valid) (hro : e.readOnly = false) (hbound : e.maxEntries = none)
    (httl : e.ttl = none) (hun : Unchanging src) {calls : List (World × Path × T)}
    (hworks : SetsWork e src calls db) (hall : ∀ r ∈ (setAll e src calls db).1, r = .ok ())
    {w w' : World} (hfault : w.fault 0 = none) (hfault' : w'.fault 0 = none) {path : Path}
    (h : checkStatus e src w path db = .ok .fresh ∨ ∃ w payload, (w, path, payload) ∈ calls) :
    checkStatus e src w' path (setAll e src calls db).2 = .ok .fresh := by
  have hbound' : e.maxEntries ≠ some 0 := by simp [hbound]
  have hprepares := prepares_of_setAll hro calls db hall
  have hentries := (setAll_of_setsWork hro hbound' calls hv hworks).2
  simp only [hbound, keepNewest] at hentries
  -- every item stored under the key is current, since its source has the same canonical form
  have hcurrent : ∀ canonical key, pathToStr canonical = .ok key →
      ∀ a ∈ (calls.filterMap fun call => (prepare src call.2.1 call.2.2).toOption).map
        (Prepared.entry e.payloadVersion), a.path = key → CurrentEntry e src canonical a := by
    intro canonical key hkey a ha hpath
    obtain ⟨item, hitem, rfl⟩ := List.mem_map.mp ha
    obtain ⟨call, -, hprepare⟩ := List.mem_filterMap.mp hitem
    obtain ⟨item', hok⟩ : ∃ item', prepare src call.2.1 call.2.2 = .ok item' := by
      cases hprep : prepare src call.2.1 call.2.2 with
      | ok item' => exact ⟨item', rfl⟩
      | error failed =>
        rw [hprep] at hprepare
        cases hprepare
    rw [hok] at hprepare
    obtain rfl := Option.some.inj hprepare
    obtain ⟨canonical', hocc⟩ := prepare_eq_ok hok
    have hsame : canonical' = canonical := by
      have h' := pathToStr_eq_ok (occupy_eq_ok hocc).2
      rw [show item'.path = key from hpath, pathToStr_eq_ok hkey] at h'
      exact h'.symm
    exact ⟨fun hversion => hversion.2 rfl, hsame ▸ hun _ _ _ _ hocc⟩
  rw [checkStatus_eq_fresh_iff (valid_setAll hro hbound' calls hv hworks) httl hfault', hentries]
  rcases h with hfresh | ⟨wc, payload, hcall⟩
  · obtain ⟨resolved, hresolved, hpresent, entry, hentry, hpath, hcur⟩ :=
      (checkStatus_eq_fresh_iff hv httl hfault).mp hfresh
    have hkey : pathToStr resolved.path = .ok resolved.key := by
      unfold resolvePathKey at hresolved
      split at hresolved
      · next canonical _ =>
        cases hstr : pathToStr canonical with
        | error err =>
          rw [hstr] at hresolved
          cases hresolved
        | ok key =>
          rw [hstr] at hresolved
          rw [← Except.ok.inj hresolved]
          exact hstr
      · cases hstr : pathToStr path with
        | error err =>
          rw [hstr] at hresolved
          cases hresolved
        | ok key =>
          rw [hstr] at hresolved
          rw [← Except.ok.inj hresolved] at hpresent
          cases hpresent
      · cases hresolved
    exact ⟨resolved, hresolved, hpresent, exists_foldl_refresh _ _ (hcurrent _ _ hkey)
      ⟨entry, List.mem_append_left _ hentry, hpath, hcur⟩⟩
  · obtain ⟨item, hprepare⟩ := hprepares _ hcall
    obtain ⟨canonical, hocc⟩ := prepare_eq_ok hprepare
    obtain ⟨hnormal, hkey⟩ := occupy_eq_ok hocc
    have hmem : item.entry e.payloadVersion ∈
        (calls.filterMap fun call => (prepare src call.2.1 call.2.2).toOption).map
          (Prepared.entry e.payloadVersion) :=
      List.mem_map_of_mem (List.mem_filterMap.mpr ⟨_, hcall, by rw [hprepare]; rfl⟩)
    refine ⟨⟨true, canonical, item.path⟩, ?_, rfl, exists_foldl_refresh _ _ (hcurrent _ _ hkey)
      ⟨_, List.mem_append_right _ hmem, rfl, hcurrent _ _ hkey _ hmem rfl⟩⟩
    rw [resolvePathKey, hnormal]
    dsimp only
    rw [hkey]
    rfl

/-- After a preload that returned a report every file of the scan is fresh, but for those reported. -/
theorem fresh_of_preload (hv : db.Valid) (hbound : e.maxEntries = none) (httl : e.ttl = none)
    (hun : Unchanging src) {paths : List Path} {scan : List (Path × CacheStatus)} {ws₀ : ℕ → World}
    (hfault₀ : ∀ k, (ws₀ k).fault 0 = none) (hscan : scanStatuses e src ws₀ db 0 paths = .ok scan)
    (hworks : SetsWork e src (preloadCalls force factory ws 0 scan) db) {report : PreloadReport} {db' : Db}
    (h : preload e src force factory ws (.ok scan) db = (.ok report, db')) {w : World}
    (hfault : w.fault 0 = none) {path : Path} (hpath : path ∈ paths)
    (hreported : path ∉ report.errors.map Prod.fst) : checkStatus e src w path db' = .ok .fresh := by
  have hro : e.readOnly = false := by
    by_contra hro
    rw [preload, if_pos (by simpa using hro)] at h
    cases h
  obtain ⟨-, herrors, -, -, rfl, hall⟩ := preload_of_ok h
  rw [← paths_of_scanStatuses hscan] at hpath
  obtain ⟨⟨p, status⟩, hmem, rfl⟩ := List.mem_map.mp hpath
  obtain ⟨k, hstatus⟩ := mem_scanStatuses hscan hmem
  refine fresh_of_setAll hv hro hbound httl hun hworks hall (hfault₀ k) hfault ?_
  rcases preload_cases force factory ws 0 hmem with
    rfl | hstored | herror
  · exact Or.inl hstatus
  · exact Or.inr hstored
  · rw [herrors] at hreported
    exact absurd herror hreported

/-- A preload of fresh files stores nothing. -/
theorem preload_of_fresh (hro : e.readOnly = false) (paths : List Path) :
    preload e src false factory ws (.ok (paths.map (·, .fresh))) db =
      (.ok ⟨0, 0, paths.length, []⟩, db) := by
  have hcalls : ∀ (paths : List Path) (k : ℕ),
      preloadCalls false factory ws k (paths.map (·, .fresh)) = [] := fun paths => by
    induction paths with
    | nil => exact fun _ => rfl
    | cons path rest ih => exact fun k => by rw [List.map_cons, preloadCalls, if_pos ⟨rfl, rfl⟩, ih]
  have hcounts := preload_counts false factory ws
    (paths.map fun path => (path, CacheStatus.fresh)) 0
  have hfresh : preloadFresh false (paths.map fun path => (path, CacheStatus.fresh)) = paths.length := by
    simp [preloadFresh]
  rw [hcalls, hfresh, List.length_nil, List.length_map] at hcounts
  have herrors : preloadErrors false factory (paths.map fun path => (path, CacheStatus.fresh)) = [] :=
    List.length_eq_zero_iff.mp (by omega)
  rw [preload, if_neg (by simp [hro])]
  rcases preloadLoop_spec e src false factory ws
    (paths.map fun path => (path, CacheStatus.fresh)) 0 ⟨0, 0, 0, []⟩ db with
    ⟨-, hloop⟩ | ⟨before, w, path, payload, after, err, hsplit, -⟩
  · rw [hcalls, herrors, hfresh] at hloop
    simpa [setAll] using hloop
  · rw [hcalls] at hsplit
    simp at hsplit

/-- A second preload of a directory that did not change stores nothing, if the first one returned
with no file skipped : every file it finds is fresh. -/
theorem preload_again (hv : db.Valid) (hbound : e.maxEntries = none) (httl : e.ttl = none)
    (hun : Unchanging src) {paths : List Path} {scan : List (Path × CacheStatus)} {ws₀ ws₁ : ℕ → World}
    (hfault₀ : ∀ k, (ws₀ k).fault 0 = none) (hfault₁ : ∀ k, (ws₁ k).fault 0 = none)
    (hscan : scanStatuses e src ws₀ db 0 paths = .ok scan)
    (hworks : SetsWork e src (preloadCalls force factory ws 0 scan) db) {report : PreloadReport} {db' : Db}
    (h : preload e src force factory ws (.ok scan) db = (.ok report, db')) (hskipped : report.skipped = 0)
    (factory' : Path → Except String T) :
    scanStatuses e src ws₁ db' 0 paths = .ok (paths.map (·, .fresh)) ∧
      preload e src false factory' ws' (scanStatuses e src ws₁ db' 0 paths) db' =
        (.ok ⟨0, 0, paths.length, []⟩, db') := by
  have hro : e.readOnly = false := by
    by_contra hro
    rw [preload, if_pos (by simpa using hro)] at h
    cases h
  have hnone : report.errors = [] := by
    obtain ⟨-, -, hlength, -⟩ := preload_of_ok h
    exact List.length_eq_zero_iff.mp (hlength.symm.trans hskipped)
  have hagain : scanStatuses e src ws₁ db' 0 paths = .ok (paths.map (·, .fresh)) :=
    scanStatuses_of_fresh fun path hpath k =>
      fresh_of_preload hv hbound httl hun hfault₀ hscan hworks h (hfault₁ k) hpath (by simp [hnone])
  refine ⟨hagain, ?_⟩
  rw [hagain]
  exact preload_of_fresh hro paths

/-- Files that answer the same do not change, for every mode, if a full hash is never taken for a
partial one. -/
theorem unchanging_onFiles (src : Sources T) {files : Files} (mode : ChangeDetectionMode)
    (hfull : ∀ path digest, files.computeFullHash path = .ok digest → isPartialHash digest = false) :
    Unchanging (src.onFiles files mode) := by
  intro path canonical pathStr metadata hocc
  obtain ⟨hnormal, hkey⟩ := occupy_eq_ok hocc
  -- what was collected is what the files answer
  have hcollected : ∃ current, collectMetadata files canonical = .ok current ∧
      ∃ hash, computeHashForMode files mode canonical = .ok hash ∧
        metadata = { current with hash := hash } := by
    unfold occupy at hocc
    simp only [hnormal, hkey, bind, Except.bind, Except.mapError, pure, Except.pure] at hocc
    cases hmetadata : (src.onFiles files mode).collectMetadata canonical with
    | error err =>
      rw [hmetadata] at hocc
      cases hocc
    | ok current =>
      cases hhash : (src.onFiles files mode).computeHash canonical with
      | error err =>
        rw [hmetadata, hhash] at hocc
        cases hocc
      | ok hash =>
        rw [hmetadata, hhash] at hocc
        obtain ⟨-, rest⟩ := Prod.mk.inj (Except.ok.inj hocc)
        exact ⟨current, hmetadata, hash, hhash, ((Prod.mk.inj rest).2).symm⟩
  obtain ⟨current, hcurrent, hash, hhash, rfl⟩ := hcollected
  have hmatches : metadataMatches { current with hash := hash } current = true := by
    simp [metadataMatches]
  show detectChange files canonical { current with hash := hash } mode = .ok .fresh
  cases mode with
  | metadataOnly =>
    simp only [detectChange, detectMetadataOnly, hcurrent, bind, Except.bind, pure, Except.pure,
      hmatches, if_true]
  | metadataThenPartialHash =>
    simp only [detectChange, detectMetadataThenPartialHash, hcurrent, bind, Except.bind, pure,
      Except.pure, hmatches, if_true]
  | metadataThenFullHash =>
    simp only [detectChange, detectMetadataThenFullHash, hcurrent, bind, Except.bind, pure,
      Except.pure, hmatches, if_true]
  | strictFullHash =>
    cases hdigest : files.computeFullHash canonical with
    | error err =>
      rw [computeHashForMode, hdigest] at hhash
      cases hhash
    | ok digest =>
      rw [computeHashForMode, hdigest] at hhash
      obtain rfl := Except.ok.inj hhash
      simp [detectChange, detectStrictFullHash, compareFullHash, hfull canonical digest hdigest, hdigest,
        Except.map, freshenIfEqual]

end Freshness

/-! ## One file -/

section Samples

/-- An empty file exists under every path, and never changes. -/
def Sources.still : Sources Unit := Sources.quiet.onFiles .empty .strictFullHash

/-- Of two files one is fresh, and the other has no payload. -/
theorem preload_spec_sample : ∃ report,
    preload (.plain "n" none) .still false (fun _ => .error "no payload") (fun _ => .quiet)
      (.ok [([47, 97], .fresh), ([47, 98], .missing)]) Db.empty = (.ok report, Db.empty) ∧
    report.errors = [([47, 98], "no payload")] := by
  have hcalls : preloadCalls false (fun _ => (.error "no payload" : Except String Unit))
      (fun _ => World.quiet) 0 [([47, 97], .fresh), ([47, 98], .missing)] = [] := rfl
  rcases preload_spec (rfl : (Engine.plain "n" none).readOnly = false)
    [([47, 97], .fresh), ([47, 98], .missing)] with
    ⟨-, report, hreport, -, herrors, -⟩ | ⟨before, w, path, payload, after, err, hsplit, -⟩
  · exact ⟨report, hreport, herrors⟩
  · rw [hcalls] at hsplit
    simp at hsplit

theorem preload_again_sample :
    let db' := (preload (.plain "n" none) .still false (fun _ => .ok ()) (fun _ => .quiet)
      (.ok [([47, 97], .missing)]) Db.empty).2
    preload (.plain "n" none) .still false (fun _ => .error "") (fun _ => .quiet)
      (scanStatuses (.plain "n" none) .still (fun _ => .quiet) db' 0 [[47, 97]]) db' =
        (.ok ⟨0, 0, 1, []⟩, db') := by
  intro db'
  have hscan : scanStatuses (.plain "n" none) .still (fun _ => .quiet) Db.empty 0 [[47, 97]] =
      .ok [([47, 97], .missing)] := by decide +kernel
  have hreport : (preload (.plain "n" none) .still false (fun _ => .ok ()) (fun _ => .quiet)
      (.ok [([47, 97], .missing)]) Db.empty).1 = .ok ⟨1, 0, 0, []⟩ := by decide +kernel
  have hworks : SetsWork (.plain "n" none) .still (preloadCalls false (fun _ => .ok ())
      (fun _ => .quiet) 0 [([47, 97], .missing)]) Db.empty :=
    ⟨⟨fun _ => rfl, by decide⟩, by decide +kernel, trivial⟩
  have hunchanging : Unchanging Sources.still :=
    unchanging_onFiles .quiet .strictFullHash fun path digest hdigest => by
      rw [← Except.ok.inj hdigest]
      decide +kernel
  have hquiet : ∀ k, ((fun _ => World.quiet : ℕ → World) k).fault 0 = none := fun _ => rfl
  exact (preload_again Db.valid_empty rfl rfl hunchanging hquiet hquiet hscan hworks
    (Prod.ext hreport rfl) rfl _).2

end Samples

end LocalCache
