import LocalCache.Listing
import LocalCache.TornReads

/-!
# Finding a listed entry by its path

`keys`, `list_entries` and a query return stored paths. `contains` and `remove` resolve the path
they are given against the file system of that moment : an existing file has its canonical
path for a key, and a missing one the exact path given. So a listed path leads back to its row
while it is its own canonical form or no file exists under it, and only then
(`addressable_iff_of_listed`). A relative path that an import brought leads elsewhere once a
file answers to it (`relativeImport_unaddressable`).
-/

namespace LocalCache

section Calls

variable {T : Type} (e : Engine) (src : Sources T) (w : World)

/-- `SELECT COUNT(*) FROM files WHERE namespace = ?1 AND path = ?2`. -/
def Sql.countKey (ns path : String) (db : Db) : ℕ :=
  (db.files.filter fun r => Db.HasKey ns path r).length

def contains (path : Path) (db : Db) : Except Error Bool := do
  let resolved ← resolvePathKey src path
  (autocommit (select w fun db => decide (0 < Sql.countKey e.ns resolved.key db)) db).1

/-- The path is its own canonical form, or no file exists under it. -/
def Sources.Keeps (path : String) : Prop :=
  src.normalizePath (strBytes path) = .ok (strBytes path) ∨
    ∃ p, src.normalizePath (strBytes path) = .error (.fileNotFound p)

/-- The entry under the path is found by it, and removed by it with no other. -/
structure Addressable (db : Db) (path : String) : Prop where
  contains : contains e src w (strBytes path) db = .ok true
  removed : (remove e src w (strBytes path) db).result = .ok true
  rows : ∀ r, r ∈ (remove e src w (strBytes path) db).db.files ↔
    r ∈ db.files ∧ ¬Db.HasKey e.ns path r

end Calls

/-! ## What the listings return -/

/-- A row of the namespace is stored under the path. -/
def Db.HasPath (db : Db) (ns path : String) : Prop := ∃ r ∈ db.files, Db.HasKey ns path r

section Listings

variable {T : Type} {lib : QueryLib T} {src : Sources T} {e : Engine} {w : World} {q : Query}
  {db : Db}

/-- A listing of the namespace returns the path. -/
inductive Listed (lib : QueryLib T) (e : Engine) (db : Db) : String → Prop
  | keys {w : World} {pattern : Option String} {paths : List String} {path : String}
      (ok : keys e w db lib pattern = .ok paths) (mem : path ∈ paths) : Listed lib e db path
  | entries {w : World} {infos : List EntryInfo} {info : EntryInfo}
      (ok : listEntries e w db = .ok infos) (mem : info ∈ infos) : Listed lib e db info.path
  | found {src : Sources T} {q : Query} {ws : ℕ → World} {fuel : ℕ} {report : QueryReport T}
      {entry : CacheEntry T} (ok : runReport lib src e q ws fuel db = some (.ok report))
      (mem : entry ∈ report.entries) : Listed lib e db entry.path
  | skipped {src : Sources T} {q : Query} {ws : ℕ → World} {fuel : ℕ} {report : QueryReport T}
      {entry : SkippedEntry} (ok : runReport lib src e q ws fuel db = some (.ok report))
      (mem : entry ∈ report.skipped) : Listed lib e db entry.path

/-- Every path of a report is one of these. -/
structure QueryReport.Within (P : String → Prop) (report : QueryReport T) : Prop where
  entries : ∀ entry ∈ report.entries, P entry.path
  skipped : ∀ entry ∈ report.skipped, P entry.path

/-- Every path that a page has or may still get is one of these. -/
structure Filling.Within (P : String → Prop) (f : Filling T) : Prop where
  rest : ∀ c ∈ f.rest, P c.path
  report : (⟨f.entries, f.skipped⟩ : QueryReport T).Within P

/-- The same of a statement of a query. -/
def StepWithin (P : String → Prop) : QueryPhase T ⊕ QueryReport T → Prop
  | .inl (.filling f) => f.Within P
  | .inl _ => True
  | .inr report => report.Within P

variable {P : String → Prop}

theorem stepWithin_finishFilling {f : Filling T} (h : f.Within P) :
    StepWithin P (finishFilling q f) := by
  unfold finishFilling
  split_ifs
  · exact h.report
  · exact h

theorem stepWithin_startFilling {fields : List String}
    {rows : List (CandidateRow × List (Option F64))} (h : ∀ row ∈ rows, P row.1.path) :
    StepWithin P (startFilling q fields rows : QueryPhase T ⊕ QueryReport T) := by
  refine stepWithin_finishFilling ⟨fun c hc => ?_, by simp, by simp⟩
  obtain ⟨row, hrow, rfl⟩ := List.mem_map.mp hc
  exact h row ((List.perm_insertionSort _ rows).mem_iff.mp hrow)

theorem Filling.Within.fillOne {payloads : List PayloadRow} {c : CandidateRow} {f : Filling T}
    (h : f.Within P) (hc : P c.path) : (fillOne src payloads c f).Within P := by
  unfold LocalCache.fillOne
  split
  · exact h
  · split
    · refine ⟨h.rest, h.report.entries, fun entry hentry => ?_⟩
      rcases List.mem_append.mp hentry with hentry | hentry
      · exact h.report.skipped entry hentry
      · rwa [List.mem_singleton.mp hentry]
    · split_ifs
      · exact ⟨h.rest, h.report⟩
      · refine ⟨h.rest, fun entry hentry => ?_, h.report.skipped⟩
        rcases List.mem_append.mp hentry with hentry | hentry
        · exact h.report.entries entry hentry
        · rwa [List.mem_singleton.mp hentry]

theorem Filling.Within.fillWindow {limit : Option ℕ} {payloads : List PayloadRow} :
    ∀ {window : List CandidateRow} {f : Filling T}, f.Within P → (∀ c ∈ window, P c.path) →
      (fillWindow src limit payloads window f).Within P
  | [], _, h, _ => h
  | c :: window, f, h, hwindow => by
    have hone : (LocalCache.fillOne src payloads c f).Within P :=
      h.fillOne (hwindow c List.mem_cons_self)
    rw [LocalCache.fillWindow]
    split_ifs
    · exact hone
    · exact hone.fillWindow fun c' hc' => hwindow c' (List.mem_cons_of_mem _ hc')

theorem within_tier3Report {rows : List (CandidateRow × Option PayloadRow)}
    (h : ∀ row ∈ rows, P row.1.path) : (tier3Report lib src q rows).Within P := by
  refine ⟨fun entry hentry => ?_, fun entry hentry => ?_⟩
  · obtain ⟨row, hrow, -, -, -, heq⟩ := entries_tier3Report hentry
    rw [heq]
    exact h row hrow
  · obtain ⟨decoded, hdecoded, hleft⟩ := List.mem_filterMap.mp hentry
    obtain ⟨row, hrow, hcandidate⟩ := List.mem_filterMap.mp hdecoded
    obtain rfl := Sum.getLeft?_eq_some_iff.mp hleft
    have hpath : entry.path = row.1.path := by
      unfold decodeCandidate at hcandidate
      split at hcandidate
      · exact absurd hcandidate (by simp)
      · have hone := Option.some.inj hcandidate
        split at hone
        · rw [← Sum.inl.inj hone]
        · split_ifs at hone
          · split at hone
            · rw [← Sum.inl.inj hone]
            · exact absurd hone (by simp)
    rw [hpath]
    exact h row hrow

theorem hasPath_filteredRows {filters : PreparedPathFilters} {ns : String} {r : FileRow}
    (h : r ∈ Sql.filteredRows lib ns filters db) : db.HasPath ns r.path := by
  obtain ⟨hr, hns⟩ := mem_filteredRows h
  exact ⟨r, hr, hns, rfl⟩

/-- A statement of a query reads rows of the namespace, and reports what it read. -/
theorem StepWithin.step {phase : QueryPhase T} (h : StepWithin (db.HasPath e.ns) (.inl phase))
    {out : QueryPhase T ⊕ QueryReport T} {t : Tx}
    (hstep : phase.step lib src e w q ⟨db, 0, 0⟩ = .ok (out, t)) :
    StepWithin (db.HasPath e.ns) out := by
  cases phase with
  | planning filters selectFields whereFields =>
    obtain ⟨allJson, -, rfl⟩ := StateExcept.map_eq_ok hstep
    trivial
  | planned filters plan =>
    cases plan with
    | tier1 =>
      obtain ⟨rows, hrows, rfl⟩ := StateExcept.map_eq_ok hstep
      obtain ⟨rfl, -, -⟩ := select_ok hrows
      refine stepWithin_startFilling fun row hrow => ?_
      obtain ⟨c, hc, rfl⟩ := List.mem_map.mp hrow
      obtain ⟨r, hr, rfl⟩ := List.mem_map.mp hc
      exact hasPath_filteredRows hr
    | tier2 selectFields whereFields =>
      obtain ⟨rows, hrows, rfl⟩ := StateExcept.map_eq_ok hstep
      obtain ⟨hread, -, -⟩ := selectOrFail_ok hrows
      refine stepWithin_startFilling fun row hrow => ?_
      obtain ⟨r, hr, heq⟩ := mem_queryCandidatesJsonPushdown hread hrow
      rw [heq]
      exact hasPath_filteredRows hr
    | tier3 =>
      obtain ⟨rows, hrows, rfl⟩ := StateExcept.map_eq_ok hstep
      obtain ⟨rfl, -, -⟩ := select_ok hrows
      refine within_tier3Report fun row hrow => ?_
      obtain ⟨r, hr, rfl⟩ := List.mem_map.mp hrow
      exact hasPath_filteredRows hr
  | filling f =>
    obtain ⟨payloads, -, rfl⟩ := StateExcept.map_eq_ok hstep
    have hwindow : (fillWindow src q.limit payloads (f.window q.limit) f).Within (db.HasPath e.ns) :=
      Filling.Within.fillWindow h fun c hc => h.rest c (List.mem_of_mem_take hc)
    exact stepWithin_finishFilling
      ⟨fun c hc => h.rest c (List.mem_of_mem_drop hc), hwindow.report⟩

theorem within_of_runPhase {ws : ℕ → World} {report : QueryReport T} : ∀ {fuel : ℕ}
    {phase : QueryPhase T}, StepWithin (db.HasPath e.ns) (.inl phase) →
      runPhase lib src e q ws db fuel phase = some (.ok report) → report.Within (db.HasPath e.ns)
  | 0, _, _, h => absurd h (by simp [runPhase])
  | fuel + 1, phase, hphase, h => by
    rw [runPhase] at h
    rcases autocommit_cases (phase.step lib src e (ws fuel) q) db with
      ⟨out, t, hrun, hbody⟩ | ⟨err, hrun, -⟩
    · have hout := hphase.step hbody
      rw [hrun] at h
      rcases out with phase' | report'
      · exact within_of_runPhase hout h
      · rw [← Except.ok.inj (Option.some.inj h)]
        exact hout
    · rw [hrun] at h
      exact absurd h (by simp)

theorem within_of_runReport {ws : ℕ → World} {fuel : ℕ} {report : QueryReport T}
    (h : runReport lib src e q ws fuel db = some (.ok report)) :
    report.Within (db.HasPath e.ns) := by
  unfold runReport at h
  split at h
  · exact absurd h (by simp)
  · next phase hstart =>
    refine within_of_runPhase ?_ h
    simp only [QueryPhase.start, bind, Except.bind, pure, Except.pure] at hstart
    split at hstart
    · exact absurd hstart (by simp)
    · obtain rfl := Except.ok.inj hstart
      split
      · split_ifs <;> trivial
      · trivial

/-- A listed path is that of a row. -/
theorem Listed.hasPath {path : String} (h : Listed lib e db path) : db.HasPath e.ns path := by
  cases h with
  | keys ok mem =>
    rename_i w pattern paths
    rcases autocommit_cases (select w fun db => Sql.keys e.ns db lib pattern) db with
      ⟨found, t, hrun, hbody⟩ | ⟨err, hrun, -⟩
    · obtain ⟨rfl, -, -⟩ := select_ok hbody
      rw [LocalCache.keys, hrun] at ok
      rw [← Except.ok.inj ok] at mem
      obtain ⟨r, hr, rfl⟩ := List.mem_map.mp mem
      exact hasPath_filteredRows hr
    · rw [LocalCache.keys, hrun] at ok
      exact absurd ok (by simp)
  | entries ok mem =>
    rename_i w infos info
    rcases autocommit_cases (select w (Sql.listEntries e.ns)) db with
      ⟨found, t, hrun, hbody⟩ | ⟨err, hrun, -⟩
    · obtain ⟨rfl, -, -⟩ := select_ok hbody
      rw [listEntries, hrun] at ok
      rw [← Except.ok.inj ok] at mem
      obtain ⟨row, hrow, rfl⟩ := List.mem_map.mp mem
      rw [mem_sortBy] at hrow
      obtain ⟨r, hr, hjoin⟩ := List.mem_filterMap.mp hrow
      obtain ⟨p, -, rfl⟩ := Option.map_eq_some_iff.mp hjoin
      obtain ⟨hmem, hns⟩ := Db.mem_inNamespace.mp hr
      exact ⟨r, hmem, hns, rfl⟩
    · rw [listEntries, hrun] at ok
      exact absurd ok (by simp)
  | found ok mem => exact (within_of_runReport ok).entries _ mem
  | skipped ok mem => exact (within_of_runReport ok).skipped _ mem

end Listings

/-! ## Resolving a stored path -/

section Resolving

variable {T : Type} {e : Engine} {src : Sources T} {w : World} {db : Db} {path : String}

theorem resolvePathKey_of_keeps (h : src.Keeps path) :
    ∃ resolved, resolvePathKey src (strBytes path) = .ok resolved ∧ resolved.key = path := by
  unfold resolvePathKey pathToStr
  rcases h with h | ⟨p, h⟩
  · rw [h]
    dsimp only
    rw [fromUtf8_strBytes]
    exact ⟨_, rfl, rfl⟩
  · rw [h]
    dsimp only
    rw [fromUtf8_strBytes]
    exact ⟨_, rfl, rfl⟩

theorem pathToStr_eq_ok {p : Path} {key : String} (h : pathToStr p = .ok key) : strBytes key = p := by
  unfold pathToStr at h
  split at h
  · next s hs =>
    rw [← Except.ok.inj h]
    exact strBytes_of_fromUtf8 hs
  · exact absurd h (by simp)

theorem keeps_of_resolvePathKey {resolved : ResolvedPathKey}
    (h : resolvePathKey src (strBytes path) = .ok resolved) (hkey : resolved.key = path) :
    src.Keeps path := by
  unfold resolvePathKey at h
  split at h
  · next canonical hcanonical =>
    cases hstr : pathToStr canonical with
    | error err =>
      rw [hstr] at h
      exact absurd h (by simp [Except.map])
    | ok key =>
      rw [hstr] at h
      rw [← Except.ok.inj h] at hkey
      refine Or.inl ?_
      rw [hcanonical, ← pathToStr_eq_ok hstr]
      exact congrArg (fun s => Except.ok (strBytes s)) hkey
  · next p hmissing => exact Or.inr ⟨p, hmissing⟩
  · exact absurd h (by simp)

theorem countKey_pos (h : db.HasPath e.ns path) : 0 < Sql.countKey e.ns path db := by
  obtain ⟨r, hr, hk⟩ := h
  exact List.length_pos_of_mem (List.mem_filter.mpr ⟨hr, by simpa using hk⟩)

/-- What `remove` does on a database that answers. -/
theorem remove_of_resolved (hwritable : e.readOnly = false) (hfault : ∀ n, w.fault n = none)
    {p : Path} {resolved : ResolvedPathKey} (h : resolvePathKey src p = .ok resolved) :
    remove e src w p db = ⟨.ok (db.find? e.ns resolved.key).isSome,
      Sql.deleteFiles (fun r => decide (Db.HasKey e.ns resolved.key r)) db, [], []⟩ := by
  unfold remove
  rw [if_neg (by simp [hwritable]), h]
  dsimp only
  rw [autocommit, deleteByPath, statement_of_ok (hfault 0) rfl]

end Resolving

/-! ## Every state reached -/

namespace Sessions

variable {T : Type} {host : Host T} {engines : ℕ → Engine} {s : Sessions T}

/-- In every state reached, and whatever the file system is by then, a listed path finds and
removes its own entry exactly when it is its own canonical form or no file exists under it. -/
theorem addressable_iff_of_listed (hs : Reached host engines Db.empty s) {e : Engine}
    (hwritable : e.readOnly = false) {path : String} (hlisted : Listed host.query e s.db path)
    (src : Sources T) {w : World} (hfault : ∀ n, w.fault n = none) :
    Addressable e src w s.db path ↔ src.Keeps path := by
  have hv := (Reached.whole hs).1.valid
  obtain ⟨r, hr, hk⟩ := hlisted.hasPath
  constructor
  · intro h
    cases hresolved : resolvePathKey src (strBytes path) with
    | error err =>
      have hcontains := h.contains
      rw [LocalCache.contains, hresolved] at hcontains
      exact absurd hcontains (by simp [bind, Except.bind])
    | ok resolved =>
      refine keeps_of_resolvePathKey hresolved ?_
      -- the row under the path is gone, and only rows under the resolved key are
      have hgone : r ∉ (remove e src w (strBytes path) s.db).db.files :=
        fun hmem => ((h.rows r).mp hmem).2 hk
      rw [remove_of_resolved hwritable hfault hresolved, Sql.mem_deleteFiles] at hgone
      have hkey : Db.HasKey e.ns resolved.key r := by
        by_contra hcon
        exact hgone ⟨hr, by simpa using hcon⟩
      exact hkey.2.symm.trans hk.2
  · intro h
    obtain ⟨resolved, hresolved, hkey⟩ := resolvePathKey_of_keeps h
    have hremove : remove e src w (strBytes path) s.db = _ :=
      remove_of_resolved hwritable hfault hresolved
    rw [hkey] at hremove
    refine ⟨?_, ?_, fun r' => ?_⟩
    · rw [LocalCache.contains, hresolved]
      show (autocommit (select w fun db => decide (0 < Sql.countKey e.ns resolved.key db)) s.db).1 = _
      rw [autocommit_select hfault, hkey, decide_eq_true (countKey_pos ⟨r, hr, hk⟩)]
    · rw [hremove, hv.find?_eq_some.mpr ⟨hr, hk⟩]
      rfl
    · rw [hremove, Sql.mem_deleteFiles, decide_eq_false_iff_not]

end Sessions

/-! ## A relative path of an import -/

section Samples

/-- A file exists under every absolute path, and under `a` relative to `/w`. -/
def Sources.inDirectory : Sources Unit :=
  { Sources.quiet with
    normalizePath := fun path =>
      if path = [97] then .ok [47, 119, 47, 97]
      else if path.head? = some 47 then .ok path else .error (.fileNotFound path) }

/-- A file is stored, and a record with a relative path is imported. -/
def relativeImport : List (SessionEvent Unit) :=
  [⟨0, .at 0, .invoke (.write (.set .inDirectory [47, 98] ()))⟩,
    ⟨0, .at 0, .invoke (.write (.importEntries .inDirectory [plainRecord "a"]))⟩]

/-- The state after it. -/
def relativeImported : Sessions Unit :=
  runFrom (Sessions.step Host.quiet) (Sessions.init (fun _ => .plain "n" none) Db.empty) relativeImport

theorem listed_relativeImported {path : String} (h : path ∈ ["/b", "a"]) :
    Listed Host.quiet.query (.plain "n" none) relativeImported.db path := by
  have hkeys : keys (.plain "n" none) .quiet relativeImported.db Host.quiet.query none =
      .ok ["/b", "a"] := by decide +kernel
  exact .keys hkeys h

/-- The path of a file that exists. -/
theorem Sessions.addressable_iff_of_listed_sample :
    Addressable (.plain "n" none) Sources.inDirectory .quiet relativeImported.db "/b" ↔
      Sources.inDirectory.Keeps "/b" :=
  Sessions.addressable_iff_of_listed ⟨relativeImport, rfl⟩ rfl (listed_relativeImported (by decide))
    Sources.inDirectory fun _ => rfl

/-- The path `a` of the imported record is listed, but the file `a` of the working directory
answers to it : the entry is not found, and `remove` leaves it. -/
theorem relativeImport_unaddressable :
    Listed Host.quiet.query (.plain "n" none) relativeImported.db "a" ∧
      contains (.plain "n" none) Sources.inDirectory .quiet (strBytes "a") relativeImported.db =
        .ok false ∧
      (remove (.plain "n" none) Sources.inDirectory .quiet (strBytes "a") relativeImported.db).db =
        relativeImported.db :=
  ⟨listed_relativeImported (by decide), by decide +kernel, by decide +kernel⟩

end Samples

end LocalCache
