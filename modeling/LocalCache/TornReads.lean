import LocalCache.Cleanups

/-!
# Reads while others write

`get`, `get_if_fresh` and a query read a row in one statement and its payload in a later one, by
the row's id. An overwrite keeps the id, so one that commits in between gives an entry with the
metadata of one write and the payload of another (`overwrittenRead_torn`).

A read holds the rows whose payloads it may still read. In a run in which no write stores the
path of a row held, every entry returned is that of one committed write
(`responses_untorn_of_run`). What carries it is that a row with its payload is committed as it
stands (`LogsRows`).
-/

namespace LocalCache

/-! ## What an entry is of -/

section Entries

variable {T : Type} (decode : String → Encoded → Except Error T)

/-- The entry has the path, the metadata and the payload of this write. -/
structure Committed.Gives (k : Committed) (entry : CacheEntry T) : Prop where
  path : k.path = entry.path
  metadata : k.metadata = entry.metadata
  payload : decode entry.path ⟨k.content, k.encoding⟩ = .ok entry.payload

/-- The row is as this write stored it, so a judgement of the row is one of the write. -/
structure Committed.Judges (k : Committed) (row : FileRow) : Prop where
  path : k.path = row.path
  metadata : k.metadata = row.metadata
  updatedAt : k.updatedAt = row.updatedAt
  payloadVersion : k.payloadVersion = row.payloadVersion

/-- The entries a reply has. -/
def Reply.entries : Reply T → List (CacheEntry T)
  | .entry found => found.toList
  | .report r => r.entries
  | _ => []

/-- The entries a response returns. -/
def Response.entries (resp : Response T) : List (CacheEntry T) :=
  match resp.result with
  | .ok reply => reply.entries
  | .error _ => []

/-- Every entry of the response is of one committed write, the one whose row was judged. -/
def Response.Untorn (committed : List Committed) (resp : Response T) : Prop :=
  ∀ entry ∈ resp.entries, ∃ k ∈ committed, k.Gives decode entry ∧
    ∀ row, resp.judged = some row → k.Judges row

/-- The entry is of a committed write. -/
def CacheEntry.Untorn (committed : List Committed) (entry : CacheEntry T) : Prop :=
  ∃ k ∈ committed, k.Gives decode entry

end Entries

/-! ## What a read holds -/

/-- A row whose payload is still to be read. -/
structure Held where
  id : ℕ
  path : String
  metadata : FileMetadata
  deriving DecidableEq

def FileRow.held (r : FileRow) : Held := ⟨r.id, r.path, r.metadata⟩

def CandidateRow.held (c : CandidateRow) : Held := ⟨c.id, c.path, c.metadata⟩

/-- The rows whose payloads a query may still read. -/
def QueryPhase.held {T : Type} : QueryPhase T → List Held
  | .filling f => f.rest.map CandidateRow.held
  | _ => []

/-- The rows whose payloads a call may still read. -/
def Ongoing.held {T : Type} : Ongoing T → List Held
  | .found row => [row.held]
  | .querying _ phase => phase.held
  | _ => []

/-- The row under the id, if there is one, is the row held. -/
structure Held.Current (ns : String) (db : Db) (h : Held) : Prop where
  id : h.id ≤ db.seq
  row : ∀ r ∈ db.files, r.id = h.id → r.ns = ns ∧ r.held = h

/-- Every row that has its payload is committed as it stands. -/
def LogsRows (db : Db) (committed : List Committed) : Prop :=
  ∀ r ∈ db.files, ∀ k, db.commit r = some k → k ∈ committed

section Reading

variable {T : Type} {decode : String → Encoded → Except Error T} {ns : String} {db db' : Db}
  {committed committed' : List Committed}

theorem CacheEntry.Untorn.mono {entry : CacheEntry T} (h : entry.Untorn decode committed)
    (hsub : committed ⊆ committed') : entry.Untorn decode committed' := by
  obtain ⟨k, hk, hgives⟩ := h
  exact ⟨k, hsub hk, hgives⟩

/-- A payload is that of a committed write, the one its row is of. -/
theorem LogsRows.exists_commit (hlog : LogsRows db committed) (hv : db.Valid) {p : PayloadRow}
    (hp : p ∈ db.payloads) : ∃ r ∈ db.files, r.id = p.fileId ∧ ∃ k ∈ committed, k.Judges r ∧
      k.content = p.content ∧ k.encoding = p.encoding := by
  obtain ⟨r, hr, hid⟩ := hv.foreign p hp
  have hcommit := Db.commit_eq_some.mpr ⟨p, (Db.payload?_eq_some hv).mpr ⟨hp, hid.symm⟩, rfl⟩
  exact ⟨r, hr, hid, _, hlog r hr _ hcommit, ⟨rfl, rfl, rfl, rfl⟩, rfl, rfl⟩

/-- An entry of a row held and the payload under its id is untorn. -/
theorem LogsRows.untorn (hlog : LogsRows db committed) (hv : db.Valid) {h : Held}
    (hcurrent : h.Current ns db) {p : PayloadRow} (hp : p ∈ db.payloads) (hid : p.fileId = h.id)
    {payload : T} (hdecode : decode h.path ⟨p.content, p.encoding⟩ = .ok payload) :
    CacheEntry.Untorn decode committed ⟨h.path, h.metadata, payload⟩ := by
  obtain ⟨r, hr, hrid, k, hk, hjudges, hcontent, hencoding⟩ := hlog.exists_commit hv hp
  obtain ⟨-, hheld⟩ := hcurrent.row r hr (hrid.trans hid)
  refine ⟨k, hk, ?_, ?_, ?_⟩
  · rw [hjudges.path, ← hheld]
    rfl
  · rw [hjudges.metadata, ← hheld]
    rfl
  · rw [hcontent, hencoding]
    exact hdecode

/-- A row of the namespace is current. -/
theorem current_held (hv : db.Valid) {r : FileRow} (hr : r ∈ db.files) (hns : r.ns = ns) :
    r.held.Current ns db where
  id := hv.seq r hr
  row q hq hid := by
    rw [hv.eq_of_id hq hr hid]
    exact ⟨hns, rfl⟩

/-! ## Queries -/

section Query

variable {lib : QueryLib T} {src : Sources T} {e : Engine} {w : World} {q : Query}

/-- What a query has read still holds, and what it will return is of committed writes. -/
structure QueryPhase.Sound (decode : String → Encoded → Except Error T) (ns : String) (db : Db)
    (committed : List Committed) (phase : QueryPhase T) : Prop where
  held : ∀ h ∈ phase.held, h.Current ns db
  entries : ∀ f, phase = .filling f → ∀ entry ∈ f.entries, entry.Untorn decode committed

/-- The same of what a statement of a query leaves it with. -/
def StepSound (decode : String → Encoded → Except Error T) (ns : String) (db : Db)
    (committed : List Committed) : QueryPhase T ⊕ QueryReport T → Prop
  | .inl phase => phase.Sound decode ns db committed
  | .inr report => ∀ entry ∈ report.entries, entry.Untorn decode committed

theorem stepSound_finishFilling {f : Filling T}
    (hheld : ∀ c ∈ f.rest, c.held.Current ns db)
    (hentries : ∀ entry ∈ f.entries, entry.Untorn decode committed) :
    StepSound decode ns db committed (finishFilling q f) := by
  unfold finishFilling
  split_ifs
  · exact hentries
  · refine ⟨fun h hh => ?_, fun f' hf => ?_⟩
    · obtain ⟨c, hc, rfl⟩ := List.mem_map.mp hh
      exact hheld c hc
    · rw [← QueryPhase.filling.inj hf]
      exact hentries

theorem mem_filteredRows {filters : PreparedPathFilters} {r : FileRow}
    (h : r ∈ Sql.filteredRows lib ns filters db) : r ∈ db.files ∧ r.ns = ns := by
  rw [Sql.filteredRows, mem_sortBy] at h
  exact Db.mem_inNamespace.mp (List.mem_of_mem_filter h)

theorem current_filteredRows (hv : db.Valid) {filters : PreparedPathFilters} {r : FileRow}
    (h : r ∈ Sql.filteredRows lib ns filters db) : r.toCandidate.held.Current ns db := by
  obtain ⟨hr, hns⟩ := mem_filteredRows h
  exact current_held hv hr hns

/-- The candidates of a page are those read, in another order. -/
theorem stepSound_startFilling {fields : List String}
    {rows : List (CandidateRow × List (Option F64))}
    (hrows : ∀ row ∈ rows, row.1.held.Current ns db) :
    StepSound decode ns db committed (startFilling q fields rows) := by
  refine stepSound_finishFilling (fun c hc => ?_) fun entry hentry => absurd hentry List.not_mem_nil
  obtain ⟨row, hrow, rfl⟩ := List.mem_map.mp hc
  exact hrows row ((List.perm_insertionSort _ rows).mem_iff.mp hrow)

theorem candidate_of_pushdownRow {selectFields : List String} {whereFields : List WhereField}
    {r : FileRow} {p : PayloadRow} {row : CandidateRow × List (Option F64)}
    (h : Sql.pushdownRow lib selectFields whereFields (r, p) = .ok (some row)) :
    row.1 = r.toCandidate := by
  simp only [Sql.pushdownRow, bind, Except.bind, pure, Except.pure] at h
  split at h
  · cases h
  · split_ifs at h
    · split at h
      · cases h
      · rw [← Option.some.inj (Except.ok.inj h)]
    · cases h

/-- A candidate that tier 2 reads is a row that passes the path filters. -/
theorem mem_queryCandidatesJsonPushdown {filters : PreparedPathFilters} {selectFields : List String}
    {whereFields : List WhereField} {rows : List (CandidateRow × List (Option F64))}
    (h : Sql.queryCandidatesJsonPushdown lib ns filters selectFields whereFields db = .ok rows)
    {row : CandidateRow × List (Option F64)} (hrow : row ∈ rows) :
    ∃ r ∈ Sql.filteredRows lib ns filters db, row.1 = r.toCandidate := by
  simp only [Sql.queryCandidatesJsonPushdown, bind, Except.bind] at h
  split at h
  · exact absurd h (by simp)
  · next extracted hextracted =>
    obtain rfl := Except.ok.inj h
    obtain ⟨found, hfound, heq⟩ := List.mem_filterMap.mp hrow
    obtain rfl : found = some row := heq
    obtain ⟨read, hread, hex⟩ := exists_of_mem_mapM hextracted hfound
    obtain ⟨r, hr, hjoin⟩ := List.mem_filterMap.mp hread
    obtain ⟨p, -, rfl⟩ := Option.map_eq_some_iff.mp hjoin
    exact ⟨r, hr, candidate_of_pushdownRow hex⟩

theorem entries_tier3Report {rows : List (CandidateRow × Option PayloadRow)} {entry : CacheEntry T}
    (h : entry ∈ (tier3Report lib src q rows).entries) : ∃ row ∈ rows, ∃ p, row.2 = some p ∧
      src.decode row.1.path ⟨p.content, p.encoding⟩ = .ok entry.payload ∧
        entry = ⟨row.1.path, row.1.metadata, entry.payload⟩ := by
  obtain ⟨m, hm, rfl⟩ := List.mem_map.mp h
  have hmem := List.mem_of_mem_drop (List.mem_of_mem_take hm)
  rw [sortByKeys, (List.perm_insertionSort _ _).mem_iff] at hmem
  obtain ⟨decoded, hdecoded, hright⟩ := List.mem_filterMap.mp (List.mem_of_mem_filter hmem)
  obtain ⟨row, hrow, hcandidate⟩ := List.mem_filterMap.mp hdecoded
  obtain rfl := Sum.getRight?_eq_some_iff.mp hright
  refine ⟨row, hrow, ?_⟩
  unfold decodeCandidate at hcandidate
  cases hp : row.2 with
  | none =>
    rw [hp] at hcandidate
    exact absurd hcandidate (by simp)
  | some p =>
    rw [hp] at hcandidate
    have hm := Option.some.inj hcandidate
    refine ⟨p, rfl, ?_⟩
    split at hm
    · exact absurd hm (by simp)
    · next payload hdecode =>
      split_ifs at hm
      · split at hm
        · exact absurd hm (by simp)
        · rw [← Sum.inr.inj hm]
          exact ⟨hdecode, rfl⟩
      · rw [← Sum.inr.inj hm]
        exact ⟨hdecode, rfl⟩

/-- Filling a window keeps what holds of the entries so far, if it holds of every candidate of
the window with a payload read for it. -/
theorem entries_fillWindow {P : CacheEntry T → Prop} {limit : Option ℕ} {payloads : List PayloadRow} :
    ∀ {window : List CandidateRow} {f : Filling T},
      (∀ c ∈ window, ∀ p ∈ payloads, p.fileId = c.id → ∀ payload,
        src.decode c.path ⟨p.content, p.encoding⟩ = .ok payload → P ⟨c.path, c.metadata, payload⟩) →
      (∀ entry ∈ f.entries, P entry) →
        ∀ entry ∈ (fillWindow src limit payloads window f).entries, P entry
  | [], _, _, hf => hf
  | c :: window, f, hwindow, hf => by
    have hone : ∀ entry ∈ (fillOne src payloads c f).entries, P entry := by
      unfold fillOne
      split
      · exact hf
      · next p hp =>
        have hread := hwindow c List.mem_cons_self p (List.mem_of_find?_eq_some hp)
          (by simpa using List.find?_some hp)
        split
        · exact hf
        · next payload hdecode =>
          split_ifs
          · exact hf
          · intro entry hentry
            rcases List.mem_append.mp hentry with hentry | hentry
            · exact hf entry hentry
            · rw [List.mem_singleton.mp hentry]
              exact hread payload hdecode
    rw [fillWindow]
    split_ifs
    · exact hone
    · exact entries_fillWindow (fun c' hc' => hwindow c' (List.mem_cons_of_mem _ hc')) hone

/-- A statement of a query keeps it sound. -/
theorem QueryPhase.Sound.step {phase : QueryPhase T} (h : phase.Sound decode ns db committed)
    (hv : db.Valid) (hlog : LogsRows db committed) (hns : e.ns = ns) (hdecode : src.decode = decode)
    {out : QueryPhase T ⊕ QueryReport T} {t : Tx}
    (hstep : phase.step lib src e w q ⟨db, 0, 0⟩ = .ok (out, t)) :
    StepSound decode ns db committed out := by
  subst hns hdecode
  cases phase with
  | planning filters selectFields whereFields =>
    obtain ⟨allJson, -, rfl⟩ := StateExcept.map_eq_ok hstep
    exact ⟨fun h hh => absurd hh List.not_mem_nil, fun f hf => absurd hf (by simp)⟩
  | planned filters plan =>
    cases plan with
    | tier1 =>
      obtain ⟨rows, hrows, rfl⟩ := StateExcept.map_eq_ok hstep
      obtain ⟨rfl, -, -⟩ := select_ok hrows
      refine stepSound_startFilling fun row hrow => ?_
      obtain ⟨c, hc, rfl⟩ := List.mem_map.mp hrow
      obtain ⟨r, hr, rfl⟩ := List.mem_map.mp hc
      exact current_filteredRows hv hr
    | tier2 selectFields whereFields =>
      obtain ⟨rows, hrows, rfl⟩ := StateExcept.map_eq_ok hstep
      obtain ⟨hread, -, -⟩ := selectOrFail_ok hrows
      refine stepSound_startFilling fun row hrow => ?_
      obtain ⟨r, hr, heq⟩ := mem_queryCandidatesJsonPushdown hread hrow
      rw [heq]
      exact current_filteredRows hv hr
    | tier3 =>
      obtain ⟨rows, hrows, rfl⟩ := StateExcept.map_eq_ok hstep
      obtain ⟨rfl, -, -⟩ := select_ok hrows
      intro entry hentry
      obtain ⟨row, hrow, p, hp, hdecode, heq⟩ := entries_tier3Report hentry
      obtain ⟨r, hr, rfl⟩ := List.mem_map.mp hrow
      have hid : p.fileId = r.id := by simpa using List.find?_some hp
      rw [heq]
      exact hlog.untorn hv (current_filteredRows hv hr) (List.mem_of_find?_eq_some hp) hid hdecode
  | filling f =>
    obtain ⟨payloads, hread, rfl⟩ := StateExcept.map_eq_ok hstep
    obtain ⟨rfl, -, -⟩ := select_ok hread
    have hcurrent : ∀ c ∈ f.rest, c.held.Current e.ns db := fun c hc =>
      h.held c.held (List.mem_map_of_mem hc)
    refine stepSound_finishFilling (fun c hc => hcurrent c (List.mem_of_mem_drop hc)) ?_
    refine entries_fillWindow (fun c hc p hp hid payload hdecode => ?_) (h.entries f rfl)
    exact hlog.untorn hv (hcurrent c (List.mem_of_mem_take hc)) (List.mem_of_mem_filter hp) hid
      hdecode

end Query

/-! ## Calls -/

section Calls

variable {host : Host T} {env : Env T} {e : Engine} {commits : ℕ}

/-- What a call in progress has read still holds, and what it will return is of committed
writes. -/
def Ongoing.Sound (decode : String → Encoded → Except Error T) (ns : String) (db : Db)
    (committed : List Committed) : Ongoing T → Prop
  | .found row => row.id ≤ db.seq ∧ ∀ r ∈ db.files, r.id = row.id → r.ns = ns ∧ row.SameEntry r
  | .loaded row entry => ∃ k ∈ committed, k.Gives decode entry ∧ k.Judges row
  | .querying _ phase => phase.Sound decode ns db committed
  | _ => True

/-- The same of what a part of a call leaves it with. -/
def Part.Sound (decode : String → Encoded → Except Error T) (ns : String) (db : Db)
    (committed : List Committed) (part : Part T) : Prop :=
  match part.next with
  | .inl ongoing => ongoing.Sound decode ns db committed
  | .inr responses => ∀ resp ∈ responses, resp.Untorn decode committed

/-- A part that returns no entry. -/
theorem sound_of_next {part : Part T} {resp : Response T} (hnext : part.next = .inr [resp])
    (h : ∀ reply, resp.result = .ok reply → reply.entries = []) :
    part.Sound decode ns db committed := by
  unfold Part.Sound
  rw [hnext]
  intro resp' hresp entry hentry
  rw [List.mem_singleton.mp hresp, Response.entries] at hentry
  split at hentry
  · next reply hresult =>
    rw [h reply hresult] at hentry
    exact absurd hentry List.not_mem_nil
  · exact absurd hentry List.not_mem_nil

theorem sound_returned {db' : Db} {result : Except Error (Reply T)} (row : Option FileRow)
    (h : ∀ reply, result = .ok reply → reply.entries = []) :
    (Part.returned e db' result row).Sound decode ns db committed :=
  sound_of_next rfl h

theorem entries_of_map {α : Type} {result : Except Error α} {f : α → Reply T}
    (hf : ∀ a, (f a).entries = []) (reply : Reply T) (h : result.map f = .ok reply) :
    reply.entries = [] := by
  cases result with
  | error err => exact absurd h (by simp [Except.map])
  | ok a =>
    rw [← Except.ok.inj h]
    exact hf a

theorem sound_ofOutcome {α : Type} {reply : α → Reply T} (row : Option FileRow) (o : Outcome α)
    (hreply : ∀ a, (reply a).entries = []) :
    (Part.ofOutcome e reply row o).Sound decode ns db committed :=
  sound_of_next rfl (entries_of_map hreply)

theorem entries_of_call {w : World} {write : Write T} {reply : Reply T}
    (h : (write.call e w db).result = .ok reply) : reply.entries = [] := by
  cases write with
  | set src path payload => exact entries_of_map (fun _ => rfl) reply h
  | batchSet src items => exact entries_of_map (fun _ => rfl) reply h
  | importEntries src records => exact entries_of_map (fun _ => rfl) reply h
  | importFrom source => exact entries_of_map (fun _ => rfl) reply h

/-- A part that reads a row of the namespace. -/
theorem sound_ofFound (hv : db.Valid) {found : Except Error (Option FileRow)} {none_ : Reply T}
    (hnone : none_.entries = [])
    (hfound : ∀ row, found = .ok (some row) → row ∈ db.files ∧ row.ns = ns)
    {ongoing : FileRow → Ongoing T}
    (hongoing : ∀ row, row.id ≤ db.seq →
      (∀ r ∈ db.files, r.id = row.id → r.ns = ns ∧ row.SameEntry r) →
        (ongoing row).Sound decode ns db committed) :
    (Part.ofFound e db none_ ongoing found).Sound decode ns db committed := by
  rcases found with err | _ | row
  · exact sound_returned _ fun _ h => absurd h (by simp)
  · refine sound_returned _ fun reply h => ?_
    rw [← Except.ok.inj h]
    exact hnone
  · obtain ⟨hrow, hns⟩ := hfound row rfl
    refine hongoing row (hv.seq row hrow) fun r hr hid => ?_
    rw [hv.eq_of_id hr hrow hid]
    exact ⟨hns, FileRow.SameEntry.refl row⟩

/-- A query that starts has read nothing. -/
theorem QueryPhase.sound_start {lib : QueryLib T} {src : Sources T} {q : Query}
    {phase : QueryPhase T} (h : QueryPhase.start lib src e q = .ok phase) :
    phase.Sound decode ns db committed := by
  simp only [QueryPhase.start, bind, Except.bind, pure, Except.pure] at h
  split at h
  · exact absurd h (by simp)
  · obtain rfl := Except.ok.inj h
    split
    · split_ifs <;> exact ⟨fun h hh => absurd hh List.not_mem_nil, fun f hf => absurd hf (by simp)⟩
    · exact ⟨fun h hh => absurd hh List.not_mem_nil, fun f hf => absurd hf (by simp)⟩

theorem Call.start_sound (call : Call T) (hv : db.Valid) :
    (call.start e host env db).Sound decode e.ns db committed := by
  cases call with
  | write w =>
    refine sound_of_next rfl fun reply h => ?_
    have hcall : (w.call e env.world db).result = .ok reply := by rwa [Except.map_id] at h
    exact entries_of_call hcall
  | remove path => exact sound_ofOutcome _ _ fun _ => rfl
  | get path => exact sound_ofFound hv rfl (fun _ => getFind_ok) fun _ hid hrow => ⟨hid, hrow⟩
  | getIfFresh path =>
    exact sound_ofFound hv rfl (fun _ => getIfFreshFind_ok) fun _ hid hrow => ⟨hid, hrow⟩
  | touch path => exact sound_ofFound hv rfl (fun _ => touchFind_ok) fun _ _ _ => trivial
  | query q =>
    rw [Call.start]
    split
    · exact sound_returned _ fun _ h => absurd h (by simp)
    · next hstart => exact QueryPhase.sound_start hstart
  | cleanupMissingFiles size =>
    rw [Call.start]
    split_ifs
    · exact sound_returned _ fun _ h => absurd h (by simp)
    · trivial
  | cleanupExpired size =>
    rw [Call.start]
    split_ifs
    · exact sound_returned _ fun _ h => absurd h (by simp)
    · split
      · refine sound_returned _ fun reply h => ?_
        rw [← Except.ok.inj h]
        rfl
      · trivial
  | purgeStaleVersions => exact sound_ofOutcome _ _ fun _ => rfl
  | rotateEncryptionKey nonces maxRows maxBytes newKey =>
    rw [Call.start]
    split
    · exact fun resp hresp => absurd hresp List.not_mem_nil
    · exact sound_of_next rfl (entries_of_map fun _ => rfl)

theorem Cleaning.next_sound (c : Cleaning) :
    (c.next e env commits db).Sound decode ns db committed := by
  have hcount : ∀ db' n, (Part.returned e db' (.ok (.count n)) none : Part T).Sound decode ns db
      committed := fun db' n => sound_returned _ fun reply h => by
    rw [← Except.ok.inj h]
    rfl
  have herror : ∀ db' err, (Part.returned e db' (.error err) none : Part T).Sound decode ns db
      committed := fun db' err => sound_returned _ fun _ h => absurd h (by simp)
  unfold Cleaning.next
  split
  · split
    · exact herror _ _
    · split
      · exact hcount _ _
      · trivial
  · trivial
  · dsimp only
    split
    · exact herror _ _
    · split
      · exact hcount _ _
      · trivial

theorem loadEntry_ok {src : Sources T} {w : World} {row : FileRow} {entry : CacheEntry T}
    (h : loadEntry src w row db = .ok (some entry)) : ∃ p ∈ db.payloads, p.fileId = row.id ∧
      src.decode row.path ⟨p.content, p.encoding⟩ = .ok entry.payload ∧
        entry = ⟨row.path, row.metadata, entry.payload⟩ := by
  simp only [loadEntry, bind, Except.bind, pure, Except.pure] at h
  rcases autocommit_cases (select w fun db => db.payloads.find? fun p => p.fileId = row.id) db with
    ⟨found, t, hrun, hbody⟩ | ⟨err, hrun, -⟩
  · obtain ⟨rfl, -, -⟩ := select_ok hbody
    rw [hrun] at h
    dsimp only at h
    split at h
    · exact absurd h (by simp)
    · next p hp =>
      split at h
      · exact absurd h (by simp)
      · next payload hdecode =>
        obtain rfl := Option.some.inj (Except.ok.inj h)
        exact ⟨p, List.mem_of_find?_eq_some hp, by simpa using List.find?_some hp, hdecode, rfl⟩
  · rw [hrun] at h
    exact absurd h (by simp)

/-- A part of a call that is sound leaves it sound, whatever it returns. -/
theorem Ongoing.Sound.next {ongoing : Ongoing T} (h : ongoing.Sound decode e.ns db committed)
    (hv : db.Valid) (hlog : LogsRows db committed) (hdecode : env.src.decode = decode) :
    (ongoing.next e host env commits db).Sound decode e.ns db committed := by
  subst hdecode
  cases ongoing with
  | found row =>
    rw [Ongoing.next]
    split
    · exact sound_returned _ fun _ h => absurd h (by simp)
    · refine sound_returned _ fun reply h => ?_
      rw [← Except.ok.inj h]
      rfl
    · next entry hload =>
      obtain ⟨p, hp, hid, hdecode, heq⟩ := loadEntry_ok hload
      obtain ⟨r, hr, hrid, k, hk, hjudges, hcontent, hencoding⟩ := hlog.exists_commit hv hp
      have hsame := (h.2 r hr (hrid.trans hid)).2
      have hrow : k.Judges row := ⟨hjudges.path.trans hsame.path, hjudges.metadata.trans (by rw [hsame]),
        hjudges.updatedAt.trans hsame.updatedAt, hjudges.payloadVersion.trans (by rw [hsame])⟩
      refine ⟨k, hk, ⟨?_, ?_, ?_⟩, hrow⟩
      · rw [heq]
        exact hrow.path
      · rw [heq]
        exact hrow.metadata
      · rw [heq, hcontent, hencoding]
        exact hdecode
  | loaded row entry =>
    obtain ⟨k, hk, hgives, hjudges⟩ := h
    intro resp hresp entry' hentry
    obtain rfl := List.mem_singleton.mp hresp
    have hresult : (finishRead e env.world row entry db).result = .ok (some entry) := by
      unfold finishRead
      split_ifs
      · rfl
      · split <;> rfl
    rw [Response.entries, hresult] at hentry
    obtain rfl := List.mem_singleton.mp hentry
    refine ⟨k, hk, hgives, fun row' hrow => ?_⟩
    rw [← Option.some.inj hrow]
    exact hjudges
  | touching row => exact sound_ofOutcome _ _ fun _ => rfl
  | querying q phase =>
    rw [Ongoing.next]
    rcases autocommit_cases (phase.step host.query env.src e env.world q) db with
      ⟨out, t, hrun, hbody⟩ | ⟨err, hrun, -⟩
    · have hsound := QueryPhase.Sound.step h hv hlog rfl rfl hbody
      rw [hrun]
      rcases out with phase' | report
      · exact hsound
      · intro resp hresp entry hentry
        obtain rfl := List.mem_singleton.mp hresp
        obtain ⟨k, hk, hgives⟩ := hsound entry hentry
        exact ⟨k, hk, hgives, fun _ hrow => absurd hrow (by simp)⟩
    · rw [hrun]
      exact sound_returned _ fun _ h => absurd h (by simp)
  | cleaning c => exact c.next_sound

end Calls

/-! ## Steps of others -/

section Others

variable {ns' : String} {paths : List String} {wrote : List ℕ}

/-- Under an id used before, a step that stores none of these rows leaves the same entry. -/
theorem Effect.sameEntry (h : Effect ns' paths wrote db db') {id : ℕ} (hid : id ≤ db.seq)
    (hpaths : ∀ r ∈ db.files, r.id = id → r.ns = ns' → r.path ∉ paths) {r' : FileRow}
    (hr' : r' ∈ db'.files) (hrid : r'.id = id) : ∃ r ∈ db.files, r.id = id ∧ r.SameEntry r' := by
  have hnot : r'.id ∉ wrote := by
    intro hmem
    obtain ⟨hns, hpath⟩ := h.stored r' hr' hmem
    obtain ⟨r, hr, hid', hns', hpath'⟩ := h.old r' hr' (hrid.trans_le hid)
    exact hpaths r hr (hid'.trans hrid) (hns'.trans hns) (hpath' ▸ hpath)
  obtain ⟨r, hr, hsame⟩ := h.row r' hr' hnot
  exact ⟨r, hr, hsame.id.symm.trans hrid, hsame⟩

theorem LogsRows.of_effect (hlog : LogsRows db committed) (h : Effect ns' paths wrote db db') :
    LogsRows db' (committed ++ db'.commits wrote) := by
  intro r' hr' k hk
  by_cases hid : r'.id ∈ wrote
  · exact List.mem_append_right _ (List.mem_filterMap.mpr
      ⟨r', List.mem_filter.mpr ⟨hr', by simpa using hid⟩, hk⟩)
  · obtain ⟨r, hr, hsame⟩ := h.row r' hr' hid
    refine List.mem_append_left _ (hlog r hr k ?_)
    obtain ⟨p, hp, rfl⟩ := Db.commit_eq_some.mp hk
    rw [h.payload r' hr' hid] at hp
    refine Db.commit_eq_some.mpr ⟨p, hsame.id ▸ hp, ?_⟩
    rw [hsame]

theorem Held.Current.of_effect {held : Held} (hcurrent : held.Current ns db)
    (h : Effect ns' paths wrote db db')
    (hpaths : ∀ r ∈ db.files, r.id = held.id → r.ns = ns' → r.path ∉ paths) :
    held.Current ns db' where
  id := hcurrent.id.trans h.seq
  row r' hr' hid := by
    obtain ⟨r, hr, hrid, hsame⟩ := h.sameEntry hcurrent.id hpaths hr' hid
    obtain ⟨hns, hheld⟩ := hcurrent.row r hr hrid
    refine ⟨hsame.ns.trans hns, hheld ▸ ?_⟩
    rw [hsame]
    rfl

/-- A call stays sound when no row it holds is stored. -/
theorem Ongoing.Sound.of_effect {ongoing : Ongoing T} (hsound : ongoing.Sound decode ns db committed)
    (h : Effect ns' paths wrote db db') (hsub : committed ⊆ committed')
    (hpaths : ∀ held ∈ ongoing.held, ∀ r ∈ db.files, r.id = held.id → r.ns = ns' → r.path ∉ paths) :
    ongoing.Sound decode ns db' committed' := by
  cases ongoing with
  | found row =>
    refine ⟨hsound.1.trans h.seq, fun r' hr' hid => ?_⟩
    obtain ⟨r, hr, hrid, hsame⟩ := h.sameEntry hsound.1 (hpaths row.held List.mem_cons_self) hr' hid
    obtain ⟨hns, hsame₀⟩ := hsound.2 r hr hrid
    exact ⟨hsame.ns.trans hns, hsame₀.trans hsame⟩
  | loaded row entry =>
    obtain ⟨k, hk, hgives⟩ := hsound
    exact ⟨k, hsub hk, hgives⟩
  | touching row => trivial
  | querying q phase =>
    exact ⟨fun held hheld => (QueryPhase.Sound.held hsound held hheld).of_effect h (hpaths held hheld),
      fun f hf entry hentry => (QueryPhase.Sound.entries hsound f hf entry hentry).mono hsub⟩
  | cleaning c => trivial

theorem Response.Untorn.mono {resp : Response T} (h : resp.Untorn decode committed)
    (hsub : committed ⊆ committed') : resp.Untorn decode committed' := by
  intro entry hentry
  obtain ⟨k, hk, hgives⟩ := h entry hentry
  exact ⟨k, hsub hk, hgives⟩

end Others

end Reading

/-! ## Runs -/

section Runs

variable {T : Type} {host : Host T}

/-- A call that goes on stores nothing. -/
theorem Call.paths_of_goesOn {call : Call T} {e : Engine} {env : Env T} {db : Db}
    {ongoing : Ongoing T} (h : (call.start e host env db).next = .inl ongoing) : call.paths = [] := by
  cases call with
  | write w => exact absurd h (by simp [Call.start, Part.ofWrite, Part.ofOutcome])
  | _ => rfl

namespace Sessions

variable {s : Sessions T} {ev : SessionEvent T}
  {decode : ℕ → String → Encoded → Except Error T}

/-- Every row that has its payload is committed, and every read in progress or returned is of
committed writes. -/
structure ReadsSound (decode : ℕ → String → Encoded → Except Error T) (s : Sessions T) : Prop where
  valid : s.db.Valid
  logs : LogsRows s.db s.committed
  calls : ∀ conn ongoing, (s.session conn).call = some ongoing →
    ongoing.Sound (decode conn) (s.ns conn) s.db s.committed
  responses : ∀ conn, ∀ resp ∈ (s.session conn).responses, resp.Untorn (decode conn) s.committed

/-- The step is no write that may store the path of a row that a read in progress holds. -/
def LeavesHeld (s : Sessions T) (ev : SessionEvent T) : Prop :=
  ∀ conn ongoing, (s.session conn).call = some ongoing → ∀ held ∈ ongoing.held,
    ∀ r ∈ s.db.files, r.id = held.id → r.ns = s.ns ev.conn → r.path ∉ ev.paths

/-- The part an event runs is sound. -/
theorem ReadsSound.part (h : s.ReadsSound decode) (hdecode : ev.env.src.decode = decode ev.conn)
    {part : Part T} (hpart : s.part? host ev = some part) :
    part.Sound (decode ev.conn) (s.ns ev.conn) s.db s.committed ∧
      ∀ ongoing, part.next = .inl ongoing → ev.paths = [] := by
  unfold part? at hpart
  unfold SessionEvent.paths
  split at hpart
  · next call haction _ =>
    obtain rfl := Option.some.inj hpart
    rw [haction]
    exact ⟨call.start_sound h.valid, fun ongoing hnext => Call.paths_of_goesOn hnext⟩
  · next ongoing haction hcall =>
    obtain rfl := Option.some.inj hpart
    rw [haction]
    exact ⟨(h.calls ev.conn ongoing hcall).next h.valid h.logs hdecode, fun _ _ => rfl⟩
  · exact absurd hpart (by simp)

theorem ReadsSound.step (h : s.ReadsSound decode) (hleaves : s.LeavesHeld ev)
    (hdecode : ev.env.src.decode = decode ev.conn) (hrekeys : ev.rekeys = false) :
    (s.step host ev).ReadsSound decode := by
  obtain ⟨wrote, hcommitted, heffect | ⟨htrue, -⟩⟩ := did_step host s ev h.valid
  swap
  · exact absurd (htrue.symm.trans hrekeys) (by simp)
  have hsub : s.committed ⊆ (s.step host ev).committed := by
    rw [hcommitted]
    exact List.subset_append_left _ _
  refine ⟨valid_step h.valid, ?_, fun conn ongoing hcall => ?_, fun conn resp hresp => ?_⟩
  · rw [hcommitted]
    exact h.logs.of_effect heffect
  · rw [ns_step]
    by_cases hconn : conn = ev.conn
    · subst hconn
      rcases call_step hcall with ⟨hcall, heq⟩ | ⟨part, hpart, -, hnext⟩
      · rw [heq]
        exact h.calls ev.conn ongoing hcall
      · obtain ⟨hsound, hpaths⟩ := h.part hdecode hpart
        rw [Part.Sound, hnext] at hsound
        refine hsound.of_effect heffect hsub fun _ _ _ _ _ _ => ?_
        rw [hpaths ongoing hnext]
        exact List.not_mem_nil
    · rw [session_step_of_ne hconn] at hcall
      exact (h.calls conn ongoing hcall).of_effect heffect hsub (hleaves conn ongoing hcall)
  · by_cases hconn : conn = ev.conn
    · subst hconn
      rcases step_cases host s ev with ⟨-, heq⟩ | ⟨part, hpart, heq⟩
      · rw [heq] at hresp ⊢
        exact h.responses ev.conn resp hresp
      · rw [heq, responses_after] at hresp
        rcases List.mem_append.mp hresp with hresp | hresp
        · exact (h.responses ev.conn resp hresp).mono hsub
        · obtain ⟨hsound, -⟩ := h.part hdecode hpart
          cases hnext : part.next with
          | inl ongoing =>
            rw [hnext] at hresp
            exact absurd hresp List.not_mem_nil
          | inr responses =>
            rw [hnext] at hresp
            rw [Part.Sound, hnext] at hsound
            exact (hsound resp hresp).mono hsub
    · rw [session_step_of_ne hconn] at hresp
      exact (h.responses conn resp hresp).mono hsub

theorem readsSound_init (engines : ℕ → Engine) {db : Db} (hv : db.Valid) :
    (init engines db).ReadsSound decode where
  valid := hv
  logs r hr k hk := List.mem_filterMap.mpr ⟨r, hr, hk⟩
  calls conn ongoing h := absurd h (by simp [init])
  responses conn resp h := absurd h (by simp [init])

/-- In a run without rotations whose writes leave alone the rows that reads hold, every entry
returned is of one committed write, the one that was judged. Each session decodes by its own
codec. -/
theorem responses_untorn_of_run (host : Host T) (engines : ℕ → Engine) {db : Db} (hv : db.Valid)
    (decode : ℕ → String → Encoded → Except Error T) {events : List (SessionEvent T)}
    (hdecode : ∀ ev ∈ events, ev.env.src.decode = decode ev.conn)
    (hrekeys : ∀ ev ∈ events, ev.rekeys = false)
    (h : Along (step host) LeavesHeld (init engines db) events) :
    ∀ conn, ∀ resp ∈ ((runFrom (step host) (init engines db) events).session conn).responses,
      resp.Untorn (decode conn) (runFrom (step host) (init engines db) events).committed := by
  have hkeeps : ∀ s ev, ReadsSound decode s →
      s.LeavesHeld ev ∧ ev.env.src.decode = decode ev.conn ∧ ev.rekeys = false →
        ReadsSound decode (step host s ev) :=
    fun _ _ hs hstep => hs.step hstep.1 hstep.2.1 hstep.2.2
  exact (Along.invariant hkeeps (readsSound_init engines hv)
    (h.and_forall fun ev hev => ⟨hdecode ev hev, hrekeys ev hev⟩)).responses

/-! ## A write between the two statements of a read -/

/-- The rows that the call of a session holds. -/
def held (s : Sessions T) (conn : ℕ) : List Held :=
  match (s.session conn).call with
  | some ongoing => ongoing.held
  | none => []

/-- For a run of the first two sessions it is enough to look at these. -/
theorem along_leavesHeld {engines : ℕ → Engine} {db : Db} {events : List (SessionEvent T)}
    (hconns : ∀ ev ∈ events, ev.conn < 2)
    (h : ∀ n (hn : n < events.length), ∀ conn < 2,
      ∀ held ∈ (runFrom (step host) (init engines db) (events.take n)).held conn,
        ∀ r ∈ (runFrom (step host) (init engines db) (events.take n)).db.files, r.id = held.id →
          r.path ∉ events[n].paths) :
    Along (step host) LeavesHeld (init engines db) events := by
  refine Along.of_take fun n hn conn ongoing hcall held hheld r hr hid _ => ?_
  by_cases hconn : conn < 2
  · refine h n hn conn hconn held ?_ r hr hid
    rwa [Sessions.held, hcall]
  · rw [call_of_not_lt hconns hconn n] at hcall
    exact absurd hcall (by simp)

end Sessions

end Runs

section Race

/-- No query filters, and no payload is sealed. -/
def Host.bytes : Host (List UInt8) where
  query :=
    { like _ _ := true
      glob _ _ := true
      compileGlob _ := .ok []
      jsonNumber _ _ := .ok none
      toValue _ := .ok .null
      toText _ := .ok "" }
  features := ⟨true, true⟩
  aead := ⟨fun _ _ _ _ => none, fun _ _ _ _ => none⟩

/-- Every file exists, is canonical and was modified at `mtime`, and a payload is its bytes. -/
def Sources.bytes (mtime : ℤ) : Sources (List UInt8) where
  normalizePath := .ok
  collectMetadata _ := .ok ⟨mtime, 0, none⟩
  computeHash _ := .ok none
  detectChange _ _ := .ok .fresh
  encode _ payload := .ok ⟨payload, "bin"⟩
  decode _ encoded := .ok encoded.bytes
  decodeBase64 _ := .ok []

def bytesEvent (mtime : ℤ) (conn : ℕ) (action : Action (List UInt8)) :
    SessionEvent (List UInt8) :=
  ⟨conn, ⟨.quiet, .bytes mtime, fun _ => true⟩, action⟩

/-- `/a` is stored. Between the two statements of a `get` of it, another session stores a
file. -/
def readRace (path : Path) : List (SessionEvent (List UInt8)) :=
  [bytesEvent 1 1 (.invoke (.write (.set (.bytes 1) [47, 97] [1]))),
    bytesEvent 1 0 (.invoke (.get [47, 97])),
    bytesEvent 2 1 (.invoke (.write (.set (.bytes 2) path [2]))), bytesEvent 2 0 .resume,
    bytesEvent 2 0 .resume]

/-- A read beside the write of another path. -/
theorem Sessions.responses_untorn_of_run_sample :
    (((runFrom (Sessions.step Host.bytes) (Sessions.init (fun _ => .plain "n" none) Db.empty)
      (readRace [47, 98])).session 0).responses.map Response.entries) = [[⟨"/a", ⟨1, 0, none⟩, [1]⟩]] ∧
    ∀ conn, ∀ resp ∈
      ((runFrom (Sessions.step Host.bytes) (Sessions.init (fun _ => .plain "n" none) Db.empty)
        (readRace [47, 98])).session conn).responses,
      resp.Untorn (fun _ encoded => .ok encoded.bytes)
        (runFrom (Sessions.step Host.bytes) (Sessions.init (fun _ => .plain "n" none) Db.empty)
          (readRace [47, 98])).committed := by
  refine ⟨by decide +kernel, Sessions.responses_untorn_of_run Host.bytes (fun _ => .plain "n" none)
    Db.valid_empty (fun _ _ encoded => .ok encoded.bytes) ?_ (by decide)
    (Sessions.along_leavesHeld (by decide) (by decide +kernel))⟩
  intro ev hev
  simp only [readRace, List.mem_cons, List.not_mem_nil, or_false] at hev
  rcases hev with rfl | rfl | rfl | rfl | rfl <;> rfl

/-- An overwrite that committed between the two statements gives an entry with the metadata of
the first write and the payload of the second. -/
theorem overwrittenRead_torn : ¬∀ conn, ∀ resp ∈
    ((runFrom (Sessions.step Host.bytes) (Sessions.init (fun _ => .plain "n" none) Db.empty)
      (readRace [47, 97])).session conn).responses,
    resp.Untorn (fun _ encoded => .ok encoded.bytes)
      (runFrom (Sessions.step Host.bytes) (Sessions.init (fun _ => .plain "n" none) Db.empty)
        (readRace [47, 97])).committed := by
  intro h
  have hentries : (((runFrom (Sessions.step Host.bytes)
      (Sessions.init (fun _ => .plain "n" none) Db.empty) (readRace [47, 97])).session 0).responses.map
        Response.entries) = [[⟨"/a", ⟨1, 0, none⟩, [2]⟩]] := by decide +kernel
  have hcommitted : (runFrom (Sessions.step Host.bytes)
      (Sessions.init (fun _ => .plain "n" none) Db.empty) (readRace [47, 97])).committed =
        [⟨"n", "/a", ⟨1, 0, none⟩, 0, 0, [1], "bin"⟩, ⟨"n", "/a", ⟨2, 0, none⟩, 0, 0, [2], "bin"⟩] := by
    decide +kernel
  obtain ⟨resp, hresp, hentry⟩ := List.mem_map.mp (hentries ▸ List.mem_singleton.mpr rfl)
  have htorn := h 0 resp hresp _ (hentry ▸ List.mem_singleton.mpr rfl)
  rw [hcommitted] at htorn
  obtain ⟨k, hk, hgives, -⟩ := htorn
  simp only [List.mem_cons, List.not_mem_nil, or_false] at hk
  rcases hk with rfl | rfl
  · exact absurd hgives.payload (by decide)
  · exact absurd hgives.metadata (by decide)

end Race

end LocalCache
