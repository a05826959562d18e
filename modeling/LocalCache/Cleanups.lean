import LocalCache.Effects

/-!
# What a cleanup deletes while others write

A cleanup reads a page in one statement, judges its rows, and deletes those that are gone by
their paths, in a later transaction. A write that commits in between under one of these paths is
deleted with them (`setDuringCleanup_deleted`), though it is neither expired nor missing.

A path is pending from when the cleanup has seen what it judges by until the deletion :
`updated_at` is read with the page, a missing file is seen by `exists`. In a run in which no
write stores a pending path, and no deletion's clock is behind that of a judgement, a cleanup
deletes only expired rows and rows not written since their file was seen missing
(`cleanupSpares_of_run`).
-/

namespace LocalCache

/-! ## What is judged -/

/-- The rows judged gone of the page, if there is one. -/
def Cleaning.gone (c : Cleaning) : List Judged := (c.page.map CleanupPage.gone).getD []

/-- The paths a cleanup may still delete for what it has seen. -/
def Cleaning.pending (c : Cleaning) : List String :=
  match c.page with
  | none => []
  | some page => page.gone.map Judged.path ++
      match c.kind with
      | .missing => []
      | .expired _ => page.left.map FileRow.path

section Judging

variable {ns : String} {db db' : Db} {committed committed' : List Committed}

/-- What a judgement says still holds : every row under the path was expired then, or no write
has stored the path since. -/
def Judged.Holds (kind : CleanupKind) (ns : String) (db : Db) (committed : List Committed)
    (j : Judged) : Prop :=
  match kind with
  | .missing => j.since ≤ committed.length ∧
      ∀ k ∈ committed.drop j.since, ¬(k.ns = ns ∧ k.path = j.path)
  | .expired ttl => ∀ r ∈ db.files, Db.HasKey ns j.path r →
      isExpired j.now r.updatedAt (some ttl) = true

/-- What the page says of a row not judged yet still holds, as far as the judgement reads it. -/
def FileRow.ReadHolds (kind : CleanupKind) (ns : String) (db : Db) (row : FileRow) : Prop :=
  match kind with
  | .missing => True
  | .expired _ => ∀ r ∈ db.files, Db.HasKey ns row.path r → r.updatedAt = row.updatedAt

/-- What a cleanup has seen still holds. -/
structure Cleaning.Sound (ns : String) (db : Db) (committed : List Committed) (c : Cleaning) :
    Prop where
  gone : ∀ page, c.page = some page → ∀ j ∈ page.gone, j.Holds c.kind ns db committed
  left : ∀ page, c.page = some page → ∀ row ∈ page.left, row.ReadHolds c.kind ns db

/-- No row of `ns` was stored under these paths. -/
structure LeavesAlone (ns : String) (paths : List String) (db db' : Db)
    (committed committed' : List Committed) : Prop where
  row : ∀ r' ∈ db'.files, r'.ns = ns → r'.path ∈ paths → ∃ r ∈ db.files, r.SameEntry r'
  committed : ∃ new, committed' = committed ++ new ∧ ∀ k ∈ new, ¬(k.ns = ns ∧ k.path ∈ paths)

theorem Judged.Holds.of_leavesAlone {kind : CleanupKind} {j : Judged} {paths : List String}
    (h : j.Holds kind ns db committed) (hpath : j.path ∈ paths)
    (halone : LeavesAlone ns paths db db' committed committed') :
    j.Holds kind ns db' committed' := by
  cases kind with
  | missing =>
    obtain ⟨hle, hlog⟩ := h
    obtain ⟨new, rfl, hnew⟩ := halone.committed
    refine ⟨hle.trans (by simp), fun k hk => ?_⟩
    rw [List.drop_append_of_le_length hle] at hk
    rcases List.mem_append.mp hk with hk | hk
    · exact hlog k hk
    · exact fun hkey => hnew k hk ⟨hkey.1, hkey.2 ▸ hpath⟩
  | expired ttl =>
    intro r' hr' hk
    obtain ⟨r, hr, hsame⟩ := halone.row r' hr' hk.1 (hk.2 ▸ hpath)
    rw [hsame.updatedAt]
    exact h r hr ⟨hsame.ns ▸ hk.1, hsame.path ▸ hk.2⟩

theorem FileRow.ReadHolds.of_leavesAlone {kind : CleanupKind} {row : FileRow} {paths : List String}
    (h : row.ReadHolds kind ns db) (hpath : ∀ ttl, kind = .expired ttl → row.path ∈ paths)
    (halone : LeavesAlone ns paths db db' committed committed') : row.ReadHolds kind ns db' := by
  cases kind with
  | missing => trivial
  | expired ttl =>
    intro r' hr' hk
    obtain ⟨r, hr, hsame⟩ := halone.row r' hr' hk.1 (hk.2 ▸ hpath ttl rfl)
    rw [hsame.updatedAt]
    exact h r hr ⟨hsame.ns ▸ hk.1, hsame.path ▸ hk.2⟩

/-- What others do under other paths leaves a cleanup sound. -/
theorem Cleaning.Sound.of_leavesAlone {c : Cleaning} (h : c.Sound ns db committed)
    (halone : LeavesAlone ns c.pending db db' committed committed') :
    c.Sound ns db' committed' := by
  refine ⟨fun page hpage j hj => ?_, fun page hpage row hrow => ?_⟩
  · refine (h.gone page hpage j hj).of_leavesAlone ?_ halone
    rw [Cleaning.pending, hpage]
    exact List.mem_append_left _ (List.mem_map_of_mem hj)
  · refine (h.left page hpage row hrow).of_leavesAlone (fun ttl hkind => ?_) halone
    rw [Cleaning.pending, hpage, hkind]
    exact List.mem_append_right _ (List.mem_map_of_mem hrow)

/-- A row that is expired stays so as the clock goes on. -/
theorem isExpired_of_le {now now' updatedAt : ℤ} {ttl : ℕ} (hle : now ≤ now')
    (h : isExpired now updatedAt (some ttl) = true) :
    isExpired now' updatedAt (some ttl) = true := by
  simp only [isExpired, ttlRemaining, Option.map_some, Option.some.injEq, decide_eq_true_eq] at h ⊢
  omega

end Judging

/-! ## The cleanup's own steps -/

section Own

variable {T : Type} {e : Engine} {env : Env T} {db : Db} {c c' : Cleaning} {commits : ℕ}

/-- What the next part of a cleanup leaves it with, and what it deletes. -/
inductive Cleaning.Goes (e : Engine) (env : Env T) (commits : ℕ) (db : Db) (c : Cleaning)
    (part : Part T) : Prop
  | read (rows : List FileRow) (last : Bool) (cursor : String) (hrows : ∀ r ∈ rows, r ∈ db.files ∧ r.ns = e.ns)
      (hdb : part.db = db)
      (hnext : part.next = .inl (.cleaning { c with cursor := cursor, page := some ⟨rows, [], last⟩ }))
  | judge (row : FileRow) (left : List FileRow) (gone : List Judged) (last : Bool)
      (hpage : c.page = some ⟨row :: left, gone, last⟩) (hdb : part.db = db)
      (hnext : part.next = .inl (.cleaning { c with page := some ⟨left,
        if c.kind.gone env row then gone ++ [⟨row.path, env.world.nowSecs 0, commits⟩] else gone,
        last⟩ }))
  | delete (gone : List Judged) (last : Bool) (hpage : c.page = some ⟨[], gone, last⟩)
      (hdb : ∀ r ∈ db.files, r ∉ part.db.files → r.ns = e.ns ∧ r.path ∈ gone.map Judged.path)
      (hnext : ∀ c', part.next = .inl (.cleaning c') → c'.page = none)
  | finish (hdb : part.db = db) (hnext : ∀ ongoing, part.next ≠ .inl ongoing)

theorem Cleaning.goes (hv : db.Valid) : c.Goes e env commits db (c.next e env commits db) := by
  obtain ⟨kind, size, cursor, removed, _ | ⟨_ | ⟨row, left⟩, gone, last⟩⟩ := c
  · rw [Cleaning.next]
    dsimp only
    rcases autocommit_cases (select env.world (Sql.pathsAfter e.ns cursor size)) db with
      ⟨rows, t, hrun, hbody⟩ | ⟨err, hrun, -⟩
    · rw [hrun]
      dsimp only
      obtain ⟨rfl, -, -⟩ := select_ok hbody
      cases (Sql.pathsAfter e.ns cursor size db).getLast? with
      | none => exact .finish rfl fun _ h => absurd h (by simp [Part.returned])
      | some last =>
        refine .read _ _ _ (fun r hr => ?_) rfl rfl
        have hmem := (Sql.limitRows_isPrefix size _).subset hr
        rw [mem_sortBy] at hmem
        exact Db.mem_inNamespace.mp (List.mem_of_mem_filter hmem)
    · rw [hrun]
      exact .finish rfl fun _ h => absurd h (by simp [Part.returned])
  · refine .delete gone last rfl ?_ ?_
    · rw [Cleaning.next]
      dsimp only
      by_cases hgone : gone.isEmpty = true
      · rw [if_pos hgone]
        intro r hr hnot
        dsimp only at hnot
        split_ifs at hnot <;> exact absurd hr hnot
      · rw [if_neg hgone]
        rcases transaction_cases (w := env.world)
          (deletePathsInTx env.world e.ns (gone.map Judged.path)) db with
          ⟨k, t₀, t, hrun, rfl, -, hbody⟩ | ⟨err, hrun⟩
        · rw [hrun]
          intro r hr hnot
          have hnot' : r ∉ t.db.files := by
            dsimp only at hnot
            split_ifs at hnot <;> exact hnot
          by_contra hcon
          exact hnot' (((deletePathsInTx_ok hv hbody).2 r).mpr ⟨hr, hcon⟩)
        · rw [hrun]
          exact fun r hr hnot => absurd hr hnot
    · intro c' hc'
      rw [Cleaning.next] at hc'
      dsimp only at hc'
      split at hc'
      · exact absurd hc' (by simp [Part.returned])
      · split at hc'
        · exact absurd hc' (by simp [Part.returned])
        · rw [← Ongoing.cleaning.inj (Sum.inl.inj hc')]
  · exact .judge row left gone last rfl rfl rfl

/-- A cleanup that starts has no page. -/
theorem Call.start_page {call : Call T} {host : Host T}
    (h : (call.start e host env db).next = .inl (.cleaning c)) : c.page = none := by
  have hfound : ∀ (none_ : Reply T) (ongoing : FileRow → Ongoing T)
      (found : Except Error (Option FileRow)), (∀ row, ongoing row ≠ .cleaning c) →
      (Part.ofFound e db none_ ongoing found).next ≠ .inl (.cleaning c) := by
    intro none_ ongoing found hne hfound
    rcases found with err | _ | row
    · exact absurd hfound (by simp [Part.ofFound, Part.returned])
    · exact absurd hfound (by simp [Part.ofFound, Part.returned])
    · exact hne row (Sum.inl.inj hfound)
  cases call with
  | write w => exact absurd h (by simp [Call.start, Part.ofWrite, Part.ofOutcome])
  | remove path => exact absurd h (by simp [Call.start, Part.ofOutcome])
  | get path => exact absurd h (hfound _ _ _ fun _ => by simp)
  | getIfFresh path => exact absurd h (hfound _ _ _ fun _ => by simp)
  | touch path => exact absurd h (hfound _ _ _ fun _ => by simp)
  | query q =>
    rw [Call.start] at h
    cases hstart : QueryPhase.start host.query env.src e q with
    | error err =>
      rw [hstart] at h
      exact absurd h (by simp [Part.returned])
    | ok phase =>
      rw [hstart] at h
      exact absurd h (by simp [Part.goesOn])
  | cleanupMissingFiles size =>
    rw [Call.start] at h
    split_ifs at h
    · exact absurd h (by simp [Part.returned])
    · rw [← Ongoing.cleaning.inj (Sum.inl.inj h)]
  | cleanupExpired size =>
    rw [Call.start] at h
    split_ifs at h
    · exact absurd h (by simp [Part.returned])
    · split at h
      · exact absurd h (by simp [Part.returned])
      · rw [← Ongoing.cleaning.inj (Sum.inl.inj h)]
  | purgeStaleVersions => exact absurd h (by simp [Call.start, Part.ofOutcome])
  | rotateEncryptionKey nonces maxRows maxBytes newKey =>
    rw [Call.start] at h
    split at h <;> exact absurd h (by simp)

/-- Only a cleanup goes on as one. -/
theorem Ongoing.cleaning_of_next {ongoing : Ongoing T} {host : Host T}
    (h : (ongoing.next e host env commits db).next = .inl (.cleaning c')) :
    ∃ c, ongoing = .cleaning c ∧ (c.next e env commits db).next = .inl (.cleaning c') := by
  cases ongoing with
  | found row =>
    rw [Ongoing.next] at h
    split at h
    · exact absurd h (by simp [Part.returned])
    · exact absurd h (by simp [Part.returned])
    · exact absurd h (by simp [Part.goesOn])
  | loaded row entry => exact absurd h (by simp [Ongoing.next, Part.ofOutcome])
  | touching row => exact absurd h (by simp [Ongoing.next, Part.ofOutcome])
  | querying q phase =>
    rw [Ongoing.next] at h
    split at h
    · exact absurd h (by simp [Part.returned])
    · exact absurd h (by simp [Part.goesOn])
    · exact absurd h (by simp [Part.returned])
  | cleaning c => exact ⟨c, rfl, h⟩

/-- The cleanup's own step keeps it sound. -/
theorem Cleaning.Sound.next {committed : List Committed} (h : c.Sound e.ns db committed)
    (hv : db.Valid) (hnext : (c.next e env committed.length db).next = .inl (.cleaning c')) :
    c'.Sound e.ns (c.next e env committed.length db).db committed := by
  have hgoes : c.Goes e env committed.length db (c.next e env committed.length db) := c.goes hv
  rcases hgoes with
    ⟨rows, last, cursor, hrows, hdb, hgoes⟩ | ⟨row, left, gone, last, hpage, hdb, hgoes⟩ |
    ⟨gone, last, hpage, -, hgoes⟩ | ⟨-, hgoes⟩
  · rw [hnext, Sum.inl.injEq, Ongoing.cleaning.injEq] at hgoes
    rw [hdb, hgoes]
    refine ⟨fun page hpage j hj => ?_, fun page hpage row hrow => ?_⟩
    · rw [← Option.some.inj hpage] at hj
      exact absurd hj List.not_mem_nil
    · rw [← Option.some.inj hpage] at hrow
      obtain ⟨hmem, hns⟩ := hrows row hrow
      unfold FileRow.ReadHolds
      cases c.kind with
      | missing => trivial
      | expired ttl =>
        intro r hr hk
        rw [hv.eq_of_hasKey hr hmem hk ⟨hns, rfl⟩]
  · rw [hnext, Sum.inl.injEq, Ongoing.cleaning.injEq] at hgoes
    rw [hdb, hgoes]
    have hgone := h.gone _ hpage
    have hleft := h.left _ hpage
    refine ⟨fun page hpage j hj => ?_, fun page hpage r hr => ?_⟩
    · rw [← Option.some.inj hpage] at hj
      dsimp only at hj
      split_ifs at hj with hjudge
      · rcases List.mem_append.mp hj with hj | hj
        · exact hgone j hj
        · obtain rfl := List.mem_singleton.mp hj
          have hread := hleft row List.mem_cons_self
          unfold Judged.Holds
          unfold FileRow.ReadHolds at hread
          dsimp only
          cases hkind : c.kind with
          | missing => simp
          | expired ttl =>
            rw [hkind] at hread hjudge
            intro r hr hk
            rw [hread r hr hk]
            exact hjudge
      · exact hgone j hj
    · rw [← Option.some.inj hpage] at hr
      exact hleft r (List.mem_cons_of_mem _ hr)
  · have hnone := hgoes c' hnext
    exact ⟨fun page hpage => absurd (hnone.symm.trans hpage) (by simp),
      fun page hpage => absurd (hnone.symm.trans hpage) (by simp)⟩
  · exact absurd hnext (hgoes _)

end Own

/-! ## Runs -/

theorem Db.mem_commits {db : Db} {ids : List ℕ} {k : Committed} (h : k ∈ db.commits ids) :
    ∃ r ∈ db.files, r.id ∈ ids ∧ db.commit r = some k := by
  obtain ⟨r, hr, hk⟩ := List.mem_filterMap.mp h
  obtain ⟨hr, hid⟩ := List.mem_filter.mp hr
  exact ⟨r, hr, by simpa using hid, hk⟩

theorem Db.commit_eq_some {db : Db} {r : FileRow} {k : Committed} :
    db.commit r = some k ↔ ∃ p, db.payload? r.id = some p ∧
      k = ⟨r.ns, r.path, r.metadata, r.updatedAt, r.payloadVersion, p.content, p.encoding⟩ := by
  rw [Db.commit, Option.map_eq_some_iff]
  exact exists_congr fun p => and_congr_right fun _ => eq_comm

section Runs

variable {T : Type} {host : Host T} {e : Engine} {env : Env T} {db : Db}

namespace Sessions

variable {s : Sessions T} {ev : SessionEvent T}

/-- What every cleanup in progress has seen still holds. -/
structure CleanupsSound (s : Sessions T) : Prop where
  valid : s.db.Valid
  sound : ∀ conn c, (s.session conn).call = some (.cleaning c) →
    c.Sound (s.ns conn) s.db s.committed

/-- The step is no write that may store a path pending in a cleanup of its namespace, and if it deletes
expired rows, its clock is not behind that of their judgements. -/
def SparesPending (s : Sessions T) (ev : SessionEvent T) : Prop :=
  (∀ conn c, (s.session conn).call = some (.cleaning c) → s.ns conn = s.ns ev.conn →
      ∀ path ∈ c.pending, path ∉ ev.paths) ∧
    ∀ c, (s.session ev.conn).call = some (.cleaning c) → ∀ ttl, c.kind = .expired ttl →
      ∀ j ∈ c.gone, j.now ≤ ev.env.world.nowSecs 0

/-- A row deleted by a step of a cleanup is expired at that moment, or no write has stored it
since its file was seen missing. -/
def CleanupSpares (host : Host T) (s : Sessions T) (ev : SessionEvent T) : Prop :=
  ∀ c, (s.session ev.conn).call = some (.cleaning c) →
    ∀ r ∈ s.db.files, r ∉ (s.step host ev).db.files →
      match c.kind with
      | .expired ttl => isExpired (ev.env.world.nowSecs 0) r.updatedAt (some ttl) = true
      | .missing => ∃ j ∈ c.gone, j.path = r.path ∧
          ∀ k ∈ s.committed.drop j.since, ¬(k.ns = r.ns ∧ k.path = r.path)

/-- A step that stores none of these paths in the namespace leaves them alone. -/
theorem leavesAlone_step {ns : String} {paths : List String} (hv : s.db.Valid)
    (hpaths : ns = s.ns ev.conn → ∀ path ∈ paths, path ∉ ev.paths) :
    LeavesAlone ns paths s.db (s.step host ev).db s.committed (s.step host ev).committed := by
  obtain ⟨wrote, hlog, heffect | ⟨-, rfl, hrekeyed⟩⟩ := did_step host s ev hv
  · have hnot : ∀ r' ∈ (s.step host ev).db.files, r'.ns = ns → r'.path ∈ paths → r'.id ∉ wrote := by
      intro r' hr' hns hpath hid
      obtain ⟨hns', hpath'⟩ := heffect.stored r' hr' hid
      exact hpaths (hns.symm.trans hns') _ hpath hpath'
    refine ⟨fun r' hr' hns hpath => heffect.row r' hr' (hnot r' hr' hns hpath),
      _, hlog, fun k hk hkey => ?_⟩
    obtain ⟨r, hr, hid, hcommit⟩ := Db.mem_commits hk
    obtain ⟨p, -, rfl⟩ := Db.commit_eq_some.mp hcommit
    exact hnot r hr hkey.1 hkey.2 hid
  · refine ⟨fun r' hr' _ _ => ⟨r', hrekeyed.files ▸ hr', FileRow.SameEntry.refl r'⟩, [], ?_, by simp⟩
    rw [hlog]
    simp [Db.commits]

theorem CleanupsSound.step (h : s.CleanupsSound) (hspares : s.SparesPending ev) :
    (s.step host ev).CleanupsSound := by
  refine ⟨valid_step h.valid, fun conn c' hcall => ?_⟩
  rw [ns_step]
  by_cases hconn : conn = ev.conn
  · subst hconn
    rcases call_step hcall with ⟨hcall, heq⟩ | ⟨part, hpart, heq, hnext⟩
    · rw [heq]
      exact h.sound ev.conn c' hcall
    · unfold part? at hpart
      split at hpart
      · obtain rfl := Option.some.inj hpart
        have hpage := Call.start_page hnext
        exact ⟨fun page hsome => absurd (hpage.symm.trans hsome) (by simp),
          fun page hsome => absurd (hpage.symm.trans hsome) (by simp)⟩
      · next ongoing haction hongoing =>
        obtain rfl := Option.some.inj hpart
        obtain ⟨c, rfl, hnext⟩ := Ongoing.cleaning_of_next hnext
        have hsound := (h.sound ev.conn c hongoing).next h.valid hnext
        rw [heq]
        have hlog : (s.after ev.conn (c.next (s.session ev.conn).engine ev.env s.committed.length
            s.db)).committed = s.committed := by
          simp [after, c.next_wrote, Db.commits]
        show c'.Sound (s.ns ev.conn) _ (s.after ev.conn (c.next (s.session ev.conn).engine ev.env
          s.committed.length s.db)).committed
        rw [hlog]
        exact hsound
      · exact absurd hpart (by simp)
  · rw [session_step_of_ne hconn] at hcall
    exact (h.sound conn c' hcall).of_leavesAlone
      (leavesAlone_step h.valid fun hns => hspares.1 conn c' hcall hns)

theorem CleanupsSound.spares (h : s.CleanupsSound) (hspares : s.SparesPending ev) :
    CleanupSpares host s ev := by
  intro c hcall r hr hnot
  have hsound := h.sound ev.conn c hcall
  have hclock := hspares.2 c hcall
  rcases step_cases host s ev with ⟨-, heq⟩ | ⟨part, hpart, heq⟩
  · rw [heq] at hnot
    exact absurd hr hnot
  unfold part? at hpart
  rw [hcall] at hpart
  cases haction : ev.action with
  | invoke call =>
    rw [haction] at hpart
    exact absurd hpart (by simp)
  | resume =>
    rw [haction] at hpart
    obtain rfl := Option.some.inj hpart
    rw [heq] at hnot
    have hgoes : c.Goes (s.session ev.conn).engine ev.env s.committed.length s.db
        (c.next (s.session ev.conn).engine ev.env s.committed.length s.db) := c.goes h.valid
    have hnot' : r ∉ (c.next (s.session ev.conn).engine ev.env s.committed.length s.db).db.files := hnot
    rcases hgoes with ⟨rows, last, cursor, -, hdb, -⟩ | ⟨row, left, gone, last, -, hdb, -⟩ |
      ⟨gone, last, hpage, hdb, -⟩ | ⟨hdb, -⟩
    · exact absurd (by rwa [hdb]) hnot'
    · exact absurd (by rwa [hdb]) hnot'
    · obtain ⟨hns, hpath⟩ := hdb r hr hnot'
      obtain ⟨j, hj, hjpath⟩ := List.mem_map.mp hpath
      have hgone : j ∈ c.gone := by
        rw [Cleaning.gone, hpage]
        exact hj
      have hholds := hsound.gone _ hpage j hj
      unfold Judged.Holds at hholds
      cases hkind : c.kind with
      | missing =>
        rw [hkind] at hholds
        refine ⟨j, hgone, hjpath, fun k hk hkey => hholds.2 k hk ?_⟩
        exact ⟨hkey.1.trans hns, hkey.2.trans hjpath.symm⟩
      | expired ttl =>
        rw [hkind] at hholds
        exact isExpired_of_le (hclock ttl hkind j hgone) (hholds r hr ⟨hns, hjpath.symm⟩)
    · exact absurd (by rwa [hdb]) hnot'

theorem cleanupsSound_init (engines : ℕ → Engine) (hv : db.Valid) :
    (init engines db : Sessions T).CleanupsSound := ⟨hv, fun _ _ h => absurd h (by simp [init])⟩

/-- In a run whose steps spare what is pending, every cleanup deletes only rows that are expired
or unwritten since their file was seen missing. -/
theorem cleanupSpares_of_run (host : Host T) (engines : ℕ → Engine) (hv : db.Valid)
    {events : List (SessionEvent T)}
    (h : Along (step host) SparesPending (init engines db) events) :
    Along (step host) (CleanupSpares host) (init engines db) events :=
  Along.imp (fun _ _ => CleanupsSound.step) (fun _ _ => CleanupsSound.spares)
    (cleanupsSound_init engines hv) h

/-! ## A write between the judgement and the deletion -/

/-- The cleanup a session is in the middle of. -/
def cleaning? (s : Sessions T) (conn : ℕ) : Option Cleaning :=
  match (s.session conn).call with
  | some (.cleaning c) => some c
  | _ => none

theorem cleaning?_eq_some {conn : ℕ} {c : Cleaning} :
    s.cleaning? conn = some c ↔ (s.session conn).call = some (.cleaning c) := by
  unfold cleaning?
  split
  · next h => rw [h, Option.some.injEq, Option.some.injEq, Ongoing.cleaning.injEq]
  · next h => exact ⟨fun heq => absurd heq (by simp), fun heq => absurd heq (h c)⟩

theorem session_of_notMem {conn : ℕ} {events : List (SessionEvent T)}
    (h : conn ∉ events.map SessionEvent.conn) :
    (runFrom (step host) s events).session conn = s.session conn := by
  induction events generalizing s with
  | nil => rfl
  | cons ev events ih =>
    rw [List.map_cons, List.mem_cons, not_or] at h
    rw [runFrom_cons, ih h.2, session_step_of_ne h.1]

/-- A session that no event is about has no call in progress. -/
theorem call_of_not_lt {engines : ℕ → Engine} {events : List (SessionEvent T)} {bound conn : ℕ}
    (hconns : ∀ ev ∈ events, ev.conn < bound) (hconn : ¬ conn < bound) (n : ℕ) :
    ((runFrom (step host) (init engines db) (events.take n)).session conn).call = none := by
  have hnot : conn ∉ (events.take n).map SessionEvent.conn := by
    intro hmem
    obtain ⟨ev, hev, rfl⟩ := List.mem_map.mp hmem
    exact hconn (hconns ev (List.mem_of_mem_take hev))
  rw [session_of_notMem hnot]
  rfl

/-- For a run of the first two sessions it is enough to look at these. -/
theorem along_sparesPending {engines : ℕ → Engine} {events : List (SessionEvent T)}
    (hconns : ∀ ev ∈ events, ev.conn < 2)
    (h : ∀ n (hn : n < events.length),
      (∀ conn < 2, ∀ c ∈ (runFrom (step host) (init engines db) (events.take n)).cleaning? conn,
        ∀ path ∈ c.pending, path ∉ events[n].paths) ∧
      ∀ c ∈ (runFrom (step host) (init engines db) (events.take n)).cleaning? events[n].conn,
        ∀ j ∈ c.gone, j.now ≤ events[n].env.world.nowSecs 0) :
    Along (step host) SparesPending (init engines db) events := by
  refine Along.of_take fun n hn => ⟨fun conn c hcall _ => ?_, fun c hcall _ _ => ?_⟩
  · by_cases hconn : conn < 2
    · exact (h n hn).1 conn hconn c (cleaning?_eq_some.mpr hcall)
    · rw [call_of_not_lt hconns hconn n] at hcall
      exact absurd hcall (by simp)
  · exact (h n hn).2 c (cleaning?_eq_some.mpr hcall)

end Sessions

end Runs

/-! ## A run with a write in between -/

section Race

/-- Both engines work on one namespace, where entries live for ten seconds. -/
def tenSeconds : ℕ → Engine := fun _ => { Engine.plain "n" none with ttl := some 10 }

def setAt (now : ℤ) (conn : ℕ) (path : Path) : SessionEvent Unit :=
  ⟨conn, .at now, .invoke (.write (.set .quiet path ()))⟩

/-- `/a` is stored at 0. At 100 a cleanup reads and judges it, another session stores a file,
and the cleanup deletes. -/
def cleanupRace (path : Path) : List (SessionEvent Unit) :=
  [setAt 0 1 [47, 97], ⟨0, .at 100, .invoke (.cleanupExpired 10)⟩, ⟨0, .at 100, .resume⟩,
    ⟨0, .at 100, .resume⟩, setAt 100 1 path, ⟨0, .at 100, .resume⟩]

/-- A cleanup beside the write of another path. -/
theorem Sessions.cleanupSpares_of_run_sample :
    Along (Sessions.step Host.quiet) (Sessions.CleanupSpares Host.quiet)
      (Sessions.init tenSeconds Db.empty) (cleanupRace [47, 98]) := by
  exact Sessions.cleanupSpares_of_run Host.quiet tenSeconds Db.valid_empty
    (Sessions.along_sparesPending (by decide) (by decide +kernel))

/-- A `set` that committed before the deletion is undone by it, though its row is not expired. -/
theorem setDuringCleanup_deleted :
    ¬Along (Sessions.step Host.quiet) (Sessions.CleanupSpares Host.quiet)
      (Sessions.init tenSeconds Db.empty) (cleanupRace [47, 97]) := by
  intro h
  have hlast := Along.at_event ((cleanupRace [47, 97]).take 5) h
  have hcall : (runFrom (Sessions.step Host.quiet) (Sessions.init tenSeconds Db.empty)
      ((cleanupRace [47, 97]).take 5)).cleaning? 0 =
        some ⟨.expired 10, 10, "/a", 0, some ⟨[], [⟨"/a", 100, 1⟩], true⟩⟩ := by decide +kernel
  have hexpired := hlast _ (Sessions.cleaning?_eq_some.mp hcall)
    ⟨1, "n", "/a", ⟨0, 0, none⟩, 100, 0, 2⟩ (by decide +kernel) (by decide +kernel)
  exact absurd hexpired (by decide)

end Race

end LocalCache
