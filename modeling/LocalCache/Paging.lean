import LocalCache.Changes
import LocalCache.Rotation

/-!
# Paging by path reaches every row, unless a path is empty

`cleanupMissingFiles`, `cleanupExpired` and the rotation page over a namespace by path, from
the cursor `""`. The comparison is strict, so the pages list every row but one with the empty
path (`flatten_pathPages`). The code holds that every stored path is not empty; an import
stores the paths of its records as they are, so a record with the empty path makes a row
that no page lists (`emptyPath_unlisted`). In a run without such a record the pages are
complete in every state reached (`pagesReachAll_of_run`).
-/

namespace LocalCache

/-- The pages of a namespace's rows from the cursor `""`. -/
def pathPages (ns : String) (size fuel : ℕ) (db : Db) : List (List FileRow) :=
  pages FileRow.path (fun after => Sql.pathsAfter ns after size db) fuel ""

/-! ## The two cleanups -/

/-- What a cleanup did, with the rows it examined as a history variable. -/
structure CleanupOutcome where
  result : Except Error ℕ
  db : Db
  examined : List FileRow

section Cleanup

variable (e : Engine) (ws : ℕ → World)

/-- The paging loop of a cleanup. Each page is read by one statement, and its rows that are
`gone` are deleted in a transaction of their own, each in its own world. `none` when the fuel
runs out. -/
def cleanupPages (size : ℕ) (gone : FileRow → Bool) : (fuel : ℕ) → (n : ℕ) → (cursor : String) →
    (removed : ℕ) → (examined : List FileRow) → Db → Option CleanupOutcome
  | 0, _, _, _, _, _ => none
  | fuel + 1, n, cursor, removed, examined, db =>
    match (autocommit (select (ws (2 * n)) (Sql.pathsAfter e.ns cursor size)) db).1 with
    | .error err => some ⟨.error err, db, examined⟩
    | .ok page =>
      match page.getLast? with
      | none => some ⟨.ok removed, db, examined⟩
      | some last =>
        let absent := (page.filter gone).map FileRow.path
        let (deleted, db) :=
          if absent.isEmpty then (.ok 0, db)
          else transaction (ws (2 * n + 1)) (deletePathsInTx (ws (2 * n + 1)) e.ns absent) db
        match deleted with
        | .error err => some ⟨.error err, db, examined ++ page⟩
        | .ok k =>
          if page.length < size then some ⟨.ok (removed + k), db, examined ++ page⟩
          else cleanupPages size gone fuel (n + 1) last.path (removed + k) (examined ++ page) db

/-- Delete the entries whose file is missing. -/
def cleanupMissingFiles (exists_ : String → Bool) (size fuel : ℕ) (db : Db) :
    Option CleanupOutcome :=
  if e.readOnly then some ⟨.error .readOnly, db, []⟩
  else cleanupPages e ws size (fun r => !exists_ r.path) fuel 0 "" 0 [] db

/-- Delete the entries past their TTL, each by the clock when it is examined. -/
def cleanupExpired (now : FileRow → ℤ) (size fuel : ℕ) (db : Db) : Option CleanupOutcome :=
  if e.readOnly then some ⟨.error .readOnly, db, []⟩
  else
    match e.ttl with
    | none => some ⟨.ok 0, db, []⟩
    | some ttl => cleanupPages e ws size (fun r => isExpired (now r) r.updatedAt (some ttl)) fuel 0
        "" 0 [] db

end Cleanup

/-! ## The pages of a database -/

section Pages

variable {db : Db} {ns : String}

/-- The rows of a namespace in path order. -/
def rowsByPath (ns : String) (db : Db) : List FileRow :=
  sortBy (fun r => textKey r.path) (db.inNamespace ns)

theorem mem_rowsByPath {r : FileRow} : r ∈ rowsByPath ns db ↔ r ∈ db.files ∧ r.ns = ns := by
  rw [rowsByPath, mem_sortBy, Db.mem_inNamespace]

theorem nodup_textKey_path (hv : db.Valid) :
    ((db.inNamespace ns).map fun r => textKey r.path).Nodup := by
  refine (hv.nodup.filter _).map_on fun r hr r' hr' hkey => ?_
  obtain ⟨hr, hns⟩ := Db.mem_inNamespace.mp hr
  obtain ⟨hr', hns'⟩ := Db.mem_inNamespace.mp hr'
  exact hv.eq_of_hasKey hr hr' ⟨hns, rfl⟩ ⟨hns', (textKey_injective hkey).symm⟩

theorem pairwise_rowsByPath (hv : db.Valid) :
    (rowsByPath ns db).Pairwise fun a b => textKey a.path < textKey b.path :=
  pairwise_sortBy_lt _ (nodup_textKey_path hv)

theorem pathsAfter_eq (hv : db.Valid) (after : String) (size : ℕ) :
    Sql.pathsAfter ns after size db = Sql.limitRows size
      ((rowsByPath ns db).filter fun r => textKey after < textKey r.path) := by
  rw [Sql.pathsAfter, sortBy_filter (nodup_textKey_path hv)]
  rfl

theorem readsPages_pathsAfter (hv : db.Valid) {size : ℕ} (hsize : 1 ≤ size) :
    ReadsPages textKey FileRow.path (rowsByPath ns db)
      fun after => Sql.pathsAfter ns after size db := by
  intro after
  simp only [pathsAfter_eq hv]
  refine ⟨?_, fun hne => Sql.limitRows_ne_nil hsize ?_⟩
  · convert Sql.limitRows_isPrefix size _
  · convert hne

theorem textKey_empty_lt_iff {path : String} : textKey "" < textKey path ↔ path ≠ "" := by
  refine ⟨?_, textKey_empty_lt⟩
  rintro hlt rfl
  exact lt_irrefl _ hlt

theorem length_rowsByPath : (rowsByPath ns db).length = (db.inNamespace ns).length :=
  length_sortBy _ _

/-- The pages list every row but one with the empty path, in path order. -/
theorem flatten_pathPages (hv : db.Valid) {size fuel : ℕ} (hsize : 1 ≤ size)
    (hfuel : (db.inNamespace ns).length ≤ fuel) :
    (pathPages ns size fuel db).flatten = (rowsByPath ns db).filter fun r => r.path ≠ "" := by
  have hpages := flatten_pages_eq_filter (pairwise_rowsByPath hv) (readsPages_pathsAfter hv hsize)
    (length_rowsByPath.trans_le hfuel) ""
  unfold pathPages
  simpa only [textKey_empty_lt_iff] using hpages

/-- Whatever the page size, the pages list every row of the namespace exactly once. -/
def PagesComplete (ns : String) (db : Db) : Prop :=
  ∀ size fuel, 1 ≤ size → (db.inNamespace ns).length ≤ fuel →
    (pathPages ns size fuel db).flatten.Perm (db.inNamespace ns)

/-- Paging is complete exactly when no path of the namespace is empty. -/
theorem pagesComplete_iff (hv : db.Valid) :
    PagesComplete ns db ↔ ∀ r ∈ db.files, r.ns = ns → r.path ≠ "" := by
  constructor
  · intro h r hr hns
    have hmem := (h 1 _ le_rfl le_rfl).mem_iff.mpr (Db.mem_inNamespace.mpr ⟨hr, hns⟩)
    rw [flatten_pathPages hv le_rfl le_rfl] at hmem
    simpa using (List.mem_filter.mp hmem).2
  · intro h size fuel hsize hfuel
    rw [flatten_pathPages hv hsize hfuel, List.filter_eq_self.mpr]
    · exact sortBy_perm _ _
    · intro r hr
      obtain ⟨hr, hns⟩ := mem_rowsByPath.mp hr
      simpa using h r hr hns

end Pages

/-! ## What a cleanup did -/

section CleanedUp

variable {e : Engine} {ns : String} {gone : FileRow → Bool} {db₀ db : Db}

/-- The invariant of a cleanup's loop : the rows up to the cursor are examined, those of them
that are `gone` are deleted, and nothing else changed. -/
structure CleanedUpTo (ns : String) (gone : FileRow → Bool) (db₀ : Db) (cursor : String)
    (done rest : List FileRow) (db : Db) : Prop where
  valid : db.Valid
  cut : Cut (fun r => textKey r.path) (rowsByPath ns db₀) (textKey cursor) done rest
  mem : ∀ r, r ∈ db.files ↔ r ∈ db₀.files ∧ ¬(r ∈ done ∧ gone r = true)

/-- A cleanup examined every row of the namespace once, and deleted those that are `gone`. -/
structure CleanedUp (ns : String) (gone : FileRow → Bool) (db₀ : Db) (o : CleanupOutcome) :
    Prop where
  examined : o.examined.Perm (db₀.inNamespace ns)
  mem : ∀ r, r ∈ o.db.files ↔ r ∈ db₀.files ∧ ¬(r.ns = ns ∧ gone r = true)

namespace CleanedUpTo

variable {cursor : String} {done rest : List FileRow}

/-- A page is read from the rows left. -/
theorem pathsAfter (h : CleanedUpTo ns gone db₀ cursor done rest db) (hv₀ : db₀.Valid) (size : ℕ) :
    Sql.pathsAfter ns cursor size db = Sql.limitRows size rest := by
  have hsorted : (rowsByPath ns db₀).Pairwise _ := pairwise_rowsByPath hv₀
  rw [pathsAfter_eq h.valid]
  congr 1
  refine eq_of_pairwise_lt (fun r : FileRow => textKey r.path)
    ((pairwise_rowsByPath h.valid).sublist List.filter_sublist)
    (hsorted.sublist (h.cut.eq ▸ List.sublist_append_right _ _)) fun r => ?_
  have hrow : r ∈ done ∨ r ∈ rest ↔ r ∈ db₀.files ∧ r.ns = ns := by
    rw [← mem_rowsByPath, h.cut.eq, List.mem_append]
  rw [List.mem_filter, mem_rowsByPath, h.mem, decide_eq_true_eq]
  constructor
  · rintro ⟨⟨⟨hr, -⟩, hns⟩, hlt⟩
    exact (hrow.mpr ⟨hr, hns⟩).resolve_left fun hdone => not_lt.mpr (h.cut.le r hdone) hlt
  · intro hr
    obtain ⟨hr₀, hns⟩ := hrow.mp (Or.inr hr)
    have hlt := h.cut.lt r hr
    exact ⟨⟨⟨hr₀, fun hd => not_lt.mpr (h.cut.le r hd.1) hlt⟩, hns⟩, hlt⟩

/-- A page is examined when its rows that are `gone` are deleted. -/
theorem next {page : List FileRow} (h : CleanedUpTo ns gone db₀ cursor done (page ++ rest) db)
    (hv₀ : db₀.Valid) (hpage : page ≠ []) {db' : Db} (hv' : db'.Valid)
    (hmem : ∀ r, r ∈ db'.files ↔
      r ∈ db.files ∧ ¬(r.ns = ns ∧ r.path ∈ (page.filter gone).map FileRow.path)) :
    CleanedUpTo ns gone db₀ (page.getLast hpage).path (done ++ page) rest db' where
  valid := hv'
  cut := h.cut.next (pairwise_rowsByPath hv₀) hpage
  mem r := by
    have hsub : ∀ q ∈ page, q ∈ db₀.files ∧ q.ns = ns := fun q hq => by
      rw [← mem_rowsByPath, h.cut.eq]
      exact List.mem_append_right _ (List.mem_append_left _ hq)
    have hpath : r ∈ db₀.files →
        ((r.ns = ns ∧ r.path ∈ (page.filter gone).map FileRow.path) ↔ r ∈ page ∧ gone r = true) := by
      intro hr
      constructor
      · rintro ⟨hns, hp⟩
        obtain ⟨q, hq, hqp⟩ := List.mem_map.mp hp
        obtain ⟨hq, hgone⟩ := List.mem_filter.mp hq
        obtain ⟨hq₀, hqns⟩ := hsub q hq
        rw [hv₀.eq_of_hasKey hr hq₀ ⟨hns, rfl⟩ ⟨hqns, hqp⟩]
        exact ⟨hq, hgone⟩
      · rintro ⟨hr', hgone⟩
        exact ⟨(hsub r hr').2, List.mem_map_of_mem (List.mem_filter.mpr ⟨hr', hgone⟩)⟩
    rw [hmem, h.mem, List.mem_append]
    constructor
    · rintro ⟨⟨hr, hdone⟩, hrest⟩
      rw [hpath hr] at hrest
      exact ⟨hr, by tauto⟩
    · rintro ⟨hr, hno⟩
      rw [hpath hr]
      exact ⟨⟨hr, by tauto⟩, by tauto⟩

/-- With no row left, the cleanup is done. -/
theorem cleanedUp (h : CleanedUpTo ns gone db₀ cursor done [] db) (result : Except Error ℕ) :
    CleanedUp ns gone db₀ ⟨result, db, done⟩ := by
  have hrows : rowsByPath ns db₀ = done := by rw [h.cut.eq, List.append_nil]
  refine ⟨hrows ▸ sortBy_perm _ _, fun r => ?_⟩
  rw [h.mem r]
  refine and_congr_right fun hr => not_congr (and_congr_left fun _ => ?_)
  rw [← hrows, mem_rowsByPath, and_iff_right hr]

end CleanedUpTo

/-- The deletion of a page's rows, when it succeeds. -/
theorem deletePage_ok {w : World} {absent : List String} {n : ℕ} {db' : Db} (hv : db.Valid)
    (h : (if absent.isEmpty then (.ok 0, db) else transaction w (deletePathsInTx w ns absent) db) =
      (.ok n, db')) :
    db'.Valid ∧ ∀ r, r ∈ db'.files ↔ r ∈ db.files ∧ ¬(r.ns = ns ∧ r.path ∈ absent) := by
  by_cases hnil : absent.isEmpty
  · rw [if_pos hnil] at h
    obtain ⟨-, rfl⟩ := Prod.mk.inj h
    rw [List.isEmpty_iff.mp hnil]
    exact ⟨hv, by simp⟩
  · rw [if_neg hnil] at h
    rcases transaction_cases (w := w) (deletePathsInTx w ns absent) db with
      ⟨k, t₀, t, hrun, rfl, -, hbody⟩ | ⟨err, hrun⟩
    · obtain ⟨-, rfl⟩ := Prod.mk.inj (hrun.symm.trans h)
      exact deletePathsInTx_ok hv hbody
    · exact absurd (Prod.mk.inj (hrun.symm.trans h)).1 (by simp)

/-- With fuel for a page for each row left and one more, the loop ends, and if no page failed
every row was examined. -/
theorem cleanupPages_ok {ws : ℕ → World} (hv₀ : db₀.Valid) {size : ℕ} (hsize : 1 ≤ size) :
    ∀ {fuel n : ℕ} {cursor : String} {removed : ℕ} {done rest : List FileRow} {db : Db},
      CleanedUpTo e.ns gone db₀ cursor done rest db → rest.length < fuel →
        ∃ o, cleanupPages e ws size gone fuel n cursor removed done db = some o ∧
          ∀ k, o.result = .ok k → CleanedUp e.ns gone db₀ o
  | 0, _, _, _, _, _, _, _, hfuel => absurd hfuel (by omega)
  | fuel + 1, n, cursor, removed, done, rest, db, hinv, hfuel => by
    unfold cleanupPages
    split
    · exact ⟨_, rfl, fun k hk => absurd hk (by simp)⟩
    next page hread =>
    obtain rfl : page = Sql.limitRows size rest := by
      rcases autocommit_cases (select (ws (2 * n)) (Sql.pathsAfter e.ns cursor size)) db with
        ⟨a, t, hrun, hbody⟩ | ⟨err, hrun, -⟩
      · rw [hrun] at hread
        obtain rfl := Except.ok.inj hread
        rw [(select_ok hbody).1]
        exact hinv.pathsAfter hv₀ size
      · rw [hrun] at hread
        exact absurd hread (by simp)
    split
    · next hlast =>
      -- an empty page : no row is left
      obtain rfl : rest = [] := by
        by_contra hne
        exact Sql.limitRows_ne_nil hsize hne (List.getLast?_eq_none_iff.mp hlast)
      exact ⟨_, rfl, fun _ _ => hinv.cleanedUp _⟩
    next last hlast =>
    have hpage : Sql.limitRows size rest ≠ [] := by
      intro hnil
      rw [hnil] at hlast
      exact absurd hlast (by simp)
    obtain rfl : (Sql.limitRows size rest).getLast hpage = last := by
      rw [List.getLast?_eq_some_getLast hpage] at hlast
      exact Option.some.inj hlast
    obtain ⟨rest', hrest⟩ := Sql.limitRows_isPrefix size rest
    simp only
    split
    · exact ⟨_, rfl, fun k hk => absurd hk (by simp)⟩
    next k hdelete =>
    obtain ⟨hv', hmem⟩ := deletePage_ok hinv.valid (Prod.ext hdelete rfl)
    rw [← hrest] at hinv hfuel
    have hnext := hinv.next hv₀ hpage hv' hmem
    by_cases hshort : (Sql.limitRows size rest).length < size
    · obtain rfl : rest' = [] := Sql.rest_eq_nil_of_length_limitRows_lt hrest hshort
      rw [if_pos hshort]
      exact ⟨_, rfl, fun _ _ => hnext.cleanedUp _⟩
    · rw [if_neg hshort]
      refine cleanupPages_ok hv₀ hsize hnext ?_
      have hpos := List.length_pos_iff.mpr hpage
      rw [List.length_append] at hfuel
      omega

end CleanedUp

/-! ## Runs without an empty path -/

section Runs

variable {T : Type}

/-- A canonical path is absolute, so it is not empty. -/
def Sources.Canonical (src : Sources T) : Prop :=
  ∀ path canonical, src.normalizePath path = .ok canonical → canonical ≠ []

/-- The sources a write takes its paths from. -/
def Event.Canonical : Event T → Prop
  | .write _ _ (.set src _ _) | .write _ _ (.batchSet src _) => src.Canonical
  | _ => True

/-- No record of an import has the empty path. -/
def Event.ImportsNonempty : Event T → Prop
  | .write _ _ (.importEntries _ records) => ∀ r ∈ records, r.path ≠ ""
  | .write _ _ (.importFrom (.ok rows)) => ∀ r ∈ rows, r.path ≠ ""
  | _ => True

theorem Sources.Canonical.occupy {src : Sources T} (h : src.Canonical) {path canonical : Path}
    {pathStr : String} {metadata : FileMetadata}
    (hocc : LocalCache.occupy src path = .ok (canonical, pathStr, metadata)) : pathStr ≠ "" := by
  unfold LocalCache.occupy at hocc
  simp only [bind, Except.bind, pure, Except.pure] at hocc
  cases hnorm : src.normalizePath path with
  | error err => simp [hnorm, Except.mapError] at hocc
  | ok p =>
    cases hstr : pathToStr p with
    | error err => simp [hnorm, hstr, Except.mapError] at hocc
    | ok s =>
      simp only [hnorm, hstr, Except.mapError] at hocc
      have hs : s = pathStr := by
        split at hocc
        · exact absurd hocc (by simp)
        · split at hocc
          · exact absurd hocc (by simp)
          · exact congrArg (fun q => q.2.1) (Except.ok.inj hocc)
      rintro rfl
      subst hs
      refine h path p hnorm ?_
      unfold pathToStr at hstr
      split at hstr
      · next s' hread =>
        obtain rfl := Except.ok.inj hstr
        rw [← strBytes_of_fromUtf8 hread]
        rfl
      · exact absurd hstr (by simp)

/-- Only an import can store the empty path. -/
theorem Event.paths_nonempty {ev : Event T} (hc : ev.Canonical) (hi : ev.ImportsNonempty) :
    ∀ path ∈ ev.paths, path ≠ "" := by
  cases ev with
  | write e w write =>
    cases write with
    | set src path payload =>
      simp only [Event.paths, Write.paths]
      split
      · next hocc =>
        intro path hpath
        rw [List.mem_singleton.mp hpath]
        exact Sources.Canonical.occupy hc hocc
      · simp
    | batchSet src items =>
      intro path hpath
      obtain ⟨item, hitem, rfl⟩ := List.mem_map.mp hpath
      obtain ⟨o, ho, heq⟩ := List.mem_map.mp (pathStr_of_mem_batchPrepared hitem)
      obtain ⟨r, hr, hright⟩ := List.mem_filterMap.mp ho
      obtain ⟨q, -, rfl⟩ := List.mem_map.mp hr
      unfold occupyItem at hright
      split at hright
      · exact absurd hright (by simp)
      · next hocc =>
        obtain rfl := Option.some.inj hright
        rw [← heq]
        exact Sources.Canonical.occupy hc hocc
    | importEntries src records =>
      intro path hpath
      obtain ⟨r, hr, rfl⟩ := List.mem_map.mp hpath
      exact hi r hr
    | importFrom source =>
      cases source with
      | error err => simp [Event.paths, Write.paths]
      | ok rows =>
        intro path hpath
        obtain ⟨r, hr, rfl⟩ := List.mem_map.mp hpath
        exact hi r hr
  | remove e w src path => simp [Event.paths]
  | get e w src path => simp [Event.paths]
  | getIfFresh e w src path => simp [Event.paths]
  | touch e w src path => simp [Event.paths]
  | load i w src => simp [Event.paths]
  | finish i w => simp [Event.paths]

/-- The paths stored are allowed, when those of the writes are. -/
theorem Changes.paths {allowed : String → Prop} {c c' : Logged} (h : Changes allowed c c')
    (hv : c.db.Valid) (hc : ∀ r ∈ c.db.files, allowed r.path) : ∀ r ∈ c'.db.files, allowed r.path := by
  refine h.invariant (P := fun c => ∀ r ∈ c.db.files, allowed r.path) ?_ hv hc
  rintro c c' hv hc (⟨hpath, hrow, -⟩ | ⟨hpath, hrow, -⟩ | ⟨-, -, hrec⟩ | ⟨hsub, -, -⟩ | ns)
  · intro r hr
    rcases (hrow.mem r).mp hr with rfl | ⟨hr, -⟩
    · rwa [hrow.hasKey.2]
    · exact hc r hr
  · intro r hr
    rcases (hrow.mem r).mp hr with rfl | ⟨hr, -⟩
    · rwa [hrow.hasKey.2]
    · exact hc r hr
  · obtain ⟨-, -, -, hfiles⟩ := Sql.recordUse_ok hv hrec
    intro r hr
    rw [hfiles] at hr
    obtain ⟨q, hq, rfl⟩ := List.mem_map.mp hr
    split_ifs <;> exact hc q hq
  · exact fun r hr => hc r (hsub r hr)
  · exact hc

/-- What paging by path promises of a database. In each loop the fuel is a page for each row and
one more, and is enough. -/
structure ReachesAll (db : Db) : Prop where
  pages : ∀ ns, PagesComplete ns db
  cleanupMissingFiles : ∀ (e : Engine) (ws : ℕ → World) (exists_ : String → Bool) (size fuel : ℕ),
    1 ≤ size → (db.inNamespace e.ns).length < fuel →
      ∃ o, LocalCache.cleanupMissingFiles e ws exists_ size fuel db = some o ∧
        ∀ k, o.result = .ok k → CleanedUp e.ns (fun r => !exists_ r.path) db o
  cleanupExpired : ∀ (e : Engine) (ws : ℕ → World) (now : FileRow → ℤ) (ttl size fuel : ℕ),
    e.ttl = some ttl → 1 ≤ size → (db.inNamespace e.ns).length < fuel →
      ∃ o, LocalCache.cleanupExpired e ws now size fuel db = some o ∧ ∀ k, o.result = .ok k →
        CleanedUp e.ns (fun r => isExpired (now r) r.updatedAt e.ttl) db o
  rotateEncryptionKey : ∀ (f : Features) (A : Aead),
    (∀ key nonce aad plain cipher, A.encrypt key nonce aad plain = some cipher →
      A.decrypt key nonce aad cipher = some plain) →
    ∀ (nonces : ℕ → Option Nonce) (e : Engine) (w : World) (maxRows maxBytes fuel : ℕ)
      (newKey : List UInt8), 1 ≤ maxRows → db.payloads.length < fuel →
      ∃ o, LocalCache.rotateEncryptionKey f A nonces e w maxRows maxBytes fuel newKey db = some o ∧
        ∀ n, o.result = .ok n → ∃ old new, e.encryptionKey = some old ∧
          Key.fromSlice newKey = some new ∧ Rotated f A e.ns old new n db o.db

/-- Whatever a cleanup deletes, it starts before the first row. -/
theorem CleanedUpTo.start {db : Db} (hv : db.Valid) (hpaths : ∀ r ∈ db.files, r.path ≠ "")
    (ns : String) (gone : FileRow → Bool) : CleanedUpTo ns gone db "" [] (rowsByPath ns db) db where
  valid := hv
  cut := Cut.start fun r hr => textKey_empty_lt (hpaths r (mem_rowsByPath.mp hr).1)
  mem r := by simp

theorem rotateEncryptionKey_of_noKeys (f : Features) (A : Aead) (nonces : ℕ → Option Nonce)
    (e : Engine) (w : World) (maxRows maxBytes fuel : ℕ) {newKey : List UInt8} (db : Db)
    (h : ¬∃ old new, e.encryptionKey = some old ∧ Key.fromSlice newKey = some new) :
    ∃ err, rotateEncryptionKey f A nonces e w maxRows maxBytes fuel newKey db =
      some ⟨.error err, db, e.encryptionKey, 0⟩ := by
  unfold rotateEncryptionKey
  by_cases hro : e.readOnly
  · rw [if_pos hro]
    exact ⟨_, rfl⟩
  rw [if_neg hro]
  cases hold : e.encryptionKey with
  | none => exact ⟨_, rfl⟩
  | some old =>
    cases hnew : Key.fromSlice newKey with
    | none => exact ⟨_, rfl⟩
    | some new => exact absurd ⟨old, new, hold, hnew⟩ h

theorem reachesAll_of_paths {db : Db} (hv : db.Valid) (hpaths : ∀ r ∈ db.files, r.path ≠ "") :
    ReachesAll db where
  pages ns := (pagesComplete_iff hv).mpr fun r hr _ => hpaths r hr
  cleanupMissingFiles e ws exists_ size fuel hsize hfuel := by
    unfold LocalCache.cleanupMissingFiles
    by_cases hro : e.readOnly
    · rw [if_pos hro]
      exact ⟨_, rfl, fun k hk => absurd hk (by simp)⟩
    · rw [if_neg hro]
      exact cleanupPages_ok hv hsize (.start hv hpaths e.ns _) (length_rowsByPath.trans_lt hfuel)
  cleanupExpired e ws now ttl size fuel httl hsize hfuel := by
    unfold LocalCache.cleanupExpired
    by_cases hro : e.readOnly
    · rw [if_pos hro]
      exact ⟨_, rfl, fun k hk => absurd hk (by simp)⟩
    · rw [if_neg hro, httl]
      exact cleanupPages_ok hv hsize (.start hv hpaths e.ns _) (length_rowsByPath.trans_lt hfuel)
  rotateEncryptionKey f A hA nonces e w maxRows maxBytes fuel newKey hrows hfuel := by
    by_cases hkeys : ∃ old new, e.encryptionKey = some old ∧ Key.fromSlice newKey = some new
    · obtain ⟨old, new, hold, hnew⟩ := hkeys
      obtain ⟨o, ho, hwhole⟩ := rotateEncryptionKey_rotatesWhole (f := f) hv hpaths hA hold hnew
        hrows maxBytes nonces w hfuel
      exact ⟨o, ho, fun n hn => ⟨old, new, hold, hnew, (hwhole.ok n hn).1⟩⟩
    · obtain ⟨err, herr⟩ := rotateEncryptionKey_of_noKeys f A nonces e w maxRows maxBytes fuel db hkeys
      exact ⟨_, herr, fun n hn => absurd hn (by simp)⟩

/-- Paging reaches all in every state a run reaches, if its imports have no record with the
empty path. -/
theorem pagesReachAll_of_run {db₀ : Db} (hv : db₀.Valid) (hpaths : ∀ r ∈ db₀.files, r.path ≠ "")
    (events : List (Event T)) (hcanonical : ∀ ev ∈ events, ev.Canonical)
    (himports : ∀ ev ∈ events, ev.ImportsNonempty) :
    ReachesAll ((System.init db₀).run events).db := by
  have hpathsOf : ∀ ev ∈ events, ∀ path ∈ ev.paths, path ≠ "" := fun ev hev =>
    Event.paths_nonempty (hcanonical ev hev) (himports ev hev)
  obtain ⟨hchanges, -⟩ := System.changes_run hv events (System.held_init db₀) .refl hpathsOf
  exact reachesAll_of_paths (hchanges.keeps hv).2 (hchanges.paths hv hpaths)

end Runs

section Samples

/-- Every nonempty path is a file's, and canonical. -/
def Sources.rooted : Sources Unit :=
  { Sources.quiet with
    normalizePath := fun path => if path.isEmpty then .error (.fileNotFound path) else .ok path }

theorem Sources.canonical_rooted : Sources.rooted.Canonical := by
  rintro path canonical h rfl
  simp only [Sources.rooted] at h
  split_ifs at h with hnil
  exact hnil (by rw [Except.ok.inj h]; rfl)

def plainRecord (path : String) : ExportRecord := ⟨path, "", "bin", ⟨0, 0, none⟩, 0, 0, 0⟩

/-- A write and an import. -/
def rootedEvents : List (Event Unit) :=
  [.write (.plain "n" none) .quiet (.set .rooted [98] ()),
    .write (.plain "n" none) .quiet (.importEntries .rooted [plainRecord "a"])]

/-- Pages of one row list both. -/
theorem pagesReachAll_of_run_sample :
    let db := ((System.init Db.empty).run rootedEvents).db
    (pathPages "n" 1 2 db).map (fun page => page.map FileRow.path) = [["a"], ["b"]] ∧
      ReachesAll db := by
  refine ⟨by decide, pagesReachAll_of_run Db.valid_empty (by decide) rootedEvents ?_ ?_⟩
  · simp [rootedEvents, Event.Canonical, Sources.canonical_rooted]
  · simp [rootedEvents, Event.ImportsNonempty, plainRecord]

/-- A record with the empty path is imported, and no page lists its row : a cleanup does not
examine it, and a rotation that succeeds leaves its payload unsealed. -/
theorem emptyPath_unlisted :
    let db := ((System.init Db.empty : System Unit).run
      [.write (.plain "n" none) .quiet (.importEntries .rooted [plainRecord ""])]).db
    db.inNamespace "n" = [⟨1, "n", "", ⟨0, 0, none⟩, 0, 0, 0⟩] ∧
      pathPages "n" 1 1 db = [] ∧ ¬PagesComplete "n" db ∧
      (cleanupMissingFiles (.plain "n" none) (fun _ => .quiet) (fun _ => false) 1 2 db).map
        (fun o => (o.result, o.db, o.examined)) = some (.ok 0, db, []) ∧
      (rotateEncryptionKey ⟨true, true⟩ plainAead (fun _ => zeroNonce) keyedEngine .quiet 1 1 2
        newKey.bytes db).map (fun o => (o.result, o.db.payloads)) = some (.ok 0, [⟨1, [], "bin"⟩]) := by
  refine ⟨by decide, by decide, fun h => ?_, by decide, by rfl⟩
  exact absurd (h 1 1 le_rfl (by decide)).length_eq (by decide)

end Samples

end LocalCache
