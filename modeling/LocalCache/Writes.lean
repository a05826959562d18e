import LocalCache.System

/-!
# What a write does

`Upserts` is what the loop of a write does and `Evicted` what its eviction does.
`Write.run_cases` puts them together for every write of the API : it did its upserts and the
eviction they trigger, or nothing.
-/

namespace LocalCache

/-! ## The loop of a write -/

/-- Upserts of `paths`, in order, under `ids`. `P` holds of each row written and the
database it was written to. -/
inductive Upserts (ns : String) (P : Db → FileRow → Prop) :
    List String → List ℕ → Db → Db → Prop
  | nil (db : Db) : Upserts ns P [] [] db db
  | snoc {paths : List String} {ids : List ℕ} {db₀ db₁ db₂ : Db} {path : String} {row : FileRow}
      (init : Upserts ns P paths ids db₀ db₁) (last : Upserted ns path row db₁ db₂)
      (holds : P db₁ row) : Upserts ns P (paths ++ [path]) (ids ++ [row.id]) db₀ db₂

/-- The row takes the use value of a write. -/
def Newest (ns : String) (db : Db) (row : FileRow) : Prop :=
  row.lastUsedUs < useValueLimit ∧ ∃ now, row.lastUsedUs = Sql.nextUse now db ns

/-- The row takes a use value an import may bring. -/
def Imported (_ : Db) (row : FileRow) : Prop :=
  0 ≤ row.lastUsedUs ∧ row.lastUsedUs < useValueLimit

namespace Upserts

variable {ns : String} {P : Db → FileRow → Prop} {paths : List String} {ids : List ℕ} {db db' : Db}

theorem valid (h : Upserts ns P paths ids db db') (hv : db.Valid) : db'.Valid := by
  cases h with
  | nil => exact hv
  | snoc _ last => exact last.valid

/-- Rows under other keys are untouched. -/
theorem mem_of_notMem (h : Upserts ns P paths ids db db') {r : FileRow}
    (hr : ¬(r.ns = ns ∧ r.path ∈ paths)) : r ∈ db'.files ↔ r ∈ db.files := by
  induction h with
  | nil => rfl
  | @snoc paths ids db₀ db₁ db₂ path row _ last _ ih =>
    rw [List.mem_append, List.mem_singleton] at hr
    rw [last.mem r, ← ih fun hr' => hr ⟨hr'.1, Or.inl hr'.2⟩]
    constructor
    · rintro (rfl | ⟨hmem, -⟩)
      · exact absurd ⟨last.hasKey.1, Or.inr last.hasKey.2⟩ hr
      · exact hmem
    · exact fun hmem => Or.inr ⟨hmem, fun hk => hr ⟨hk.1, Or.inr hk.2⟩⟩

/-- Every path has its row, under one of the ids. -/
theorem exists_row (h : Upserts ns P paths ids db db') {path : String} (hp : path ∈ paths) :
    ∃ r ∈ db'.files, Db.HasKey ns path r ∧ r.id ∈ ids := by
  induction h with
  | nil => exact absurd hp List.not_mem_nil
  | @snoc paths ids db₀ db₁ db₂ last row _ hlast _ ih =>
    by_cases heq : path = last
    · subst heq
      exact ⟨row, (hlast.mem row).mpr (Or.inl rfl), hlast.hasKey, by simp⟩
    · obtain ⟨r, hr, hk, hid⟩ := ih ((List.mem_append.mp hp).resolve_right (by simpa using heq))
      refine ⟨r, (hlast.mem r).mpr (Or.inr ⟨hr, fun hk' => heq ?_⟩), hk,
        List.mem_append_left _ hid⟩
      rw [← hk.2, hk'.2]

/-- Every id is that of a row under one of the paths : a later upsert of a path keeps its
id. -/
theorem exists_path (h : Upserts ns P paths ids db db') (hv : db.Valid) {id : ℕ} (hid : id ∈ ids) :
    ∃ r ∈ db'.files, r.ns = ns ∧ r.path ∈ paths ∧ r.id = id := by
  induction h with
  | nil => exact absurd hid List.not_mem_nil
  | @snoc paths ids db₀ db₁ db₂ path row init last _ ih =>
    have hrow : row ∈ db₂.files := (last.mem row).mpr (Or.inl rfl)
    rcases List.mem_append.mp hid with hid | hid
    · obtain ⟨r, hr, hns, hpath, hrid⟩ := ih hv hid
      by_cases hk : Db.HasKey ns path r
      · refine ⟨row, hrow, last.hasKey.1, by simp [last.hasKey.2], ?_⟩
        rcases last.id with ⟨old, hold, hkold, holdid⟩ | ⟨-, hno⟩
        · rw [← holdid, (init.valid hv).eq_of_hasKey hold hr hkold hk, hrid]
        · exact absurd hk (hno r hr)
      · exact ⟨r, (last.mem r).mpr (Or.inr ⟨hr, hk⟩), hns, List.mem_append_left _ hpath, hrid⟩
    · exact ⟨row, hrow, last.hasKey.1, by simp [last.hasKey.2], (List.mem_singleton.mp hid).symm⟩

/-- The ids are those of the rows under the paths. -/
theorem mem_ids_iff (h : Upserts ns P paths ids db db') (hv : db.Valid) {r : FileRow}
    (hr : r ∈ db'.files) : r.id ∈ ids ↔ r.ns = ns ∧ r.path ∈ paths := by
  constructor
  · intro hid
    obtain ⟨q, hq, hns, hpath, hqid⟩ := h.exists_path hv hid
    rw [(h.valid hv).eq_of_id hr hq hqid.symm]
    exact ⟨hns, hpath⟩
  · rintro ⟨hns, hpath⟩
    obtain ⟨q, hq, hk, hqid⟩ := h.exists_row hpath
    rwa [(h.valid hv).eq_of_hasKey hr hq ⟨hns, rfl⟩ hk]

end Upserts

section Loops

variable {T : Type} {e : Engine} {w : World} {t t' : Tx} {ids : List ℕ}

theorem upsertAll_ok {items : List Prepared} (hv : t.db.Valid)
    (h : StateExcept.forEach (upsertPrepared e w) items t = .ok (ids, t')) :
    Upserts e.ns (Newest e.ns) (items.map Prepared.path) ids t.db t'.db := by
  refine StateExcept.forEach_ok (fun done ids s => Upserts e.ns (Newest e.ns)
    (done.map Prepared.path) ids t.db s.db) ?_ items [] [] ids t t' (Upserts.nil t.db) h
  intro done ids item id s s' hs hstep
  obtain ⟨row, hu, rfl, hlt, hvalue, -⟩ := upsertInTx_ok (hs.valid hv) hstep
  rw [List.map_append, List.map_singleton]
  exact hs.snoc hu ⟨hlt, _, hvalue⟩

theorem importRowsInTx_ok {ns : String} {rows : List FullRow} (hv : t.db.Valid)
    (h : importRowsInTx w ns rows t = .ok (ids, t')) :
    Upserts ns Imported (rows.map FullRow.path) ids t.db t'.db := by
  refine StateExcept.forEach_ok (fun done ids s => Upserts ns Imported (done.map FullRow.path)
    ids t.db s.db) ?_ rows [] [] ids t t' (Upserts.nil t.db) h
  intro done ids row id s s' hs hstep
  obtain ⟨r, hu, rfl, hvalue⟩ := importRowInTx_ok (hs.valid hv) hstep
  rw [List.map_append, List.map_singleton]
  exact hs.snoc hu (useValueOfRecord_range hvalue)

end Loops

/-! ## A write and its eviction -/

/-- How far a namespace is over the bound of an engine. -/
def excess (e : Engine) (db : Db) : ℕ :=
  match e.maxEntries with
  | none => 0
  | some maxEntries => (db.inNamespace e.ns).length - maxEntries

/-- A write that succeeded : the database `written` after its loop, and its victims. -/
structure Wrote (e : Engine) (P : Db → FileRow → Prop) (paths : List String) (db written : Db)
    (victims : List FileRow) {α : Type} (o : Outcome α) : Prop where
  upserts : Upserts e.ns P paths o.used db written
  evicted : Evicted e.ns (excess e written) o.used victims written o.db
  callback : o.evicted = victims.map FileRow.path

section Calls

variable {T : Type} {e : Engine} {w : World} {db : Db}

theorem evicted_nil {ns : String} {protectedIds : List ℕ} (hv : db.Valid) :
    Evicted ns 0 protectedIds [] db db where
  least := ⟨List.Pairwise.nil, by simp, by simp, by simp⟩
  mem := by simp
  seq := rfl
  valid := hv

theorem enforceMaxEntries_ok {ids : List ℕ} {evicted : List String} {t t' : Tx} (hv : t.db.Valid)
    (h : enforceMaxEntries e w ids t = .ok (evicted, t')) :
    ∃ victims, Evicted e.ns (excess e t.db) ids victims t.db t'.db ∧
      evicted = victims.map FileRow.path := by
  unfold enforceMaxEntries at h
  unfold excess
  cases hmax : e.maxEntries with
  | none =>
    rw [hmax] at h
    obtain ⟨rfl, rfl⟩ := StateExcept.pure_eq_ok h
    exact ⟨[], evicted_nil hv, rfl⟩
  | some maxEntries =>
    rw [hmax] at h
    obtain ⟨count, t₁, hcount, h⟩ := StateExcept.bind_eq_ok h
    obtain ⟨rfl, hdb, -⟩ := select_ok hcount
    simp only at h ⊢
    split_ifs at h with hle
    · obtain ⟨rfl, rfl⟩ := StateExcept.pure_eq_ok h
      rw [Nat.sub_eq_zero_of_le hle, hdb]
      exact ⟨[], evicted_nil hv, rfl⟩
    · obtain ⟨victims, hevicted, rfl⟩ := evictLru_ok (hdb.symm ▸ hv) h
      rw [hdb] at hevicted
      exact ⟨victims, hevicted, rfl⟩

/-- A bounded write ran its write and the eviction it triggers, or changed nothing. -/
theorem boundedWrite_inv {α : Type} (write : TxM (α × List ℕ)) (db : Db) :
    (∃ a ids t₀ t evicted t', t₀.db = db ∧ write t₀ = .ok ((a, ids), t) ∧
        enforceMaxEntries e w ids t = .ok (evicted, t') ∧
          boundedWrite e w write db = ⟨.ok a, t'.db, evicted, ids⟩) ∨
      ∃ err, boundedWrite e w write db = .ofError err db := by
  unfold boundedWrite
  simp only
  rcases transaction_cases (w := w) (do
    let written ← write
    let evicted ← enforceMaxEntries e w written.2
    pure (written, evicted)) db with ⟨⟨⟨a, ids⟩, evicted⟩, t₀, t, hrun, h₀, -, hbody⟩ | ⟨err, hrun⟩
  · rw [hrun]
    obtain ⟨q, t₁, hwrite, h⟩ := StateExcept.bind_eq_ok hbody
    obtain ⟨evicted, hevict, heq⟩ := StateExcept.map_eq_ok h
    obtain ⟨rfl, rfl⟩ := Prod.mk.inj heq
    exact Or.inl ⟨a, ids, t₀, t₁, evicted, t, h₀, hwrite, hevict, rfl⟩
  · rw [hrun]
    exact Or.inr ⟨err, rfl⟩

/-- A bounded write did its upserts and its eviction, or nothing. -/
theorem boundedWrite_cases {α : Type} (P : Db → FileRow → Prop) (paths : List String)
    (write : TxM (α × List ℕ)) (hv : db.Valid)
    (hw : ∀ t₀ t a ids, t₀.db = db → write t₀ = .ok ((a, ids), t) →
      Upserts e.ns P paths ids db t.db) :
    (∃ a written victims, (boundedWrite e w write db).result = .ok a ∧
        Wrote e P paths db written victims (boundedWrite e w write db)) ∨
      ∃ err, boundedWrite e w write db = .ofError err db := by
  rcases boundedWrite_inv (e := e) (w := w) write db with
    ⟨a, ids, t₀, t, evicted, t', h₀, hwrite, hevict, heq⟩ | herr
  · have hu := hw t₀ t a ids h₀ hwrite
    obtain ⟨victims, hv', rfl⟩ := enforceMaxEntries_ok (hu.valid hv) hevict
    rw [heq]
    exact Or.inl ⟨a, t.db, victims, rfl, hu, hv', rfl⟩
  · exact Or.inr herr

theorem Wrote.map {P : Db → FileRow → Prop} {paths : List String} {written : Db}
    {victims : List FileRow} {α β : Type} {o : Outcome α} (h : Wrote e P paths db written victims o)
    (f : α → β) : Wrote e P paths db written victims (o.map f) :=
  ⟨h.upserts, h.evicted, h.callback⟩

@[simp] theorem Outcome.map_ofError {α β : Type} (f : α → β) (err : Error) (db : Db) :
    (Outcome.ofError err db).map f = .ofError err db := rfl

/-! ## The writes of the API -/

namespace Write

/-- The paths a write stores if it succeeds. -/
def paths : Write T → List String
  | .set src path _ =>
    match occupy src path with
    | .ok (_, pathStr, _) => [pathStr]
    | .error _ => []
  | .batchSet src items => (batchPrepared src items).map Prepared.path
  | .importEntries _ records => records.map ExportRecord.path
  | .importFrom (.ok rows) => rows.map FullRow.path
  | .importFrom (.error _) => []

/-- The paths whose number a write checks against the bound : a batch counts also the items
that fail to encode. -/
def occupies : Write T → List String
  | .batchSet src items => (batchOccupying src items).map Occupying.pathStr
  | write => write.paths

/-- What holds of a row it stores and the database it is stored to. -/
def Stores (e : Engine) (write : Write T) : Db → FileRow → Prop :=
  if write.isImport then Imported else Newest e.ns

/-- What a write did : its upserts and its eviction, nothing for an empty import, or nothing
with an error. -/
inductive Did (e : Engine) (write : Write T) (db : Db) (o : Outcome Unit) : Prop
  | wrote (written : Db) (victims : List FileRow) (ok : o.result = .ok ())
      (wrote : Wrote e (write.Stores e) write.paths db written victims o)
      (distinct : ∀ m, e.maxEntries = some m → 1 ≤ m → distinctCount write.occupies ≤ m)
  | empty (isImport : write.isImport = true) (paths : write.paths = [])
      (eq : o = ⟨.ok (), db, [], []⟩)
  | failed (err : Error) (eq : o = .ofError err db)

end Write

theorem distinctCount_le_of_subset {paths paths' : List String} (h : paths ⊆ paths') :
    distinctCount paths ≤ distinctCount paths' :=
  (List.subperm_of_subset (List.nodup_dedup paths) fun _ hpath =>
    List.mem_dedup.mpr (h (List.mem_dedup.mp hpath))).length_le

theorem checkDistinct_ok {argument noun : String} {paths : List String}
    (h : checkDistinct e argument noun paths = .ok ()) {m : ℕ} (hm : e.maxEntries = some m) :
    distinctCount paths ≤ m := by
  unfold checkDistinct at h
  rw [hm] at h
  simp only at h
  split_ifs at h with hle
  exact not_lt.mp hle

theorem pathStr_of_mem_batchPrepared {src : Sources T} {items : List (Path × T)} {item : Prepared}
    (h : item ∈ batchPrepared src items) :
    item.path ∈ (batchOccupying src items).map Occupying.pathStr := by
  unfold batchPrepared at h
  obtain ⟨r, hr, hitem⟩ := List.mem_filterMap.mp h
  obtain ⟨o, ho, rfl⟩ := List.mem_map.mp hr
  unfold encodeItem at hitem
  split at hitem
  · exact absurd hitem (by simp)
  · obtain rfl := Option.some.inj hitem
    exact List.mem_map_of_mem ho

theorem path_of_mapM_toFullRow {src : Sources T} : ∀ {records : List ExportRecord}
    {rows : List FullRow}, records.mapM (ExportRecord.toFullRow src) = .ok rows →
      rows.map FullRow.path = records.map ExportRecord.path
  | [], rows, h => by
    obtain rfl : [] = rows := by simpa [pure, Except.pure] using h
    rfl
  | r :: records, rows, h => by
    rw [List.mapM_cons] at h
    cases hr : ExportRecord.toFullRow src r with
    | error err => simp [hr, bind, Except.bind] at h
    | ok row =>
      cases hrs : records.mapM (ExportRecord.toFullRow src) with
      | error err => simp [hr, hrs, bind, Except.bind] at h
      | ok rest =>
        obtain rfl : row :: rest = rows := by
          simpa [hr, hrs, bind, Except.bind, pure, Except.pure] using h
        have hpath : row.path = r.path := by
          unfold ExportRecord.toFullRow at hr
          split at hr
          · obtain rfl := Except.ok.inj hr
            rfl
          · exact absurd hr (by simp)
        rw [List.map_cons, List.map_cons, hpath, path_of_mapM_toFullRow hrs]

namespace Write

theorem paths_subset_occupies (write : Write T) : write.paths ⊆ write.occupies := by
  cases write with
  | batchSet src items =>
    intro path hpath
    obtain ⟨item, hitem, rfl⟩ := List.mem_map.mp hpath
    exact pathStr_of_mem_batchPrepared hitem
  | set src path payload => exact List.Subset.refl _
  | importEntries src records => exact List.Subset.refl _
  | importFrom source => exact List.Subset.refl _

theorem occupies_of_isImport {write : Write T} (h : write.isImport = true) :
    write.occupies = write.paths := by
  cases write with
  | set src path payload => exact absurd h (by simp [isImport])
  | batchSet src items => exact absurd h (by simp [isImport])
  | importEntries src records => rfl
  | importFrom source => rfl

theorem did_set (src : Sources T) (path : Path) (payload : T) (hv : db.Valid) :
    (Write.set src path payload).Did e db ((Write.set src path payload).run e w db) := by
  show Did e _ db (LocalCache.set e src w path payload db)
  unfold LocalCache.set
  by_cases hro : e.readOnly
  · rw [if_pos hro]
    exact .failed _ rfl
  rw [if_neg hro]
  cases hocc : occupy src path with
  | error err => exact .failed _ rfl
  | ok p =>
    obtain ⟨canonical, pathStr, metadata⟩ := p
    have hpaths : (Write.set src path payload).paths = [pathStr] := by rw [paths, hocc]
    simp only
    cases src.encode pathStr payload with
    | error err => exact .failed _ rfl
    | ok encoded =>
      have hcases := boundedWrite_cases (e := e) (w := w) (Newest e.ns) [pathStr] (do
          let id ← upsertPrepared e w ⟨pathStr, metadata, encoded⟩
          pure ((), [id])) hv (by
        rintro t₀ t a ids rfl h
        obtain ⟨id, hup, heq⟩ := StateExcept.map_eq_ok h
        obtain ⟨-, rfl⟩ := Prod.mk.inj heq
        obtain ⟨row, hu, rfl, hlt, hvalue, -⟩ := upsertInTx_ok hv hup
        exact (Upserts.nil t₀.db).snoc hu ⟨hlt, _, hvalue⟩)
      rcases hcases with ⟨_, written, victims, hok, hwrote⟩ | ⟨err, ho⟩
      · refine .wrote written victims hok (hpaths ▸ hwrote) fun m _ hm => ?_
        show distinctCount (Write.set src path payload).paths ≤ m
        rw [hpaths]
        exact hm
      · exact .failed err ho

theorem did_batchSet (src : Sources T) (items : List (Path × T)) (hv : db.Valid) :
    (Write.batchSet src items).Did e db ((Write.batchSet src items).run e w db) := by
  show Did e _ db ((LocalCache.batchSet e src w items db).map fun _ => ())
  unfold LocalCache.batchSet
  by_cases hro : e.readOnly
  · rw [if_pos hro]
    exact .failed _ rfl
  rw [if_neg hro]
  cases hcheck : checkDistinct e "items" "paths"
      ((batchOccupying src items).map Occupying.pathStr) with
  | error err => exact .failed _ rfl
  | ok _ =>
    simp only
    have hcases := boundedWrite_cases (e := e) (w := w) (Newest e.ns)
      ((batchPrepared src items).map Prepared.path) (do
        let ids ← StateExcept.forEach (upsertPrepared e w) (batchPrepared src items)
        pure ((⟨ids.length, (batchFailed src items).map fun item => (item.path, item.error)⟩ :
          BatchSetReport), ids)) hv (by
      rintro t₀ t a ids rfl h
      obtain ⟨ids', hall, heq⟩ := StateExcept.map_eq_ok h
      obtain ⟨-, rfl⟩ := Prod.mk.inj heq
      exact upsertAll_ok hv hall)
    rcases hcases with ⟨a, written, victims, hok, hwrote⟩ | ⟨err, ho⟩
    · exact .wrote written victims (by rw [Outcome.map, hok]; rfl) (hwrote.map _)
        fun m hm _ => checkDistinct_ok hcheck hm
    · exact .failed err (by rw [ho]; rfl)

/-- The one import path, for an import of these rows. -/
theorem did_importBounded {write : Write T} (hi : write.isImport = true) {rows : List FullRow}
    (hpaths : write.paths = rows.map FullRow.path) (hv : db.Valid) :
    write.Did e db ((importBounded e w rows db).map fun _ => ()) := by
  have hstores : write.Stores e = Imported := if_pos hi
  unfold importBounded
  by_cases hnil : rows.isEmpty
  · rw [if_pos hnil]
    exact .empty hi (by rw [hpaths, List.isEmpty_iff.mp hnil, List.map_nil]) rfl
  rw [if_neg hnil]
  cases hcheck : (do
      checkBound e rows
      checkRecency rows
      checkDistinct e "records" "entries" (rows.map FullRow.path) : Except Error Unit) with
  | error err => exact .failed _ rfl
  | ok _ =>
    have hdistinct : checkDistinct e "records" "entries" (rows.map FullRow.path) = .ok () := by
      simp only [bind, Except.bind] at hcheck
      split at hcheck
      · exact absurd hcheck (by simp)
      · split at hcheck
        · exact absurd hcheck (by simp)
        · exact hcheck
    simp only
    have hcases := boundedWrite_cases (e := e) (w := w) Imported (rows.map FullRow.path) (do
        let ids ← importRowsInTx w e.ns rows
        pure (rows.length, ids)) hv (by
      rintro t₀ t a ids rfl h
      obtain ⟨ids', hall, heq⟩ := StateExcept.map_eq_ok h
      obtain ⟨-, rfl⟩ := Prod.mk.inj heq
      exact importRowsInTx_ok hv hall)
    rcases hcases with ⟨a, written, victims, hok, hwrote⟩ | ⟨err, ho⟩
    · rw [← hpaths, ← hstores] at hwrote
      refine .wrote written victims (by rw [Outcome.map, hok]; rfl) (hwrote.map _) fun m hm _ => ?_
      rw [occupies_of_isImport hi, hpaths]
      exact checkDistinct_ok hdistinct hm
    · exact .failed err (by rw [ho]; rfl)

theorem run_cases (write : Write T) (hv : db.Valid) : write.Did e db (write.run e w db) := by
  cases write with
  | set src path payload => exact did_set src path payload hv
  | batchSet src items => exact did_batchSet src items hv
  | importEntries src records =>
    show Did e _ db ((LocalCache.importEntries e src w records db).map fun _ => ())
    unfold LocalCache.importEntries
    by_cases hro : e.readOnly
    · rw [if_pos hro]
      exact .failed _ rfl
    rw [if_neg hro]
    cases hrows : records.mapM (ExportRecord.toFullRow src) with
    | error err => exact .failed _ rfl
    | ok rows => exact did_importBounded rfl (path_of_mapM_toFullRow hrows).symm hv
  | importFrom source =>
    show Did e _ db ((LocalCache.importFrom e w source db).map fun _ => ())
    unfold LocalCache.importFrom
    by_cases hro : e.readOnly
    · rw [if_pos hro]
      exact .failed _ rfl
    rw [if_neg hro]
    cases source with
    | error err => exact .failed _ rfl
    | ok rows => exact did_importBounded rfl rfl hv

end Write

end Calls

end LocalCache
