import LocalCache.Sessions
import LocalCache.Working

/-!
# What one part of a call does to the tables

Whatever a part of a call does, it has an `Effect` on the tables : the rows after it are rows it
stored, under the paths and ids of its write, and rows from before it, with perhaps another use
value. A rotation changes payloads alone (`Rekeyed`). An invariant of the sessions needs only
these two, not the calls (`Sessions.did_step`).
-/

namespace LocalCache

/-- The use value is one the column takes. -/
def FileRow.InRange (r : FileRow) : Prop := 0 ≤ r.lastUsedUs ∧ r.lastUsedUs < useValueLimit

/-- The same entry, with perhaps another use value. -/
def FileRow.SameEntry (r r' : FileRow) : Prop := r' = { r with lastUsedUs := r'.lastUsedUs }

/-- The effect of a part that stored rows of `ns` under `paths` and `ids`. -/
structure Effect (ns : String) (paths : List String) (ids : List ℕ) (db db' : Db) : Prop where
  valid : db'.Valid
  seq : db.seq ≤ db'.seq
  old : ∀ r' ∈ db'.files, r'.id ≤ db.seq → ∃ r ∈ db.files, r.id = r'.id ∧ r.ns = r'.ns ∧ r.path = r'.path
  stored : ∀ r' ∈ db'.files, r'.id ∈ ids → r'.ns = ns ∧ r'.path ∈ paths
  row : ∀ r' ∈ db'.files, r'.id ∉ ids → ∃ r ∈ db.files, r.SameEntry r'
  range : ∀ r' ∈ db'.files, r'.InRange ∨ r' ∈ db.files
  payload : ∀ r' ∈ db'.files, r'.id ∉ ids → db'.payload? r'.id = db.payload? r'.id
  whole : db.Whole → db'.Whole

/-- The effect of a rotation : other payloads under the same ids. -/
structure Rekeyed (db db' : Db) : Prop where
  files : db'.files = db.files
  seq : db'.seq = db.seq
  payloadIds : db'.payloads.map PayloadRow.fileId = db.payloads.map PayloadRow.fileId

theorem FileRow.SameEntry.refl (r : FileRow) : r.SameEntry r := rfl

theorem FileRow.SameEntry.id {r r' : FileRow} (h : r.SameEntry r') : r'.id = r.id := by rw [h]

theorem FileRow.SameEntry.ns {r r' : FileRow} (h : r.SameEntry r') : r'.ns = r.ns := by rw [h]

theorem FileRow.SameEntry.path {r r' : FileRow} (h : r.SameEntry r') : r'.path = r.path := by rw [h]

theorem FileRow.SameEntry.updatedAt {r r' : FileRow} (h : r.SameEntry r') :
    r'.updatedAt = r.updatedAt := by rw [h]

theorem FileRow.SameEntry.trans {r r' r'' : FileRow} (h : r.SameEntry r') (h' : r'.SameEntry r'') :
    r.SameEntry r'' := by
  unfold FileRow.SameEntry at h h' ⊢
  rw [h'.trans (by rw [h])]

namespace Effect

variable {ns : String} {paths paths' : List String} {ids ids' : List ℕ} {db db' db'' : Db}

theorem refl (ns : String) (hv : db.Valid) : Effect ns [] [] db db where
  valid := hv
  seq := le_rfl
  old r hr _ := ⟨r, hr, rfl, rfl, rfl⟩
  stored _ _ hid := absurd hid List.not_mem_nil
  row r hr _ := ⟨r, hr, FileRow.SameEntry.refl r⟩
  range _ hr := Or.inr hr
  payload _ _ _ := rfl
  whole h := h

theorem mono (h : Effect ns paths ids db db') (hp : paths ⊆ paths') : Effect ns paths' ids db db' :=
  { h with stored := fun r' hr' hid => (h.stored r' hr' hid).imp_right fun hpath => hp hpath }

theorem trans (h : Effect ns paths ids db db') (h' : Effect ns paths' ids' db' db'') :
    Effect ns (paths ++ paths') (ids ++ ids') db db'' where
  valid := h'.valid
  seq := h.seq.trans h'.seq
  old r'' hr'' hid := by
    obtain ⟨r', hr', hid', hns', hpath'⟩ := h'.old r'' hr'' (hid.trans h.seq)
    obtain ⟨r, hr, hid₀, hns₀, hpath₀⟩ := h.old r' hr' (hid'.trans_le hid)
    exact ⟨r, hr, hid₀.trans hid', hns₀.trans hns', hpath₀.trans hpath'⟩
  stored r'' hr'' hid := by
    by_cases hid' : r''.id ∈ ids'
    · exact (h'.stored r'' hr'' hid').imp_right fun hpath => List.mem_append_right _ hpath
    · obtain ⟨r', hr', hsame⟩ := h'.row r'' hr'' hid'
      rw [hsame.id] at hid hid'
      rw [hsame.ns, hsame.path]
      exact (h.stored r' hr' ((List.mem_append.mp hid).resolve_right hid')).imp_right
        fun hpath => List.mem_append_left _ hpath
  row r'' hr'' hid := by
    rw [List.mem_append, not_or] at hid
    obtain ⟨r', hr', hsame'⟩ := h'.row r'' hr'' hid.2
    obtain ⟨r, hr, hsame⟩ := h.row r' hr' (by rw [← hsame'.id]; exact hid.1)
    exact ⟨r, hr, hsame.trans hsame'⟩
  range r'' hr'' := (h'.range r'' hr'').elim Or.inl (h.range r'')
  payload r'' hr'' hid := by
    rw [List.mem_append, not_or] at hid
    obtain ⟨r', hr', hsame⟩ := h'.row r'' hr'' hid.2
    rw [h'.payload r'' hr'' hid.2, hsame.id]
    exact h.payload r' hr' (by rw [← hsame.id]; exact hid.1)
  whole hw := h'.whole (h.whole hw)

/-- The effect of deletions. -/
theorem of_shrunk (ns : String) (h : Shrunk db db') (hv : db'.Valid) (hseq : db'.seq = db.seq) :
    Effect ns [] [] db db' where
  valid := hv
  seq := hseq.ge
  old r hr _ := ⟨r, h.files r hr, rfl, rfl, rfl⟩
  stored _ _ hid := absurd hid List.not_mem_nil
  row r hr _ := ⟨r, h.files r hr, FileRow.SameEntry.refl r⟩
  range r hr := Or.inr (h.files r hr)
  payload r hr _ := h.payload r hr
  whole hw := h.whole hv hw

/-- The effect of an upsert with its payload. -/
theorem of_stored {path : String} {row : FileRow} {content : List UInt8} {encoding : String}
    (h : Stored ns path row content encoding db db') (hrange : row.InRange) :
    Effect ns [path] [row.id] db db' where
  valid := h.upserted.valid
  seq := h.upserted.seq
  old r' hr' hid := by
    rcases (h.upserted.mem r').mp hr' with rfl | ⟨hr, -⟩
    · rcases h.upserted.id with ⟨old, hold, hk, holdid⟩ | ⟨hlt, -⟩
      · exact ⟨old, hold, holdid, hk.1.trans h.upserted.hasKey.1.symm,
          hk.2.trans h.upserted.hasKey.2.symm⟩
      · exact absurd hid (not_le.mpr hlt)
    · exact ⟨r', hr, rfl, rfl, rfl⟩
  stored r' hr' hid := by
    have hrow : row ∈ db'.files := (h.upserted.mem row).mpr (Or.inl rfl)
    rw [h.upserted.valid.eq_of_id hr' hrow (by simpa using hid)]
    exact ⟨h.upserted.hasKey.1, by simp [h.upserted.hasKey.2]⟩
  row r' hr' hid := by
    rcases (h.upserted.mem r').mp hr' with rfl | ⟨hr, -⟩
    · exact absurd List.mem_cons_self hid
    · exact ⟨r', hr, FileRow.SameEntry.refl r'⟩
  range r' hr' := by
    rcases (h.upserted.mem r').mp hr' with rfl | ⟨hr, -⟩
    · exact Or.inl hrange
    · exact Or.inr hr
  payload r' _ hid := h.others r'.id (by simpa using hid)
  whole hw := h.whole hw

/-- The effect of a recorded use. -/
theorem of_recordUse {now id : ℕ} (ns ns' : String) (hv : db.Valid)
    (h : Sql.recordUse now ns' id db = .ok db') : Effect ns [] [] db db' := by
  obtain ⟨hlt, hv', hseq, hfiles⟩ := Sql.recordUse_ok hv h
  have hpayloads : db'.payloads = db.payloads := by
    unfold Sql.recordUse at h
    split_ifs at h
    rw [← Except.ok.inj h]
  -- every row after it is one from before, used or not
  have hrow : ∀ r' ∈ db'.files, ∃ r ∈ db.files, r.SameEntry r' ∧ (r'.InRange ∨ r' = r) := by
    intro r' hr'
    rw [hfiles] at hr'
    obtain ⟨r, hr, rfl⟩ := List.mem_map.mp hr'
    refine ⟨r, hr, ?_⟩
    split_ifs with hid
    · exact ⟨rfl, Or.inl ⟨Sql.nextUse_nonneg now db ns', hlt r hr hid⟩⟩
    · exact ⟨FileRow.SameEntry.refl r, Or.inr rfl⟩
  have hpayload : ∀ id, db'.payload? id = db.payload? id := fun id => by
    rw [Db.payload?, Db.payload?, hpayloads]
  refine ⟨hv', hseq.ge, fun r' hr' _ => ?_, fun _ _ hid => absurd hid List.not_mem_nil,
    fun r' hr' _ => ?_, fun r' hr' => ?_, fun r' _ _ => hpayload r'.id,
    fun hw => ⟨hv', fun r' hr' => ?_⟩⟩
  · obtain ⟨r, hr, hsame, -⟩ := hrow r' hr'
    exact ⟨r, hr, hsame.id.symm, hsame.ns.symm, hsame.path.symm⟩
  · obtain ⟨r, hr, hsame, -⟩ := hrow r' hr'
    exact ⟨r, hr, hsame⟩
  · obtain ⟨r, hr, -, hrange | rfl⟩ := hrow r' hr'
    · exact Or.inl hrange
    · exact Or.inr hr
  · obtain ⟨r, hr, hsame, -⟩ := hrow r' hr'
    rw [hpayload, hsame.id]
    exact hw.payload r hr

end Effect

/-- A write that stored nothing. -/
theorem effect_none {db : Db} (ns : String) (paths : List String) (hv : db.Valid) :
    Effect ns paths [] db db := (Effect.refl ns hv).mono (List.nil_subset _)

/-! ## Writes -/

section Writes

variable {T : Type} {e : Engine} {w : World} {ns : String} {t t' : Tx} {ids : List ℕ}

theorem upsertPrepared_effect {item : Prepared} {id : ℕ} (hv : t.db.Valid)
    (h : upsertPrepared e w item t = .ok (id, t')) : Effect e.ns [item.path] [id] t.db t'.db := by
  obtain ⟨hs, -⟩ := upsertInTx_stored hv h
  obtain ⟨row, hu, -, hlt, hvalue, -⟩ := upsertInTx_ok hv h
  refine .of_stored hs ⟨Sql.nextUse_nonneg _ _ _, ?_⟩
  rw [← hvalue]
  exact hlt

theorem importRowInTx_effect {row : FullRow} {id : ℕ} (hv : t.db.Valid)
    (h : importRowInTx w ns row t = .ok (id, t')) : Effect ns [row.path] [id] t.db t'.db := by
  obtain ⟨useValue, huse, hs⟩ := importRowInTx_stored hv h
  exact .of_stored hs (useValueOfRecord_range huse)

/-- A loop of stores has the effects of its elements. -/
theorem forEach_effect {α : Type} {f : α → TxM ℕ} {path : α → String}
    (hf : ∀ a id s s', s.db.Valid → f a s = .ok (id, s') → Effect ns [path a] [id] s.db s'.db)
    {as : List α} (hv : t.db.Valid) (h : StateExcept.forEach f as t = .ok (ids, t')) :
    Effect ns (as.map path) ids t.db t'.db := by
  refine StateExcept.forEach_ok (fun done ids (s : Tx) => Effect ns (done.map path) ids t.db s.db) ?_
    as [] [] ids t t' (Effect.refl ns hv) h
  intro done ids a id s s' hs hstep
  rw [List.map_append, List.map_singleton]
  exact hs.trans (hf a id s s' hs.valid hstep)

theorem enforceMaxEntries_effect {evicted : List String} (hv : t.db.Valid)
    (h : enforceMaxEntries e w ids t = .ok (evicted, t')) : Effect e.ns [] [] t.db t'.db := by
  obtain ⟨victims, hevicted, -⟩ := enforceMaxEntries_ok hv h
  exact .of_shrunk e.ns (enforceMaxEntries_shrunk hv h) hevicted.valid hevicted.seq

/-- A bounded write has the effect of its write and of its eviction, or none. -/
theorem boundedWrite_effect {α : Type} {paths : List String} {write : TxM (α × List ℕ)} {db : Db}
    (hv : db.Valid) (hw : ∀ t₀ t a ids, t₀.db.Valid → write t₀ = .ok ((a, ids), t) →
      Effect e.ns paths ids t₀.db t.db) :
    Effect e.ns paths (boundedWrite e w write db).used db (boundedWrite e w write db).db := by
  rcases boundedWrite_inv (e := e) (w := w) write db with
    ⟨a, ids, t₀, t, evicted, t', rfl, hwrite, hevict, heq⟩ | ⟨err, heq⟩
  · rw [heq]
    have hstored := hw t₀ t a ids hv hwrite
    have hboth := hstored.trans (enforceMaxEntries_effect hstored.valid hevict)
    rwa [List.append_nil, List.append_nil] at hboth
  · rw [heq]
    exact effect_none _ _ hv

theorem importBounded_effect {rows : List FullRow} {db : Db} (hv : db.Valid) :
    Effect e.ns (rows.map FullRow.path) (importBounded e w rows db).used db
      (importBounded e w rows db).db := by
  unfold importBounded
  split_ifs
  · exact effect_none _ _ hv
  · split
    · exact effect_none _ _ hv
    · refine boundedWrite_effect hv fun t₀ t a ids hv₀ hwrite => ?_
      obtain ⟨ids', hall, heq⟩ := StateExcept.map_eq_ok hwrite
      obtain ⟨-, rfl⟩ := Prod.mk.inj heq
      exact forEach_effect (fun row id s s' hs hstep => importRowInTx_effect hs hstep) hv₀ hall

theorem set_effect (src : Sources T) (path : Path) (payload : T) {db : Db} (hv : db.Valid) :
    Effect e.ns (Write.set src path payload).paths (LocalCache.set e src w path payload db).used db
      (LocalCache.set e src w path payload db).db := by
  unfold LocalCache.set
  split_ifs
  · exact effect_none _ _ hv
  cases hocc : occupy src path with
  | error err => exact effect_none _ _ hv
  | ok p =>
    obtain ⟨canonical, pathStr, metadata⟩ := p
    have hpaths : (Write.set src path payload).paths = [pathStr] := by rw [Write.paths, hocc]
    dsimp only
    cases src.encode pathStr payload with
    | error err => exact effect_none _ _ hv
    | ok encoded =>
      rw [hpaths]
      refine boundedWrite_effect hv fun t₀ t a ids hv₀ hwrite => ?_
      obtain ⟨id, hup, heq⟩ := StateExcept.map_eq_ok hwrite
      obtain ⟨-, rfl⟩ := Prod.mk.inj heq
      exact upsertPrepared_effect hv₀ hup

theorem batchSet_effect (src : Sources T) (items : List (Path × T)) {db : Db} (hv : db.Valid) :
    Effect e.ns (Write.batchSet src items).paths (LocalCache.batchSet e src w items db).used db
      (LocalCache.batchSet e src w items db).db := by
  unfold LocalCache.batchSet
  split_ifs
  · exact effect_none _ _ hv
  cases checkDistinct e "items" "paths" ((batchOccupying src items).map Occupying.pathStr) with
  | error err => exact effect_none _ _ hv
  | ok _ =>
    refine boundedWrite_effect hv fun t₀ t a ids hv₀ hwrite => ?_
    obtain ⟨ids', hall, heq⟩ := StateExcept.map_eq_ok hwrite
    obtain ⟨-, rfl⟩ := Prod.mk.inj heq
    exact forEach_effect (fun item id s s' hs hstep => upsertPrepared_effect hs hstep) hv₀ hall

theorem importEntries_effect (src : Sources T) (records : List ExportRecord) {db : Db}
    (hv : db.Valid) :
    Effect e.ns (records.map ExportRecord.path) (LocalCache.importEntries e src w records db).used
      db (LocalCache.importEntries e src w records db).db := by
  unfold LocalCache.importEntries
  split_ifs
  · exact effect_none _ _ hv
  cases hrows : records.mapM (ExportRecord.toFullRow src) with
  | error err => exact effect_none _ _ hv
  | ok rows =>
    rw [← path_of_mapM_toFullRow hrows]
    exact importBounded_effect hv

theorem importFrom_effect (source : Except Error (List FullRow)) {db : Db} (hv : db.Valid) :
    Effect e.ns (Write.importFrom source : Write T).paths (LocalCache.importFrom e w source db).used
      db (LocalCache.importFrom e w source db).db := by
  unfold LocalCache.importFrom
  split_ifs
  · exact effect_none _ _ hv
  cases source with
  | error err => exact effect_none _ _ hv
  | ok rows => exact importBounded_effect hv

/-- A write of the API has the effect of the rows it stores. -/
theorem Write.call_effect (write : Write T) {db : Db} (hv : db.Valid) :
    Effect e.ns write.paths (write.call e w db).used db (write.call e w db).db := by
  cases write with
  | set src path payload => exact set_effect src path payload hv
  | batchSet src items => exact batchSet_effect src items hv
  | importEntries src records => exact importEntries_effect src records hv
  | importFrom source => exact importFrom_effect source hv

end Writes

/-! ## Deletions, uses and rotations -/

section Others

variable {T : Type} {e : Engine} {w : World} {db : Db}

theorem autocommit_effect {α : Type} {ns : String} {body : TxM α} (hv : db.Valid)
    (hbody : ∀ t a t', t.db.Valid → body t = .ok (a, t') → Effect ns [] [] t.db t'.db) :
    Effect ns [] [] db (autocommit body db).2 := by
  rcases autocommit_cases body db with ⟨a, t, hrun, h⟩ | ⟨err, hrun, -⟩
  · rw [hrun]
    exact hbody ⟨db, 0, 0⟩ a t hv h
  · rw [hrun]
    exact .refl ns hv

theorem transaction_effect {α : Type} {ns : String} (body : TxM α) (hv : db.Valid)
    (hbody : ∀ t a t', t.db.Valid → body t = .ok (a, t') → Effect ns [] [] t.db t'.db) :
    Effect ns [] [] db (transaction w body db).2 := by
  rcases transaction_cases (w := w) body db with ⟨a, t₀, t, hrun, rfl, -, h⟩ | ⟨err, hrun⟩
  · rw [hrun]
    exact hbody t₀ a t hv h
  · rw [hrun]
    exact .refl ns hv

theorem deleteFiles_effect (ns : String) (gone : FileRow → Bool) (hv : db.Valid) :
    Effect ns [] [] db (Sql.deleteFiles gone db) :=
  .of_shrunk ns (Sql.shrunk_deleteFiles hv gone) (Sql.valid_deleteFiles hv gone) rfl

theorem deleteByPath_effect {ns path : String} {t t' : Tx} {b : Bool} (hv : t.db.Valid)
    (h : deleteByPath w ns path t = .ok (b, t')) : Effect ns [] [] t.db t'.db := by
  rw [(deleteByPath_ok h).2]
  exact deleteFiles_effect ns _ hv

theorem deletePathsInTx_effect {ns : String} {paths : List String} {t t' : Tx} {n : ℕ}
    (hv : t.db.Valid) (h : deletePathsInTx w ns paths t = .ok (n, t')) :
    Effect ns [] [] t.db t'.db := by
  obtain ⟨removed, hloop, -⟩ := StateExcept.map_eq_ok h
  refine StateExcept.forEach_ok (fun _ _ (s : Tx) => Effect ns [] [] t.db s.db) ?_ paths [] []
    removed t t' (Effect.refl ns hv) hloop
  intro _ _ path b s s' hs hstep
  exact hs.trans (deleteByPath_effect hs.valid hstep)

theorem remove_effect (src : Sources T) (path : Path) (hv : db.Valid) :
    Effect e.ns [] [] db (LocalCache.remove e src w path db).db := by
  unfold LocalCache.remove
  split_ifs
  · exact .refl _ hv
  cases resolvePathKey src path with
  | error err => exact .refl _ hv
  | ok resolved => exact autocommit_effect hv fun t b t' ht h => deleteByPath_effect ht h

theorem purgeStaleVersions_effect (hv : db.Valid) :
    Effect e.ns [] [] db (purgeStaleVersions e w db).db := by
  unfold purgeStaleVersions
  split_ifs
  · exact .refl _ hv
  refine autocommit_effect hv fun t n t' ht h => ?_
  obtain ⟨gap, hrun, -⟩ := statement_ok h
  rw [← (Prod.mk.inj (Except.ok.inj hrun)).2]
  exact deleteFiles_effect e.ns _ ht

theorem recordUse_effect (ns : String) (id : ℕ) (hv : db.Valid) :
    Effect ns [] [] db (autocommit (recordUse w ns id) db).2 :=
  autocommit_effect hv fun _ _ _ ht h => .of_recordUse ns ns ht (recordUseInTx_ok h)

theorem finishRead_effect (row : FileRow) (entry : CacheEntry T) (hv : db.Valid) :
    Effect e.ns [] [] db (finishRead e w row entry db).db := by
  have huse := recordUse_effect (w := w) e.ns row.id hv
  unfold finishRead
  split_ifs
  · exact .refl _ hv
  split <;> next hrun => rwa [hrun] at huse

theorem finishTouch_effect (row : FileRow) (hv : db.Valid) :
    Effect e.ns [] [] db (finishTouch e w row db).db := by
  have huse := recordUse_effect (w := w) e.ns row.id hv
  unfold finishTouch
  split <;> next hrun => rwa [hrun] at huse

theorem Rekeyed.refl (db : Db) : Rekeyed db db := ⟨rfl, rfl, rfl⟩

theorem Rekeyed.trans {db' db'' : Db} (h : Rekeyed db db') (h' : Rekeyed db' db'') :
    Rekeyed db db'' :=
  ⟨h'.files.trans h.files, h'.seq.trans h.seq, h'.payloadIds.trans h.payloadIds⟩

theorem Rekeyed.valid {db' : Db} (h : Rekeyed db db') (hv : db.Valid) : db'.Valid where
  ids := by rw [h.files]; exact hv.ids
  keys := by rw [h.files]; exact hv.keys
  payloadIds := by rw [h.payloadIds]; exact hv.payloadIds
  foreign p hp := by
    have hmem : p.fileId ∈ db.payloads.map PayloadRow.fileId :=
      h.payloadIds ▸ List.mem_map_of_mem hp
    obtain ⟨q, hq, hid⟩ := List.mem_map.mp hmem
    obtain ⟨r, hr, hrid⟩ := hv.foreign q hq
    exact ⟨r, h.files ▸ hr, hrid.trans hid⟩
  seq r hr := by
    rw [h.seq]
    exact hv.seq r (h.files ▸ hr)

theorem Rekeyed.whole {db' : Db} (h : Rekeyed db db') (hw : db.Whole) : db'.Whole := by
  refine ⟨h.valid hw.valid, fun r hr => ?_⟩
  obtain ⟨p, hp⟩ := hw.payload r (h.files ▸ hr)
  obtain ⟨hmem, hid⟩ := (Db.payload?_eq_some hw.valid).mp hp
  have hmem' : r.id ∈ db'.payloads.map PayloadRow.fileId := by
    rw [h.payloadIds, ← hid]
    exact List.mem_map_of_mem hmem
  obtain ⟨q, hq, hqid⟩ := List.mem_map.mp hmem'
  exact ⟨q, (Db.payload?_eq_some (h.valid hw.valid)).mpr ⟨hq, hqid⟩⟩

theorem rekeyed_updatePayload (p : PayloadRow) (db : Db) : Rekeyed db (Sql.updatePayload p db) := by
  refine ⟨rfl, rfl, ?_⟩
  rw [Sql.updatePayload, List.map_map]
  refine List.map_congr_left fun q _ => ?_
  rw [Function.comp_apply]
  split_ifs with hid
  · exact hid.symm
  · rfl

/-- What a statement of a rotation does to the database of its connection. -/
def RekeysTx (t t' : Tx) : Prop := Rekeyed t.db t'.db

theorem rekeysTx_select {α : Type} (run : Db → α) :
    StateExcept.Moves RekeysTx (select w run) := by
  intro t a t' h
  obtain ⟨-, hdb, -⟩ := select_ok h
  show Rekeyed t.db t'.db
  rw [hdb]
  exact .refl _

theorem rekeysTx_updatePayloadContent (p : PayloadRow) :
    StateExcept.Moves RekeysTx (updatePayloadContent w p) := by
  intro t a t' h
  obtain ⟨gap, hrun, -⟩ := execute_ok h
  show Rekeyed t.db t'.db
  rw [← Except.ok.inj hrun]
  exact rekeyed_updatePayload p t.db

theorem rekeysTx_rotatePages {f : Features} {A : Aead} {nonces : ℕ → Option Nonce}
    {maxRows maxBytes : ℕ} {old new : Key} : ∀ (fuel : ℕ) (after : String) (total : ℕ),
    StateExcept.Moves RekeysTx (rotatePages f A nonces e w maxRows maxBytes old new fuel after total)
  | 0, _, _ => .pure (fun t => .refl t.db) _
  | fuel + 1, after, total => by
    have htrans : ∀ t t' t'' : Tx, RekeysTx t t' → RekeysTx t' t'' → RekeysTx t t'' :=
      fun _ _ _ => Rekeyed.trans
    refine .bind htrans (.bind htrans (rekeysTx_select _) fun rows => .pure (fun t => .refl t.db) _)
      fun page => ?_
    cases page.getLast? with
    | none => exact .pure (fun t => .refl t.db) _
    | some last =>
      refine .bind htrans (.ofExcept (fun t => .refl t.db) _) fun updates => ?_
      refine .bind htrans (.forEach (fun t => .refl t.db) htrans rekeysTx_updatePayloadContent _)
        fun _ => ?_
      exact rekeysTx_rotatePages fuel last.path _

/-- A rotation ran its pages, or changed nothing. -/
theorem rotateEncryptionKey_inv {f : Features} {A : Aead} {nonces : ℕ → Option Nonce}
    {maxRows maxBytes fuel : ℕ} {newKey : List UInt8} {o : RotationOutcome}
    (h : rotateEncryptionKey f A nonces e w maxRows maxBytes fuel newKey db = some o) :
    o.db = db ∨ ∃ old new t₀ total t, t₀.db = db ∧
      rotatePages f A nonces e w maxRows maxBytes old new fuel "" 0 t₀ = .ok (total, t) ∧
        o.db = t.db := by
  unfold rotateEncryptionKey at h
  split_ifs at h
  · rw [← Option.some.inj h]
    exact Or.inl rfl
  cases hold : e.encryptionKey with
  | none =>
    rw [hold] at h
    rw [← Option.some.inj h]
    exact Or.inl rfl
  | some old =>
    rw [hold] at h
    cases hnew : Key.fromSlice newKey with
    | none =>
      rw [hnew] at h
      rw [← Option.some.inj h]
      exact Or.inl rfl
    | some new =>
      rw [hnew] at h
      dsimp only at h
      rcases transaction_cases (w := w) (do
          let total ← rotatePages f A nonces e w maxRows maxBytes old new fuel "" 0
          let statements ← statementsSoFar
          pure (total, statements)) db with ⟨⟨total, n⟩, t₀, t, hrun, h₀, -, hbody⟩ | ⟨err, hrun⟩
      · obtain ⟨total', t₁, hpages, hrest⟩ := StateExcept.bind_eq_ok hbody
        obtain ⟨n', hn, heq⟩ := StateExcept.map_eq_ok hrest
        obtain ⟨-, rfl⟩ := Prod.mk.inj (Except.ok.inj hn)
        obtain ⟨rfl, rfl⟩ := Prod.mk.inj heq
        refine Or.inr ⟨old, new, t₀, total', t₁, h₀, hpages, ?_⟩
        rw [hrun] at h
        cases total' with
        | none => exact absurd h (by simp)
        | some n => rw [← Option.some.inj h]
      · rw [hrun] at h
        rw [← Option.some.inj h]
        exact Or.inl rfl

theorem rekeyed_rotateEncryptionKey {f : Features} {A : Aead} {nonces : ℕ → Option Nonce}
    {maxRows maxBytes fuel : ℕ} {newKey : List UInt8} {o : RotationOutcome}
    (h : rotateEncryptionKey f A nonces e w maxRows maxBytes fuel newKey db = some o) :
    Rekeyed db o.db := by
  rcases rotateEncryptionKey_inv h with heq | ⟨old, new, t₀, total, t, rfl, hpages, heq⟩
  · rw [heq]
    exact .refl db
  · rw [heq]
    exact rekeysTx_rotatePages fuel "" 0 _ _ _ hpages

end Others

/-! ## One part, and one step -/

section Parts

variable {T : Type} {e : Engine} {host : Host T} {env : Env T} {db : Db}

/-- The paths a call may store. -/
def Call.paths : Call T → List String
  | .write w => w.paths
  | _ => []

/-- The call rewrites payloads in place. -/
def Call.rekeys : Call T → Bool
  | .rotateEncryptionKey .. => true
  | _ => false

def SessionEvent.paths (ev : SessionEvent T) : List String :=
  match ev.action with
  | .invoke call => call.paths
  | .resume => []

def SessionEvent.rekeys (ev : SessionEvent T) : Bool :=
  match ev.action with
  | .invoke call => call.rekeys
  | .resume => false

theorem Part.ofFound_db {none_ : Reply T} {ongoing : FileRow → Ongoing T}
    (found : Except Error (Option FileRow)) :
    (Part.ofFound e db none_ ongoing found).db = db ∧
      (Part.ofFound e db none_ ongoing found).wrote = [] := by
  rcases found with err | _ | row <;> exact ⟨rfl, rfl⟩

theorem Call.start_effect {call : Call T} (hcall : call.rekeys = false) (hv : db.Valid) :
    Effect e.ns call.paths (call.start e host env db).wrote db (call.start e host env db).db := by
  have hrefl : Effect e.ns [] [] db db := .refl e.ns hv
  cases call with
  | write w => exact w.call_effect hv
  | remove path => exact remove_effect env.src path hv
  | get path | getIfFresh path | touch path =>
    rw [Call.start]
    rw [(Part.ofFound_db _).1, (Part.ofFound_db _).2]
    exact hrefl
  | query q =>
    rw [Call.start]
    cases QueryPhase.start host.query env.src e q <;> exact hrefl
  | cleanupMissingFiles size =>
    rw [Call.start]
    split_ifs <;> exact hrefl
  | cleanupExpired size =>
    rw [Call.start]
    split_ifs
    · exact hrefl
    · cases e.ttl <;> exact hrefl
  | purgeStaleVersions => exact purgeStaleVersions_effect hv
  | rotateEncryptionKey nonces maxRows maxBytes newKey => exact absurd hcall (by simp [rekeys])

theorem Call.start_rekeyed {call : Call T} (hcall : call.rekeys = true) :
    (call.start e host env db).wrote = [] ∧ Rekeyed db (call.start e host env db).db := by
  cases call with
  | rotateEncryptionKey nonces maxRows maxBytes newKey =>
    rw [Call.start]
    split
    · exact ⟨rfl, .refl db⟩
    · next o ho => exact ⟨rfl, rekeyed_rotateEncryptionKey ho⟩
  | write | remove | get | getIfFresh | touch | query | cleanupMissingFiles | cleanupExpired
  | purgeStaleVersions => exact absurd hcall (by simp [rekeys])

theorem Cleaning.next_wrote (c : Cleaning) (commits : ℕ) : (c.next e env commits db).wrote = [] := by
  unfold Cleaning.next
  split
  · split
    · rfl
    · split <;> rfl
  · rfl
  · dsimp only
    split
    · rfl
    · split <;> rfl

/-- A part of a cleanup leaves the tables, or deletes paths. -/
theorem Cleaning.next_db (c : Cleaning) (commits : ℕ) :
    (c.next e env commits db).db = db ∨ ∃ paths, (c.next e env commits db).db =
      (transaction env.world (deletePathsInTx env.world e.ns paths) db).2 := by
  obtain ⟨kind, size, cursor, removed, _ | ⟨_ | ⟨row, left⟩, gone, last⟩⟩ := c
  · rw [Cleaning.next]
    dsimp only
    cases (autocommit (select env.world (Sql.pathsAfter e.ns cursor size)) db).1 with
    | error err => exact .inl rfl
    | ok rows =>
      dsimp only
      cases rows.getLast? <;> exact .inl rfl
  · have hboth : (if gone.isEmpty then ((.ok 0 : Except Error ℕ), db)
        else transaction env.world (deletePathsInTx env.world e.ns (gone.map Judged.path)) db).2 =
          db ∨ ∃ paths, (if gone.isEmpty then ((.ok 0 : Except Error ℕ), db)
            else transaction env.world (deletePathsInTx env.world e.ns (gone.map Judged.path)) db).2 =
              (transaction env.world (deletePathsInTx env.world e.ns paths) db).2 := by
      split_ifs
      · exact .inl rfl
      · exact .inr ⟨_, rfl⟩
    rw [Cleaning.next]
    dsimp only
    generalize (if gone.isEmpty then ((.ok 0 : Except Error ℕ), db)
      else transaction env.world (deletePathsInTx env.world e.ns (gone.map Judged.path)) db) =
        deleted at hboth ⊢
    obtain ⟨err | k, db'⟩ := deleted
    · exact hboth
    · dsimp only
      split_ifs <;> exact hboth
  · exact .inl rfl

theorem Cleaning.next_effect (c : Cleaning) (commits : ℕ) (hv : db.Valid) :
    Effect e.ns [] (c.next e env commits db).wrote db (c.next e env commits db).db := by
  rw [c.next_wrote]
  rcases c.next_db commits with hkept | ⟨paths, hdeleted⟩
  · rw [hkept]
    exact .refl e.ns hv
  · rw [hdeleted]
    exact transaction_effect _ hv fun _ _ _ ht h => deletePathsInTx_effect ht h

theorem Ongoing.next_effect (ongoing : Ongoing T) (commits : ℕ) (hv : db.Valid) :
    Effect e.ns [] (ongoing.next e host env commits db).wrote db
      (ongoing.next e host env commits db).db := by
  have hrefl : Effect e.ns [] [] db db := .refl e.ns hv
  cases ongoing with
  | found row =>
    rw [Ongoing.next]
    rcases loadEntry env.src env.world row db with err | _ | entry <;> exact hrefl
  | loaded row entry => exact finishRead_effect row entry hv
  | touching row => exact finishTouch_effect row hv
  | querying q phase =>
    rw [Ongoing.next]
    rcases (autocommit (phase.step host.query env.src e env.world q) db).1 with err | phase' | report <;>
      exact hrefl
  | cleaning c => exact c.next_effect commits hv

namespace Sessions

variable {s : Sessions T} {ev : SessionEvent T}

/-- The namespace of the session an event is about. -/
def ns (s : Sessions T) (conn : ℕ) : String := (s.session conn).engine.ns

@[simp] theorem call_after (s : Sessions T) (conn : ℕ) (part : Part T) :
    ((s.after conn part).session conn).call = part.next.getLeft? := by
  simp [after]

@[simp] theorem responses_after (s : Sessions T) (conn : ℕ) (part : Part T) :
    ((s.after conn part).session conn).responses =
      (s.session conn).responses ++ part.next.getRight?.getD [] := by
  simp [after]

@[simp] theorem ns_after (s : Sessions T) (conn : ℕ) (part : Part T) :
    (s.after conn part).ns conn = s.ns conn := by
  simp [after, ns]

/-- An event runs a part of a call, or changes nothing. -/
theorem step_cases (host : Host T) (s : Sessions T) (ev : SessionEvent T) :
    (s.part? host ev = none ∧ s.step host ev = s) ∨
      ∃ part, s.part? host ev = some part ∧ s.step host ev = s.after ev.conn part := by
  unfold step
  cases s.part? host ev with
  | none => exact Or.inl ⟨rfl, rfl⟩
  | some part => exact Or.inr ⟨part, rfl, rfl⟩

theorem session_step_of_ne {conn : ℕ} (hne : conn ≠ ev.conn) :
    (s.step host ev).session conn = s.session conn := by
  rcases step_cases host s ev with ⟨-, h⟩ | ⟨part, -, h⟩
  · rw [h]
  · rw [h]
    exact Function.update_of_ne hne _ _

@[simp] theorem ns_step (conn : ℕ) : (s.step host ev).ns conn = s.ns conn := by
  by_cases hne : conn = ev.conn
  · rcases step_cases host s ev with ⟨-, h⟩ | ⟨part, -, h⟩
    · rw [h]
    · rw [h, hne, ns_after]
  · rw [ns, session_step_of_ne hne, ns]

/-- The call an event leaves its session in is the one its part goes on with. -/
theorem call_step {ongoing : Ongoing T} (h : ((s.step host ev).session ev.conn).call = some ongoing) :
    (s.session ev.conn).call = some ongoing ∧ s.step host ev = s ∨
      ∃ part, s.part? host ev = some part ∧ s.step host ev = s.after ev.conn part ∧
        part.next = .inl ongoing := by
  rcases step_cases host s ev with ⟨-, heq⟩ | ⟨part, hpart, heq⟩
  · exact Or.inl ⟨heq ▸ h, heq⟩
  · rw [heq, call_after] at h
    exact Or.inr ⟨part, hpart, heq, Sum.getLeft?_eq_some_iff.mp h⟩

/-- What a step does to the tables and to the history : the effect of its part, or the rekeying
of a rotation, and then it commits what it stored. -/
theorem did_step (host : Host T) (s : Sessions T) (ev : SessionEvent T) (hv : s.db.Valid) :
    ∃ wrote, (s.step host ev).committed = s.committed ++ (s.step host ev).db.commits wrote ∧
      (Effect (s.ns ev.conn) ev.paths wrote s.db (s.step host ev).db ∨
        ev.rekeys = true ∧ wrote = [] ∧ Rekeyed s.db (s.step host ev).db) := by
  unfold step part?
  obtain ⟨conn, env, action⟩ := ev
  cases action with
  | invoke call =>
    cases hcall : (s.session conn).call with
    | some ongoing => exact ⟨[], by simp [Db.commits], Or.inl (effect_none _ _ hv)⟩
    | none =>
      refine ⟨_, rfl, ?_⟩
      cases hrekeys : call.rekeys with
      | false => exact Or.inl (Call.start_effect hrekeys hv)
      | true => exact Or.inr ⟨hrekeys, Call.start_rekeyed hrekeys⟩
  | resume =>
    cases hcall : (s.session conn).call with
    | none => exact ⟨[], by simp [Db.commits], Or.inl (effect_none _ _ hv)⟩
    | some ongoing => exact ⟨_, rfl, Or.inl (ongoing.next_effect _ hv)⟩

theorem valid_step (hv : s.db.Valid) : (s.step host ev).db.Valid := by
  obtain ⟨wrote, -, heffect | ⟨-, -, hrekeyed⟩⟩ := did_step host s ev hv
  · exact heffect.valid
  · exact hrekeyed.valid hv

theorem whole_step (hw : s.db.Whole) : (s.step host ev).db.Whole := by
  obtain ⟨wrote, -, heffect | ⟨-, -, hrekeyed⟩⟩ := did_step host s ev hw.valid
  · exact heffect.whole hw
  · exact hrekeyed.whole hw

theorem range_step (hv : s.db.Valid) (h : ∀ r ∈ s.db.files, r.InRange) :
    ∀ r ∈ (s.step host ev).db.files, r.InRange := by
  obtain ⟨wrote, -, heffect | ⟨-, -, hrekeyed⟩⟩ := did_step host s ev hv
  · exact fun r hr => (heffect.range r hr).elim id (h r)
  · exact fun r hr => h r (hrekeyed.files ▸ hr)

/-- In every state sessions reach, the tables are whole and the use values in range. -/
theorem Reached.whole {engines : ℕ → Engine} (hs : Reached host engines Db.empty s) :
    s.db.Whole ∧ ∀ r ∈ s.db.files, r.InRange := by
  obtain ⟨events, rfl⟩ := hs
  refine runFrom_induction (I := fun s : Sessions T => s.db.Whole ∧ ∀ r ∈ s.db.files, r.InRange)
    (fun s ev h => ⟨whole_step h.1, range_step h.1.valid h.2⟩) events
    ⟨⟨Db.valid_empty, ?_⟩, ?_⟩
  · intro r hr
    exact absurd hr List.not_mem_nil
  · intro r hr
    exact absurd hr List.not_mem_nil

end Sessions

end Parts

end LocalCache
