import LocalCache.TornReads

/-!
# What the calls of a namespace leave alone

A statement names its namespace, or it names rows by their ids alone : recording a use, loading
and rewriting payloads, evicting. The ids of all namespaces come from one sequence, and calls hold
them over statements of others. `Within ns` says that rows of other namespaces, and their
payloads, are as they were.

An id once given to a row of `ns` is never another namespace's (`Db.Owns`). So the ids that a call
holds are its own namespace's in every state that sessions reach (`Sessions.OwnIds`), and every
step stays within the namespace of its session (`Sessions.OwnIds.step`).
-/

namespace LocalCache

/-- The id is of `ns`, if it is any row's. It was given out, so no other row will have it. -/
def Db.Owns (ns : String) (db : Db) (id : ℕ) : Prop :=
  id ≤ db.seq ∧ ∀ r ∈ db.files, r.id = id → r.ns = ns

/-- The rows of `ns` and their payloads are as they were. -/
structure Untouched (ns : String) (db db' : Db) : Prop where
  rows : db'.inNamespace ns = db.inNamespace ns
  payload : ∀ r ∈ db.inNamespace ns, db'.payload? r.id = db.payload? r.id

/-- Only rows of `ns` changed. -/
structure Within (ns : String) (db db' : Db) : Prop where
  valid : db'.Valid
  others : ∀ ns', ns' ≠ ns → Untouched ns' db db'

theorem Untouched.trans {ns : String} {db db' db'' : Db} (h : Untouched ns db db')
    (h' : Untouched ns db' db'') : Untouched ns db db'' where
  rows := h'.rows.trans h.rows
  payload r hr := (h'.payload r (h.rows ▸ hr)).trans (h.payload r hr)

theorem Within.refl (ns : String) {db : Db} (hv : db.Valid) : Within ns db db :=
  ⟨hv, fun _ _ => ⟨rfl, fun _ _ => rfl⟩⟩

theorem Within.trans {ns : String} {db db' db'' : Db} (h : Within ns db db')
    (h' : Within ns db' db'') : Within ns db db'' :=
  ⟨h'.valid, fun ns' hne => (h.others ns' hne).trans (h'.others ns' hne)⟩

/-! ## Rows of one namespace -/

section Namespace

variable {db db' : Db} {ns ns' path : String}

theorem Db.find?_eq (db : Db) (ns path : String) :
    db.find? ns path = (db.inNamespace ns).find? fun r => r.path = path := by
  rw [inNamespace, List.find?_filter, find?]
  congr 1
  funext r
  rw [Bool.eq_iff_iff]
  simp only [decide_eq_true_eq]
  exact Iff.rfl

theorem Db.inNamespace_map {g : FileRow → FileRow} (hg : ∀ r ∈ db.files, (g r).ns = r.ns)
    (payloads : List PayloadRow) (seq : ℕ) :
    Db.inNamespace ⟨db.files.map g, payloads, seq⟩ ns = (db.inNamespace ns).map g := by
  rw [inNamespace, inNamespace, List.filter_map]
  congr 1
  refine List.filter_congr fun r hr => ?_
  rw [Function.comp_apply, hg r hr]

theorem Db.payload?_eq_none (hv : db.Valid) {id : ℕ} (h : ∀ r ∈ db.files, r.id ≠ id) :
    db.payload? id = none := by
  cases hp : db.payload? id with
  | none => rfl
  | some p =>
    obtain ⟨hmem, hid⟩ := (payload?_eq_some hv).mp hp
    obtain ⟨r, hr, hrid⟩ := hv.foreign p hmem
    exact absurd (hrid.trans hid) (h r hr)

theorem Sql.inNamespace_deleteFiles (gone : FileRow → Bool) :
    (Sql.deleteFiles gone db).inNamespace ns = (db.inNamespace ns).filter fun r => !gone r := by
  simp only [Db.inNamespace, Sql.deleteFiles, List.filter_filter, Bool.and_comm]

theorem Sql.payload?_updatePayload (db : Db) (p : PayloadRow) (id : ℕ) :
    (Sql.updatePayload p db).payload? id =
      (db.payload? id).map fun q => if q.fileId = p.fileId then p else q := by
  rw [Db.payload?, Sql.updatePayload, List.find?_map, Db.payload?]
  congr 1
  refine congrArg (fun keep => db.payloads.find? keep) (funext fun q => ?_)
  rw [Function.comp_apply]
  split_ifs with hid
  · rw [hid]
  · rfl

/-- Rewriting the rows of one namespace leaves the others' rows as they were. -/
theorem Db.inNamespace_map_of_ne {g : FileRow → FileRow} (hne : ns' ≠ ns)
    (hg : ∀ r ∈ db.files, (g r).ns = r.ns) (hother : ∀ r ∈ db.files, r.ns ≠ ns → g r = r)
    (payloads : List PayloadRow) (seq : ℕ) :
    Db.inNamespace ⟨db.files.map g, payloads, seq⟩ ns' = db.inNamespace ns' := by
  rw [inNamespace_map hg, List.map_congr_left (g := id), List.map_id]
  intro r hr
  obtain ⟨hmem, rfl⟩ := mem_inNamespace.mp hr
  exact hother r hmem hne

end Namespace

/-! ## Ids -/

section Ids

variable {db db' : Db} {ns ns' : String} {id : ℕ}

theorem Db.owns_of_mem (hv : db.Valid) {r : FileRow} (hr : r ∈ db.inNamespace ns) :
    db.Owns ns r.id := by
  obtain ⟨hmem, hns⟩ := mem_inNamespace.mp hr
  exact ⟨hv.seq r hmem, fun q hq hid => by rw [hv.eq_of_id hq hmem hid, hns]⟩

/-- A row of another namespace has another id. -/
theorem Db.Owns.ne (h : db.Owns ns id) (hne : ns' ≠ ns) {r : FileRow} (hr : r ∈ db.inNamespace ns') :
    r.id ≠ id := by
  rintro rfl
  obtain ⟨hmem, hns⟩ := mem_inNamespace.mp hr
  exact hne (hns.symm.trans (h.2 r hmem rfl))

theorem Db.Owns.of_effect {paths : List String} {ids : List ℕ} (h : db.Owns ns id)
    (heffect : Effect ns' paths ids db db') : db'.Owns ns id := by
  refine ⟨h.1.trans heffect.seq, fun r' hr' hid => ?_⟩
  obtain ⟨r, hr, hrid, hns, -⟩ := heffect.old r' hr' (hid ▸ h.1)
  rw [← hns]
  exact h.2 r hr (hrid.trans hid)

theorem Db.Owns.of_rekeyed (h : db.Owns ns id) (hrekeyed : Rekeyed db db') : db'.Owns ns id := by
  rw [Owns, hrekeyed.seq, hrekeyed.files]
  exact h

end Ids

/-! ## Statements -/

section Statements

variable {db db' : Db} {ns path : String} {id : ℕ}

theorem within_upsertFile {gap : ℕ} {c : Sql.FileColumns} (hv : db.Valid)
    (h : Sql.upsertFile gap ns path c db = .ok db') : Within ns db db' := by
  obtain ⟨-, row, hu⟩ := Sql.upsertFile_ok hv h
  refine ⟨hu.valid, fun ns' hne => ⟨?_, fun r _ => ?_⟩⟩
  · obtain ⟨-, ⟨old, -, rfl⟩ | ⟨-, rfl⟩⟩ := Sql.upsertFile_cases h
    · refine Db.inNamespace_map_of_ne hne (fun r _ => ?_) (fun r _ hr => ?_) _ _
      · split_ifs with hk
        · exact hk.1.symm
        · rfl
      · exact if_neg fun hk => hr hk.1
    · have hnone : ([c.toRow (db.seq + gap + 1) ns path].filter fun r => decide (r.ns = ns')) = [] := by
        simp [Sql.FileColumns.toRow, hne.symm]
      rw [Db.inNamespace, Db.inNamespace, List.filter_append, hnone, List.append_nil]
  · rw [Db.payload?, Db.payload?, Sql.payloads_upsertFile h]

theorem within_upsertPayload {p : PayloadRow} (hv : db.Valid) (hown : db.Owns ns p.fileId)
    (h : Sql.upsertPayload p db = .ok db') : Within ns db db' := by
  obtain ⟨hfiles, -, hv'⟩ := Sql.upsertPayload_ok hv h
  refine ⟨hv', fun ns' hne => ⟨by rw [Db.inNamespace, hfiles, Db.inNamespace], fun r hr => ?_⟩⟩
  exact (Sql.payload?_upsertPayload h).2 r.id (hown.ne hne hr)

theorem within_deleteFiles {gone : FileRow → Bool} (hv : db.Valid)
    (hgone : ∀ r ∈ db.files, gone r = true → r.ns = ns) :
    Within ns db (Sql.deleteFiles gone db) := by
  have hkept : ∀ ns', ns' ≠ ns → ∀ r ∈ db.inNamespace ns', gone r = false := by
    intro ns' hne r hr
    obtain ⟨hmem, hns⟩ := Db.mem_inNamespace.mp hr
    by_contra htrue
    exact hne (hns.symm.trans (hgone r hmem (by simpa using htrue)))
  refine ⟨Sql.valid_deleteFiles hv gone, fun ns' hne => ⟨?_, fun r hr => ?_⟩⟩
  · rw [Sql.inNamespace_deleteFiles, List.filter_eq_self]
    intro r hr
    rw [hkept ns' hne r hr]
    rfl
  · exact (Sql.shrunk_deleteFiles hv gone).payload r
      (Sql.mem_deleteFiles.mpr ⟨(Db.mem_inNamespace.mp hr).1, hkept ns' hne r hr⟩)

theorem within_recordUse {now : ℕ} (hv : db.Valid) (hown : db.Owns ns id)
    (h : Sql.recordUse now ns id db = .ok db') : Within ns db db' := by
  have hv' := (Sql.recordUse_ok hv h).2.1
  unfold Sql.recordUse at h
  split_ifs at h
  obtain rfl := Except.ok.inj h
  refine ⟨hv', fun ns' hne => ⟨?_, fun _ _ => rfl⟩⟩
  refine Db.inNamespace_map_of_ne hne (fun r _ => ?_) (fun r hr hns => ?_) _ _
  · split_ifs <;> rfl
  · exact if_neg fun hid => hns (hown.2 r hr hid)

theorem within_updatePayload {p : PayloadRow} (hv : db.Valid) (hown : db.Owns ns p.fileId) :
    Within ns db (Sql.updatePayload p db) := by
  refine ⟨(rekeyed_updatePayload p db).valid hv, fun ns' hne => ⟨rfl, fun r hr => ?_⟩⟩
  rw [Sql.payload?_updatePayload]
  cases hp : db.payload? r.id with
  | none => rfl
  | some q =>
    have hid : q.fileId ≠ p.fileId := by
      rw [((Db.payload?_eq_some hv).mp hp).2]
      exact hown.ne hne hr
    rw [Option.map_some, if_neg hid]

end Statements

/-! ## Functions of the repository -/

section Functions

variable {w : World} {t t' : Tx} {ns path : String} {id : ℕ}

theorem within_storePayload {content : List UInt8} {encoding : String} (hv : t.db.Valid)
    (h : storePayload w ns path content encoding t = .ok (id, t')) : Within ns t.db t'.db := by
  obtain ⟨fileId, t₁, hsel, h⟩ := StateExcept.bind_eq_ok h
  obtain ⟨_, t₂, hpay, h⟩ := StateExcept.bind_eq_ok h
  obtain ⟨rfl, rfl⟩ := StateExcept.pure_eq_ok h
  obtain ⟨hid, hdb, -⟩ := selectOrFail_ok hsel
  obtain ⟨gap, hrun, -⟩ := execute_ok hpay
  obtain ⟨r, hr, hk, rfl⟩ := Sql.selectId_ok hv hid
  rw [hdb] at hrun
  exact within_upsertPayload hv (Db.owns_of_mem hv (Db.mem_inNamespace.mpr ⟨hr, hk.1⟩)) hrun

theorem within_upsertPrepared {e : Engine} {item : Prepared} (hv : t.db.Valid)
    (h : upsertPrepared e w item t = .ok (id, t')) : Within e.ns t.db t'.db := by
  obtain ⟨updatedAt, t₁, h₁, h⟩ := StateExcept.bind_eq_ok h
  obtain ⟨now, t₂, h₂, h⟩ := StateExcept.bind_eq_ok h
  obtain ⟨u, t₃, h₃, h₄⟩ := StateExcept.bind_eq_ok h
  obtain ⟨rfl, rfl⟩ := Prod.mk.inj (Except.ok.inj h₁)
  obtain ⟨rfl, rfl⟩ := Prod.mk.inj (Except.ok.inj h₂)
  obtain ⟨gap, hrun, -⟩ := execute_ok h₃
  have hfile : Within e.ns t.db t₃.db := within_upsertFile hv hrun
  exact hfile.trans (within_storePayload hfile.valid h₄)

theorem within_importRowInTx {row : FullRow} (hv : t.db.Valid)
    (h : importRowInTx w ns row t = .ok (id, t')) : Within ns t.db t'.db := by
  unfold importRowInTx at h
  cases huse : useValueOfRecord row.lastAccessedAt row.updatedAt with
  | none =>
    rw [huse] at h
    exact absurd h StateExcept.not_fail_eq_ok
  | some useValue =>
    rw [huse] at h
    obtain ⟨u, t₁, h₁, h₂⟩ := StateExcept.bind_eq_ok h
    obtain ⟨gap, hrun, -⟩ := execute_ok h₁
    have hfile := within_upsertFile hv hrun
    exact hfile.trans (within_storePayload hfile.valid h₂)

/-- A loop stays where its elements stay. -/
theorem within_forEach {α β : Type} {f : α → TxM β}
    (hf : ∀ a b s s', s.db.Valid → f a s = .ok (b, s') → Within ns s.db s'.db) {as : List α}
    {bs : List β} (hv : t.db.Valid) (h : StateExcept.forEach f as t = .ok (bs, t')) :
    Within ns t.db t'.db :=
  StateExcept.forEach_ok (fun _ _ s => Within ns t.db s.db)
    (fun _ _ a b s s' hs hstep => hs.trans (hf a b s s' hs.valid hstep)) as [] [] bs t t'
    (.refl ns hv) h

/-- Deleting ids of the namespace, chunk by chunk. -/
theorem within_deleteChunks {idChunks : List (List ℕ)} {us : List Unit} (hv : t.db.Valid)
    (hown : ∀ id ∈ idChunks.flatten, t.db.Owns ns id)
    (h : StateExcept.forEach (deleteIds w) idChunks t = .ok (us, t')) : Within ns t.db t'.db := by
  refine (StateExcept.forEach_ok (fun done _ s => (∀ id ∈ done.flatten, t.db.Owns ns id) →
    Within ns t.db s.db ∧ ∀ r ∈ s.db.files, r ∈ t.db.files) ?_ idChunks [] [] us t t'
      (fun _ => ⟨.refl ns hv, fun _ hr => hr⟩) h hown).1
  intro done _ ids _ s s' hs hstep hdone
  rw [List.flatten_append] at hdone
  obtain ⟨hwithin, hsub⟩ := hs fun id hid => hdone id (List.mem_append_left _ hid)
  rw [deleteIds_ok hstep]
  refine ⟨hwithin.trans (within_deleteFiles hwithin.valid fun r hr hgone => ?_), fun r hr => ?_⟩
  · have hid : r.id ∈ ids := by simpa using hgone
    exact (hdone r.id (List.mem_append_right _ (by simpa using hid))).2 r (hsub r hr) rfl
  · exact hsub r (Sql.mem_deleteFiles.mp hr).1

theorem within_evictLru {n : ℕ} {protectedIds : List ℕ} {paths : List String} (hv : t.db.Valid)
    (h : evictLru w ns n protectedIds t = .ok (paths, t')) : Within ns t.db t'.db := by
  obtain ⟨candidates, t₁, h₁, h⟩ := StateExcept.bind_eq_ok h
  obtain ⟨us, hloop, -⟩ := StateExcept.map_eq_ok h
  obtain ⟨rfl, hdb, -⟩ := select_ok h₁
  rw [← hdb] at hv ⊢
  refine within_deleteChunks hv (fun id hid => ?_) hloop
  rw [flatten_chunks (by decide)] at hid
  obtain ⟨r, hr, rfl⟩ := List.mem_map.mp hid
  have hcandidate := List.mem_of_mem_filter (List.mem_of_mem_take hr)
  have hmem := (mem_sortBy Sql.useKey).mp ((Sql.limitRows_isPrefix _ _).subset hcandidate)
  exact Db.owns_of_mem hv (hdb ▸ hmem)

theorem within_enforceMaxEntries {e : Engine} {ids : List ℕ} {evicted : List String}
    (hv : t.db.Valid) (h : enforceMaxEntries e w ids t = .ok (evicted, t')) :
    Within e.ns t.db t'.db := by
  unfold enforceMaxEntries at h
  cases hmax : e.maxEntries with
  | none =>
    rw [hmax] at h
    obtain ⟨-, rfl⟩ := StateExcept.pure_eq_ok h
    exact .refl e.ns hv
  | some maxEntries =>
    rw [hmax] at h
    obtain ⟨count, t₁, hcount, h⟩ := StateExcept.bind_eq_ok h
    obtain ⟨-, hdb, -⟩ := select_ok hcount
    rw [← hdb] at hv ⊢
    split_ifs at h
    · obtain ⟨-, rfl⟩ := StateExcept.pure_eq_ok h
      exact .refl e.ns hv
    · exact within_evictLru hv h

theorem within_deleteByPath {b : Bool} (hv : t.db.Valid)
    (h : deleteByPath w ns path t = .ok (b, t')) : Within ns t.db t'.db := by
  rw [(deleteByPath_ok h).2]
  exact within_deleteFiles hv fun r _ hgone => (of_decide_eq_true hgone).1

theorem within_deletePathsInTx {paths : List String} {n : ℕ} (hv : t.db.Valid)
    (h : deletePathsInTx w ns paths t = .ok (n, t')) : Within ns t.db t'.db := by
  obtain ⟨removed, hloop, -⟩ := StateExcept.map_eq_ok h
  exact within_forEach (fun _ _ _ _ hs hstep => within_deleteByPath hs hstep) hv hloop

end Functions

/-! ## Transactions -/

section Transactions

variable {α : Type} {ns : String} {w : World} {db : Db} {body : TxM α}

theorem within_autocommit (hv : db.Valid)
    (hbody : ∀ t a t', t.db = db → body t = .ok (a, t') → Within ns t.db t'.db) :
    Within ns db (autocommit body db).2 := by
  rcases autocommit_cases body db with ⟨a, t, hrun, h⟩ | ⟨err, hrun, -⟩
  · rw [hrun]
    exact hbody ⟨db, 0, 0⟩ a t rfl h
  · rw [hrun]
    exact .refl ns hv

theorem within_transaction (hv : db.Valid)
    (hbody : ∀ t a t', t.db.Valid → body t = .ok (a, t') → Within ns t.db t'.db) :
    Within ns db (transaction w body db).2 := by
  rcases transaction_cases (w := w) body db with ⟨a, t₀, t, hrun, rfl, -, h⟩ | ⟨err, hrun⟩
  · rw [hrun]
    exact hbody t₀ a t hv h
  · rw [hrun]
    exact .refl ns hv

end Transactions

/-! ## Calls -/

section Calls

variable {T : Type} {e : Engine} {w : World} {db : Db}

/-- The transaction of a write : it stores entries or imports rows, and returns a value that
depends on their number. -/
inductive StoreBody (e : Engine) (w : World) {α : Type} : TxM (α × List ℕ) → Prop
  | upserts (items : List Prepared) (g : ℕ → α) : StoreBody e w
      (StateExcept.forEach (upsertPrepared e w) items >>= fun ids => pure (g ids.length, ids))
  | imports (rows : List FullRow) (g : ℕ → α) :
    StoreBody e w (importRowsInTx w e.ns rows >>= fun ids => pure (g ids.length, ids))

/-- A write ends before its transaction, alike on every database, or it is a transaction of
stores. -/
inductive Write.Form (e : Engine) (w : World) (write : Write T) : Prop
  | early (result : Except Error (Reply T)) (eq : ∀ db, write.call e w db = ⟨result, db, [], []⟩)
  | stores {α : Type} (body : TxM (α × List ℕ)) (storeBody : StoreBody e w body) (reply : α → Reply T)
      (eq : ∀ db, write.call e w db = (boundedWrite e w body db).map reply)

theorem importBounded_form (write : Write T) {rows : List FullRow}
    (h : ∀ db, write.call e w db = (importBounded e w rows db).map .count) : write.Form e w := by
  cases hnil : rows.isEmpty with
  | true =>
    refine .early (.ok (.count 0)) fun db => ?_
    rw [h, importBounded, if_pos hnil]
    rfl
  | false =>
    have hnot : ¬rows.isEmpty = true := by simp [hnil]
    cases hcheck : (do
        checkBound e rows
        checkRecency rows
        checkDistinct e "records" "entries" (rows.map FullRow.path) : Except Error Unit) with
    | error err =>
      refine .early (.error err) fun db => ?_
      rw [h, importBounded, if_neg hnot]
      simp only [hcheck]
      rfl
    | ok u =>
      refine .stores _ (.imports rows fun _ => rows.length) .count fun db => ?_
      rw [h, importBounded, if_neg hnot]
      simp only [hcheck]

theorem Write.form (write : Write T) : write.Form e w := by
  by_cases hro : e.readOnly = true
  · refine .early (.error .readOnly) fun db => ?_
    cases write with
    | set src path payload => rw [call, LocalCache.set, if_pos hro]; rfl
    | batchSet src items => rw [call, LocalCache.batchSet, if_pos hro]; rfl
    | importEntries src records => rw [call, LocalCache.importEntries, if_pos hro]; rfl
    | importFrom source => exact congrArg (Outcome.map _) (if_pos hro)
  cases write with
  | set src path payload =>
    cases hocc : occupy src path with
    | error err =>
      refine .early (.error err.2) fun db => ?_
      rw [call, LocalCache.set, if_neg hro]
      simp only [hocc]
      rfl
    | ok p =>
      obtain ⟨canonical, pathStr, metadata⟩ := p
      cases hencode : src.encode pathStr payload with
      | error err =>
        refine .early (.error err) fun db => ?_
        rw [call, LocalCache.set, if_neg hro]
        simp only [hocc, hencode]
        rfl
      | ok encoded =>
        refine .stores _ (.upserts [⟨pathStr, metadata, encoded⟩] fun _ => ()) (fun _ => .unit)
          fun db => ?_
        rw [call, LocalCache.set, if_neg hro]
        simp only [hocc, hencode]
        rw [StateExcept.forEach_singleton_map]
  | batchSet src items =>
    cases hcheck : checkDistinct e "items" "paths"
        ((batchOccupying src items).map Occupying.pathStr) with
    | error err =>
      refine .early (.error err) fun db => ?_
      rw [call, LocalCache.batchSet, if_neg hro]
      simp only [hcheck]
      rfl
    | ok u =>
      refine .stores _ (.upserts (batchPrepared src items) fun n => ⟨n,
        (batchFailed src items).map fun item => (item.path, item.error)⟩) .batch fun db => ?_
      rw [call, LocalCache.batchSet, if_neg hro]
      simp only [hcheck]
  | importEntries src records =>
    cases hrows : records.mapM (ExportRecord.toFullRow src) with
    | error err =>
      refine .early (.error err) fun db => ?_
      rw [call, LocalCache.importEntries, if_neg hro]
      simp only [hrows]
      rfl
    | ok rows =>
      have hcall : ∀ db, (Write.importEntries src records).call e w db =
          (importBounded e w rows db).map .count := fun db => by
        rw [call, LocalCache.importEntries, if_neg hro]
        simp only [hrows]
      exact importBounded_form _ hcall
  | importFrom source =>
    cases source with
    | error err =>
      exact .early (.error err) fun db => congrArg (Outcome.map _) (if_neg hro)
    | ok rows =>
      exact importBounded_form _ fun db => congrArg (Outcome.map _) (if_neg hro)

theorem StoreBody.within {α : Type} {body : TxM (α × List ℕ)} (h : StoreBody e w body) {t t' : Tx}
    {r : α × List ℕ} (hv : t.db.Valid) (hrun : body t = .ok (r, t')) : Within e.ns t.db t'.db := by
  cases h with
  | upserts items g =>
    obtain ⟨ids, hall, -⟩ := StateExcept.map_eq_ok hrun
    exact within_forEach (fun _ _ _ _ hs hstep => within_upsertPrepared hs hstep) hv hall
  | imports rows g =>
    obtain ⟨ids, hall, -⟩ := StateExcept.map_eq_ok hrun
    exact within_forEach (fun _ _ _ _ hs hstep => within_importRowInTx hs hstep) hv hall

theorem within_boundedWrite {α : Type} {body : TxM (α × List ℕ)} (h : StoreBody e w body)
    (hv : db.Valid) : Within e.ns db (boundedWrite e w body db).db := by
  rcases boundedWrite_inv (e := e) (w := w) body db with
    ⟨a, ids, t₀, t, evicted, t', rfl, hwrite, hevict, heq⟩ | ⟨err, heq⟩
  · rw [heq]
    have hstored := h.within hv hwrite
    exact hstored.trans (within_enforceMaxEntries hstored.valid hevict)
  · rw [heq]
    exact .refl e.ns hv

theorem Write.within (write : Write T) (hv : db.Valid) :
    Within e.ns db (write.call e w db).db := by
  rcases write.form (e := e) (w := w) with ⟨result, heq⟩ | ⟨body, hbody, reply, heq⟩
  · rw [heq]
    exact .refl e.ns hv
  · rw [heq]
    exact within_boundedWrite hbody hv

theorem within_remove (src : Sources T) (path : Path) (hv : db.Valid) :
    Within e.ns db (LocalCache.remove e src w path db).db := by
  unfold LocalCache.remove
  split_ifs
  · exact .refl _ hv
  cases resolvePathKey src path with
  | error err => exact .refl _ hv
  | ok resolved =>
    refine within_autocommit hv fun t b t' ht h => ?_
    subst ht
    exact within_deleteByPath hv h

theorem within_purgeStaleVersions (hv : db.Valid) :
    Within e.ns db (purgeStaleVersions e w db).db := by
  unfold purgeStaleVersions
  split_ifs
  · exact .refl _ hv
  refine within_autocommit hv fun t n t' ht h => ?_
  subst ht
  obtain ⟨gap, hrun, -⟩ := statement_ok h
  rw [← (Prod.mk.inj (Except.ok.inj hrun)).2]
  exact within_deleteFiles hv fun r _ hgone => (of_decide_eq_true hgone).1

theorem within_recordUseInTx {id : ℕ} (hv : db.Valid) (hown : db.Owns e.ns id) :
    Within e.ns db (autocommit (recordUse w e.ns id) db).2 :=
  within_autocommit hv fun t u t' ht h => by
    subst ht
    exact within_recordUse hv hown (recordUseInTx_ok h)

theorem within_finishRead {row : FileRow} (entry : CacheEntry T) (hv : db.Valid)
    (hown : db.Owns e.ns row.id) : Within e.ns db (finishRead e w row entry db).db := by
  have huse := within_recordUseInTx (w := w) hv hown
  unfold finishRead
  split_ifs
  · exact .refl _ hv
  split <;> next hrun => rwa [hrun] at huse

theorem within_finishTouch {row : FileRow} (hv : db.Valid) (hown : db.Owns e.ns row.id) :
    Within e.ns db (finishTouch e w row db).db := by
  have huse := within_recordUseInTx (w := w) hv hown
  unfold finishTouch
  split <;> next hrun => rwa [hrun] at huse

/-! ## Rotations -/

variable {f : Features} {A : Aead} {nonces : ℕ → Option Nonce} {maxRows maxBytes : ℕ}
  {old new : Key}

theorem fileId_of_resealPage : ∀ {n : ℕ} {page : List PayloadPageRow} {updates : List PayloadRow},
    resealPage f A nonces old new n page = .ok updates →
      updates.map PayloadRow.fileId = page.map (·.fileId)
  | _, [], _, h => by
    obtain rfl := Except.ok.inj h
    rfl
  | n, row :: page, updates, h => by
    unfold resealPage at h
    simp only [bind, Except.bind, pure, Except.pure] at h
    split at h
    · exact absurd h (by simp)
    · split at h
      · exact absurd h (by simp)
      · next rest hrest =>
        obtain rfl := Except.ok.inj h
        rw [List.map_cons, List.map_cons, fileId_of_resealPage hrest]

theorem within_updatePage {updates : List PayloadRow} {us : List Unit} {t t' : Tx} (hv : t.db.Valid)
    (hown : ∀ u ∈ updates, t.db.Owns e.ns u.fileId)
    (h : StateExcept.forEach (updatePayloadContent w) updates t = .ok (us, t')) :
    Within e.ns t.db t'.db := by
  refine (StateExcept.forEach_ok (fun done _ (s : Tx) =>
    (∀ u : PayloadRow, u ∈ done → t.db.Owns e.ns u.fileId) →
      Within e.ns t.db s.db ∧ Rekeyed t.db s.db) ?_ updates [] [] us t t'
        (fun _ => ⟨.refl e.ns hv, .refl t.db⟩) h hown).1
  intro done _ u _ s s' hs hstep hdone
  obtain ⟨hwithin, hrekeyed⟩ := hs fun u hu => hdone u (List.mem_append_left _ hu)
  obtain ⟨gap, hrun, -⟩ := execute_ok hstep
  rw [← Except.ok.inj hrun]
  have hu := (hdone u (by simp)).of_rekeyed hrekeyed
  exact ⟨hwithin.trans (within_updatePayload hwithin.valid hu),
    hrekeyed.trans (rekeyed_updatePayload u s.db)⟩

theorem owns_of_loadPayloadPage {after : String} {page : List PayloadPageRow} {t t' : Tx}
    (hv : t.db.Valid) (h : loadPayloadPage e w maxRows maxBytes after t = .ok (page, t')) :
    t'.db = t.db ∧ ∀ row ∈ page, t.db.Owns e.ns row.fileId := by
  obtain ⟨rows, hselect, rfl⟩ := StateExcept.map_eq_ok h
  obtain ⟨rfl, hdb, -⟩ := select_ok hselect
  refine ⟨hdb, fun row hrow => ?_⟩
  have hread := (Sql.limitRows_isPrefix _ _).subset ((takePage_isPrefix maxBytes 0 _).subset hrow)
  rw [mem_sortBy] at hread
  obtain ⟨file, hfile, hjoin⟩ := List.mem_filterMap.mp (List.mem_of_mem_filter hread)
  obtain ⟨p, -, hid, rfl⟩ := (joinPayload_eq_some hv).mp hjoin
  rw [hid]
  exact Db.owns_of_mem hv hfile

theorem within_rotatePages : ∀ (fuel : ℕ) (after : String) (total : ℕ) {t t' : Tx} {r : Option ℕ},
    t.db.Valid → rotatePages f A nonces e w maxRows maxBytes old new fuel after total t = .ok (r, t') →
      Within e.ns t.db t'.db
  | 0, _, _, _, _, _, hv, h => by
    obtain ⟨-, rfl⟩ := StateExcept.pure_eq_ok h
    exact .refl e.ns hv
  | fuel + 1, after, total, t, t', r, hv, h => by
    obtain ⟨page, t₁, hload, h⟩ := StateExcept.bind_eq_ok h
    obtain ⟨hdb, hown⟩ := owns_of_loadPayloadPage hv hload
    rw [← hdb] at hv hown ⊢
    cases hlast : page.getLast? with
    | none =>
      rw [hlast] at h
      obtain ⟨-, rfl⟩ := StateExcept.pure_eq_ok h
      exact .refl e.ns hv
    | some last =>
      rw [hlast] at h
      obtain ⟨updates, t₂, hpure, hrest⟩ := StateExcept.bind_eq_ok h
      obtain ⟨us, t₃, hupdate, hpages⟩ := StateExcept.bind_eq_ok hrest
      obtain ⟨hreseal, rfl⟩ := StateExcept.ofExcept_eq_ok hpure
      have hupdates : ∀ u ∈ updates, t₂.db.Owns e.ns u.fileId := by
        intro u hu
        have hmem := List.mem_map_of_mem (f := PayloadRow.fileId) hu
        rw [fileId_of_resealPage hreseal] at hmem
        obtain ⟨row, hrow, hid⟩ := List.mem_map.mp hmem
        rw [← hid]
        exact hown row hrow
      have hpage := within_updatePage hv hupdates hupdate
      exact hpage.trans (within_rotatePages fuel _ _ hpage.valid hpages)

theorem within_rotateEncryptionKey {fuel : ℕ} {newKey : List UInt8} {o : RotationOutcome}
    (hv : db.Valid)
    (h : rotateEncryptionKey f A nonces e w maxRows maxBytes fuel newKey db = some o) :
    Within e.ns db o.db := by
  rcases rotateEncryptionKey_inv h with heq | ⟨old, new, t₀, total, t, rfl, hpages, heq⟩
  · rw [heq]
    exact .refl e.ns hv
  · rw [heq]
    exact within_rotatePages fuel "" 0 hv hpages

end Calls

/-! ## Parts of a call -/

section Parts

variable {T : Type} {e : Engine} {host : Host T} {env : Env T} {db : Db}

/-- The ids a call may still use. -/
def QueryPhase.ids : QueryPhase T → List ℕ
  | .filling f => f.rest.map CandidateRow.id
  | _ => []

@[inherit_doc QueryPhase.ids]
def Ongoing.ids : Ongoing T → List ℕ
  | .found row | .loaded row _ | .touching row => [row.id]
  | .querying _ phase => phase.ids
  | .cleaning _ => []

theorem Call.start_within (call : Call T) (hv : db.Valid) :
    Within e.ns db (call.start e host env db).db := by
  have hrefl : Within e.ns db db := .refl e.ns hv
  cases call with
  | write w => exact w.within hv
  | remove path => exact within_remove env.src path hv
  | get path | getIfFresh path | touch path =>
    rw [Call.start, (Part.ofFound_db _).1]
    exact hrefl
  | query q =>
    rw [Call.start]
    cases QueryPhase.start host.query env.src e q <;> exact hrefl
  | cleanupMissingFiles size =>
    rw [Call.start]
    split_ifs <;> exact hrefl
  | cleanupExpired size =>
    rw [Call.start]
    split_ifs
    · exact hrefl
    · cases e.ttl <;> exact hrefl
  | purgeStaleVersions => exact within_purgeStaleVersions hv
  | rotateEncryptionKey nonces maxRows maxBytes newKey =>
    rw [Call.start]
    split
    · exact hrefl
    · next o ho => exact within_rotateEncryptionKey hv ho

theorem Cleaning.next_within (c : Cleaning) (commits : ℕ) (hv : db.Valid) :
    Within e.ns db (c.next e env commits db).db := by
  rcases c.next_db commits with hkept | ⟨paths, hdeleted⟩
  · rw [hkept]
    exact .refl e.ns hv
  · rw [hdeleted]
    exact within_transaction hv fun _ _ _ ht h => within_deletePathsInTx ht h

theorem Ongoing.next_within {ongoing : Ongoing T} (commits : ℕ) (hv : db.Valid)
    (hown : ∀ id ∈ ongoing.ids, db.Owns e.ns id) :
    Within e.ns db (ongoing.next e host env commits db).db := by
  have hrefl : Within e.ns db db := .refl e.ns hv
  cases ongoing with
  | found row =>
    rw [Ongoing.next]
    rcases loadEntry env.src env.world row db with err | _ | entry <;> exact hrefl
  | loaded row entry => exact within_finishRead entry hv (hown row.id List.mem_cons_self)
  | touching row => exact within_finishTouch hv (hown row.id List.mem_cons_self)
  | querying q phase =>
    rw [Ongoing.next]
    rcases (autocommit (phase.step host.query env.src e env.world q) db).1 with err | phase' | report <;>
      exact hrefl
  | cleaning c => exact c.next_within commits hv

/-! ## The ids a part leaves its call with -/

theorem ids_finishFilling {q : Query} {f : Filling T} {phase : QueryPhase T}
    (h : finishFilling q f = .inl phase) : phase.ids = f.rest.map CandidateRow.id := by
  unfold finishFilling at h
  split_ifs at h
  rw [← Sum.inl.inj h]
  rfl

/-- A candidate of a page is among those read. -/
theorem ids_startFilling {q : Query} {fields : List String}
    {rows : List (CandidateRow × List (Option F64))} {phase : QueryPhase T}
    (h : startFilling q fields rows = .inl phase) :
    ∀ id ∈ phase.ids, ∃ row ∈ rows, row.1.id = id := by
  intro id hid
  rw [ids_finishFilling h] at hid
  obtain ⟨c, hc, rfl⟩ := List.mem_map.mp hid
  obtain ⟨row, hrow, rfl⟩ := List.mem_map.mp hc
  exact ⟨row, (List.perm_insertionSort _ rows).mem_iff.mp hrow, rfl⟩

theorem owns_of_filteredRows {lib : QueryLib T} {ns : String} {filters : PreparedPathFilters}
    {r : FileRow} (hv : db.Valid) (h : r ∈ Sql.filteredRows lib ns filters db) : db.Owns ns r.id :=
  Db.owns_of_mem hv (Db.mem_inNamespace.mpr (mem_filteredRows h))

theorem QueryPhase.step_owns {lib : QueryLib T} {src : Sources T} {w : World} {q : Query}
    {phase phase' : QueryPhase T} {t : Tx} (hv : db.Valid)
    (hown : ∀ id ∈ phase.ids, db.Owns e.ns id)
    (h : phase.step lib src e w q ⟨db, 0, 0⟩ = .ok (.inl phase', t)) :
    ∀ id ∈ phase'.ids, db.Owns e.ns id := by
  cases phase with
  | planning filters selectFields whereFields =>
    obtain ⟨allJson, -, heq⟩ := StateExcept.map_eq_ok h
    rw [← Sum.inl.inj heq]
    exact fun id hid => absurd hid List.not_mem_nil
  | planned filters plan =>
    cases plan with
    | tier1 =>
      obtain ⟨rows, hread, heq⟩ := StateExcept.map_eq_ok h
      obtain ⟨rfl, -, -⟩ := select_ok hread
      intro id hid
      obtain ⟨row, hrow, rfl⟩ := ids_startFilling heq id hid
      obtain ⟨c, hc, rfl⟩ := List.mem_map.mp hrow
      obtain ⟨r, hr, rfl⟩ := List.mem_map.mp hc
      exact owns_of_filteredRows hv hr
    | tier2 selectFields whereFields =>
      obtain ⟨rows, hread, heq⟩ := StateExcept.map_eq_ok h
      obtain ⟨hrows, -, -⟩ := selectOrFail_ok hread
      intro id hid
      obtain ⟨row, hrow, rfl⟩ := ids_startFilling heq id hid
      obtain ⟨r, hr, hrowr⟩ := mem_queryCandidatesJsonPushdown hrows hrow
      rw [hrowr]
      exact owns_of_filteredRows hv hr
    | tier3 =>
      obtain ⟨rows, -, heq⟩ := StateExcept.map_eq_ok h
      exact absurd heq (by simp)
  | filling f =>
    obtain ⟨payloads, -, heq⟩ := StateExcept.map_eq_ok h
    intro id hid
    rw [ids_finishFilling heq] at hid
    obtain ⟨c, hc, rfl⟩ := List.mem_map.mp hid
    exact hown c.id (List.mem_map_of_mem (List.mem_of_mem_drop hc))

theorem Cleaning.next_cleaning (c : Cleaning) {commits : ℕ} {ongoing : Ongoing T}
    (h : (c.next e env commits db).next = .inl ongoing) : ∃ c', ongoing = .cleaning c' := by
  unfold Cleaning.next at h
  split at h
  · split at h
    · exact absurd h (by simp [Part.returned])
    · split at h
      · exact absurd h (by simp [Part.returned])
      · exact ⟨_, (Sum.inl.inj h).symm⟩
  · exact ⟨_, (Sum.inl.inj h).symm⟩
  · dsimp only at h
    split at h
    · exact absurd h (by simp [Part.returned])
    · split at h
      · exact absurd h (by simp [Part.returned])
      · exact ⟨_, (Sum.inl.inj h).symm⟩

theorem Ongoing.next_owns {ongoing ongoing' : Ongoing T} (commits : ℕ) (hv : db.Valid)
    (hown : ∀ id ∈ ongoing.ids, db.Owns e.ns id)
    (h : (ongoing.next e host env commits db).next = .inl ongoing') :
    ∀ id ∈ ongoing'.ids, db.Owns e.ns id := by
  cases ongoing with
  | found row =>
    rw [Ongoing.next] at h
    generalize loadEntry env.src env.world row db = found at h
    rcases found with err | _ | entry
    · exact absurd h (by simp [Part.returned])
    · exact absurd h (by simp [Part.returned])
    · rw [← Sum.inl.inj h]
      exact hown
  | loaded row entry => exact absurd h (by simp [Ongoing.next, Part.ofOutcome])
  | touching row => exact absurd h (by simp [Ongoing.next, Part.ofOutcome])
  | querying q phase =>
    rw [Ongoing.next] at h
    rcases autocommit_cases (phase.step host.query env.src e env.world q) db with
      ⟨phase' | report, t, hrun, hbody⟩ | ⟨err, hrun, -⟩
    · rw [hrun] at h
      rw [← Sum.inl.inj h]
      exact QueryPhase.step_owns hv hown hbody
    · rw [hrun] at h
      exact absurd h (by simp [Part.returned])
    · rw [hrun] at h
      exact absurd h (by simp [Part.returned])
  | cleaning c =>
    obtain ⟨c', rfl⟩ := c.next_cleaning h
    exact fun id hid => absurd hid List.not_mem_nil

/-- A call that starts with a row found. -/
theorem ids_ofFound {none_ : Reply T} {next : FileRow → Ongoing T} (hv : db.Valid)
    (hnext : ∀ row, (next row).ids = [row.id]) {found : Except Error (Option FileRow)}
    (hfound : ∀ row, found = .ok (some row) → row ∈ db.files ∧ row.ns = e.ns) {ongoing : Ongoing T}
    (h : (Part.ofFound e db none_ next found).next = .inl ongoing) :
    ∀ id ∈ ongoing.ids, db.Owns e.ns id := by
  rcases found with err | _ | row
  · exact absurd h (by simp [Part.ofFound, Part.returned])
  · exact absurd h (by simp [Part.ofFound, Part.returned])
  · rw [← Sum.inl.inj h, hnext]
    intro id hid
    rw [List.mem_singleton.mp hid]
    exact Db.owns_of_mem hv (Db.mem_inNamespace.mpr (hfound row rfl))

theorem QueryPhase.ids_start {lib : QueryLib T} {src : Sources T} {q : Query} {phase : QueryPhase T}
    (h : QueryPhase.start lib src e q = .ok phase) : phase.ids = [] := by
  simp only [QueryPhase.start, bind, Except.bind, pure, Except.pure] at h
  split at h
  · exact absurd h (by simp)
  · obtain rfl := Except.ok.inj h
    split
    · split_ifs <;> rfl
    · rfl

theorem Call.start_owns {call : Call T} {ongoing : Ongoing T} (hv : db.Valid)
    (h : (call.start e host env db).next = .inl ongoing) :
    ∀ id ∈ ongoing.ids, db.Owns e.ns id := by
  have hnil : ongoing.ids = [] → ∀ id ∈ ongoing.ids, db.Owns e.ns id := fun hids id hid =>
    absurd (hids ▸ hid) List.not_mem_nil
  cases call with
  | write w => exact absurd h (by simp [Call.start, Part.ofWrite, Part.ofOutcome])
  | remove path => exact absurd h (by simp [Call.start, Part.ofOutcome])
  | get path => exact ids_ofFound hv (fun _ => rfl) (fun _ => getFind_ok) h
  | getIfFresh path => exact ids_ofFound hv (fun _ => rfl) (fun _ => getIfFreshFind_ok) h
  | touch path => exact ids_ofFound hv (fun _ => rfl) (fun _ => touchFind_ok) h
  | query q =>
    rw [Call.start] at h
    cases hstart : QueryPhase.start host.query env.src e q with
    | error err =>
      rw [hstart] at h
      exact absurd h (by simp [Part.returned])
    | ok phase =>
      rw [hstart] at h
      refine hnil ?_
      rw [← Sum.inl.inj h]
      exact QueryPhase.ids_start hstart
  | cleanupMissingFiles size =>
    rw [Call.start] at h
    split_ifs at h
    · exact absurd h (by simp [Part.returned])
    · exact hnil (by rw [← Sum.inl.inj h]; rfl)
  | cleanupExpired size =>
    rw [Call.start] at h
    split_ifs at h
    · exact absurd h (by simp [Part.returned])
    · split at h
      · exact absurd h (by simp [Part.returned])
      · exact hnil (by rw [← Sum.inl.inj h]; rfl)
  | purgeStaleVersions => exact absurd h (by simp [Call.start, Part.ofOutcome])
  | rotateEncryptionKey nonces maxRows maxBytes newKey =>
    rw [Call.start] at h
    split at h <;> exact absurd h (by simp)

end Parts

/-! ## Runs -/

namespace Sessions

variable {T : Type} {host : Host T} {s : Sessions T} {ev : SessionEvent T}

/-- The ids that a session's call may still use. -/
def ids (s : Sessions T) (conn : ℕ) : List ℕ :=
  match (s.session conn).call with
  | some ongoing => ongoing.ids
  | none => []

/-- Every id that a call holds is of its session's namespace. -/
structure OwnIds (s : Sessions T) : Prop where
  valid : s.db.Valid
  owns : ∀ conn, ∀ id ∈ s.ids conn, s.db.Owns (s.ns conn) id

theorem ids_of_call {conn : ℕ} {ongoing : Ongoing T} (h : (s.session conn).call = some ongoing) :
    s.ids conn = ongoing.ids := by
  rw [ids, h]

theorem owns_step {ns : String} {id : ℕ} (hv : s.db.Valid) (h : s.db.Owns ns id) :
    (s.step host ev).db.Owns ns id := by
  obtain ⟨wrote, -, heffect | ⟨-, -, hrekeyed⟩⟩ := did_step host s ev hv
  · exact h.of_effect heffect
  · exact h.of_rekeyed hrekeyed

/-- The part an event runs stays within the namespace of its session, and the ids that its call
goes on with are of this namespace. -/
theorem OwnIds.part (h : s.OwnIds) {part : Part T} (hpart : s.part? host ev = some part) :
    Within (s.ns ev.conn) s.db part.db ∧
      ∀ ongoing, part.next = .inl ongoing → ∀ id ∈ ongoing.ids, s.db.Owns (s.ns ev.conn) id := by
  unfold part? at hpart
  split at hpart
  · next call _ _ =>
    obtain rfl := Option.some.inj hpart
    exact ⟨call.start_within h.valid, fun ongoing hnext => Call.start_owns h.valid hnext⟩
  · next ongoing _ hcall =>
    obtain rfl := Option.some.inj hpart
    have hown : ∀ id ∈ ongoing.ids, s.db.Owns (s.ns ev.conn) id := by
      rw [← ids_of_call hcall]
      exact h.owns ev.conn
    exact ⟨ongoing.next_within _ h.valid hown, fun ongoing' hnext =>
      Ongoing.next_owns _ h.valid hown hnext⟩
  · exact absurd hpart (by simp)

/-- A step stays within the namespace of its session. -/
theorem OwnIds.within (h : s.OwnIds) (host : Host T) (ev : SessionEvent T) :
    Within (s.ns ev.conn) s.db (s.step host ev).db := by
  rcases step_cases host s ev with ⟨-, heq⟩ | ⟨part, hpart, heq⟩
  · rw [heq]
    exact .refl _ h.valid
  · rw [heq]
    exact (h.part hpart).1

theorem OwnIds.step (h : s.OwnIds) (host : Host T) (ev : SessionEvent T) :
    (s.step host ev).OwnIds := by
  refine ⟨valid_step h.valid, fun conn id hid => ?_⟩
  rw [ns_step]
  refine owns_step h.valid ?_
  cases hcall : ((s.step host ev).session conn).call with
  | none =>
    rw [ids, hcall] at hid
    exact absurd hid List.not_mem_nil
  | some ongoing =>
    rw [ids_of_call hcall] at hid
    by_cases hconn : conn = ev.conn
    · subst hconn
      rcases call_step hcall with ⟨hcall, -⟩ | ⟨part, hpart, -, hnext⟩
      · exact h.owns ev.conn id (by rwa [ids_of_call hcall])
      · exact (h.part hpart).2 ongoing hnext id hid
    · rw [session_step_of_ne hconn] at hcall
      exact h.owns conn id (by rwa [ids_of_call hcall])

theorem ownIds_init (engines : ℕ → Engine) {db : Db} (hv : db.Valid) :
    (init engines db : Sessions T).OwnIds :=
  ⟨hv, fun _ _ hid => absurd hid List.not_mem_nil⟩

end Sessions

end LocalCache
