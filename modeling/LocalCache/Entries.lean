import LocalCache.Repository

/-!
# Entries : a file row with its payload

An entry is a row of `files` and its row of `payloads`. A write stores both (`Stored`), a
deletion takes both, by the cascade, and the payloads of all other rows stay as they were. So
every file keeps its payload at every commit (`Db.Whole`).
-/

namespace LocalCache

/-- The payload of the row `id`. -/
def Db.payload? (db : Db) (id : ℕ) : Option PayloadRow :=
  db.payloads.find? fun p => p.fileId = id

/-- An upsert of `row` with its payload : those of the other rows are as they were. -/
structure Stored (ns path : String) (row : FileRow) (content : List UInt8) (encoding : String)
    (db db' : Db) : Prop where
  upserted : Upserted ns path row db db'
  payload : db'.payload? row.id = some ⟨row.id, content, encoding⟩
  others : ∀ id, id ≠ row.id → db'.payload? id = db.payload? id

/-- The rows of `db'` are rows of `db`, with their payloads. -/
structure Shrunk (db db' : Db) : Prop where
  files : ∀ r ∈ db'.files, r ∈ db.files
  payload : ∀ r ∈ db'.files, db'.payload? r.id = db.payload? r.id

theorem Shrunk.refl (db : Db) : Shrunk db db := ⟨fun _ h => h, fun _ _ => rfl⟩

theorem Shrunk.trans {db₀ db₁ db₂ : Db} (h : Shrunk db₀ db₁) (h' : Shrunk db₁ db₂) :
    Shrunk db₀ db₂ where
  files r hr := h.files r (h'.files r hr)
  payload r hr := (h'.payload r hr).trans (h.payload r (h'.files r hr))

/-- Every file row has its payload. -/
structure Db.Whole (db : Db) : Prop where
  valid : db.Valid
  payload : ∀ r ∈ db.files, ∃ p, db.payload? r.id = some p

/-! ## What each statement does to payloads -/

section Statements

variable {db db' : Db} {ns path : String} {id : ℕ} {p : PayloadRow}

theorem Db.payload?_eq_some (hv : db.Valid) :
    db.payload? id = some p ↔ p ∈ db.payloads ∧ p.fileId = id := by
  constructor
  · intro h
    exact ⟨List.mem_of_find?_eq_some h, by simpa using List.find?_some h⟩
  · rintro ⟨hp, rfl⟩
    cases hf : db.payload? p.fileId with
    | none => exact absurd (List.find?_eq_none.mp hf p hp) (by simp)
    | some q =>
      have hq : q.fileId = p.fileId := by simpa using List.find?_some hf
      rw [List.inj_on_of_nodup_map hv.payloadIds (List.mem_of_find?_eq_some hf) hp hq]

theorem Sql.payloads_upsertFile {gap : ℕ} {c : Sql.FileColumns}
    (h : Sql.upsertFile gap ns path c db = .ok db') : db'.payloads = db.payloads := by
  obtain ⟨-, ⟨old, -, rfl⟩ | ⟨-, rfl⟩⟩ := Sql.upsertFile_cases h <;> rfl

theorem Sql.payload?_upsertPayload (h : Sql.upsertPayload p db = .ok db') :
    db'.payload? p.fileId = some p ∧ ∀ id, id ≠ p.fileId → db'.payload? id = db.payload? id := by
  unfold Sql.upsertPayload at h
  split_ifs at h
  obtain rfl := Except.ok.inj h
  refine ⟨?_, fun id hid => ?_⟩
  · rw [Db.payload?, List.find?_append, List.find?_eq_none.mpr]
    · simp
    · intro q hq
      simpa using (List.mem_filter.mp hq).2
  · simp only [Db.payload?, List.find?_append, List.find?_filter, List.find?_singleton,
      decide_eq_false (Ne.symm hid), Bool.false_eq_true, if_false, Option.or_none]
    congr 1
    funext q
    by_cases hq : q.fileId = id
    · simp [hq, hid]
    · simp [hq]

theorem Sql.shrunk_deleteFiles (hv : db.Valid) (gone : FileRow → Bool) :
    Shrunk db (Sql.deleteFiles gone db) where
  files r hr := (Sql.mem_deleteFiles.mp hr).1
  payload r hr := by
    obtain ⟨hmem, hkept⟩ := Sql.mem_deleteFiles.mp hr
    simp only [Db.payload?, Sql.deleteFiles, List.find?_filter]
    congr 1
    funext q
    by_cases hq : q.fileId = r.id
    · have hnot : ∀ f ∈ db.files, gone f = true → f.id ≠ r.id := by
        rintro f hf hgone hid
        rw [hv.eq_of_id hf hmem hid, hkept] at hgone
        exact absurd hgone (by simp)
      simpa [hq] using hnot
    · simp [hq]

theorem Stored.whole {row : FileRow} {content : List UInt8} {encoding : String}
    (h : Stored ns path row content encoding db db') (hw : db.Whole) : db'.Whole := by
  refine ⟨h.upserted.valid, fun r hr => ?_⟩
  by_cases hid : r.id = row.id
  · exact ⟨_, hid ▸ h.payload⟩
  · rcases (h.upserted.mem r).mp hr with rfl | ⟨hr, -⟩
    · exact absurd rfl hid
    · rw [h.others r.id hid]
      exact hw.payload r hr

theorem Shrunk.whole (h : Shrunk db db') (hv : db'.Valid) (hw : db.Whole) : db'.Whole :=
  ⟨hv, fun r hr => h.payload r hr ▸ hw.payload r (h.files r hr)⟩

end Statements

/-! ## What each function does to payloads -/

section Functions

variable {w : World} {t t' : Tx} {ns path : String} {id : ℕ}

theorem storePayload_stored {content : List UInt8} {encoding : String} {row : FileRow} {db : Db}
    (hu : Upserted ns path row db t.db) (hp : t.db.payloads = db.payloads)
    (h : storePayload w ns path content encoding t = .ok (id, t')) :
    Stored ns path row content encoding db t'.db ∧ row.id = id ∧ t'.readings = t.readings := by
  obtain ⟨hu', hid, hread⟩ := storePayload_ok hu h
  refine ⟨?_, hid, hread⟩
  obtain ⟨fileId, t₁, hsel, h⟩ := StateExcept.bind_eq_ok h
  obtain ⟨_, t₂, hpay, h⟩ := StateExcept.bind_eq_ok h
  obtain ⟨rfl, rfl⟩ := StateExcept.pure_eq_ok h
  obtain ⟨-, hdb, -⟩ := selectOrFail_ok hsel
  obtain ⟨gap, hrun, -⟩ := execute_ok hpay
  obtain ⟨hself, hothers⟩ := Sql.payload?_upsertPayload hrun
  obtain rfl := hid
  refine ⟨hu', hself, fun k hk => (hothers k hk).trans ?_⟩
  rw [Db.payload?, Db.payload?, hdb, hp]

/-- A write stores a row with the newest use value of its namespace, and its payload. -/
theorem upsertInTx_stored {metadata : FileMetadata} {content : List UInt8} {encoding : String}
    {payloadVersion : UInt32} (hv : t.db.Valid)
    (h : upsertInTx w ns path metadata content encoding payloadVersion t = .ok (id, t')) :
    Stored ns path (Sql.FileColumns.toRow ⟨metadata, w.nowSecs t.readings, payloadVersion,
      Sql.nextUse (w.nowUs t.readings) t.db ns⟩ id ns path) content encoding t.db t'.db ∧
        t'.readings = t.readings + 1 := by
  obtain ⟨updatedAt, t₁, h₁, h⟩ := StateExcept.bind_eq_ok h
  obtain ⟨now, t₂, h₂, h⟩ := StateExcept.bind_eq_ok h
  obtain ⟨_, t₃, h₃, h₄⟩ := StateExcept.bind_eq_ok h
  obtain ⟨rfl, rfl⟩ := Prod.mk.inj (Except.ok.inj h₁)
  obtain ⟨rfl, rfl⟩ := Prod.mk.inj (Except.ok.inj h₂)
  obtain ⟨gap, hup, hread⟩ := execute_ok h₃
  obtain ⟨-, rowId, hu⟩ := Sql.upsertFile_ok hv hup
  obtain ⟨hs, hid, hread'⟩ := storePayload_stored hu (Sql.payloads_upsertFile hup) h₄
  obtain rfl : rowId = id := hid
  exact ⟨hs, hread'.trans hread⟩

/-- An import stores a row as its record has it. -/
theorem importRowInTx_stored {row : FullRow} (hv : t.db.Valid)
    (h : importRowInTx w ns row t = .ok (id, t')) :
    ∃ useValue, useValueOfRecord row.lastAccessedAt row.updatedAt = some useValue ∧
      Stored ns row.path (Sql.FileColumns.toRow ⟨row.metadata, row.updatedAt, row.payloadVersion,
        useValue⟩ id ns row.path) row.content row.encoding t.db t'.db := by
  unfold importRowInTx at h
  cases huse : useValueOfRecord row.lastAccessedAt row.updatedAt with
  | none =>
    rw [huse] at h
    exact absurd h StateExcept.not_fail_eq_ok
  | some useValue =>
    rw [huse] at h
    obtain ⟨_, t₁, h₁, h⟩ := StateExcept.bind_eq_ok h
    obtain ⟨gap, hup, -⟩ := execute_ok h₁
    obtain ⟨-, rowId, hu⟩ := Sql.upsertFile_ok hv hup
    obtain ⟨hs, hid, -⟩ := storePayload_stored hu (Sql.payloads_upsertFile hup) h
    obtain rfl : rowId = id := hid
    exact ⟨useValue, rfl, hs⟩

theorem shrunk_deleteChunks {idChunks : List (List ℕ)} {us : List Unit} (hv : t.db.Valid)
    (h : StateExcept.forEach (deleteIds w) idChunks t = .ok (us, t')) : Shrunk t.db t'.db := by
  refine (StateExcept.forEach_ok (fun _ _ s => s.db.Valid ∧ Shrunk t.db s.db) ?_ idChunks [] []
    us t t' ⟨hv, Shrunk.refl t.db⟩ h).2
  rintro _ _ ids _ s s' ⟨hs, hshrunk⟩ hstep
  rw [deleteIds_ok hstep]
  exact ⟨Sql.valid_deleteFiles hs _, hshrunk.trans (Sql.shrunk_deleteFiles hs _)⟩

theorem evictLru_shrunk {n : ℕ} {protectedIds : List ℕ} {paths : List String} (hv : t.db.Valid)
    (h : evictLru w ns n protectedIds t = .ok (paths, t')) : Shrunk t.db t'.db := by
  obtain ⟨candidates, t₁, h₁, h⟩ := StateExcept.bind_eq_ok h
  obtain ⟨us, t₂, h₂, h⟩ := StateExcept.bind_eq_ok h
  obtain ⟨rfl, rfl⟩ := StateExcept.pure_eq_ok h
  obtain ⟨-, hdb, -⟩ := select_ok h₁
  exact hdb ▸ shrunk_deleteChunks (hdb.symm ▸ hv) h₂

end Functions

end LocalCache
