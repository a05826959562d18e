import LocalCache.Engine
import LocalCache.Entries

/-!
# Writes on a working database

`Works` says that a database works for a call : no statement fails, and the ids do not run
out. Then an import fails only by its own checks, and a write only by a use value at the
limit, so what such a call refuses is a matter of its arguments.
-/

namespace LocalCache

/-- The ids that `count` statements from the `first` may use up. -/
def idsNeeded (w : World) (first : ℕ) : (count : ℕ) → ℕ
  | 0 => 0
  | count + 1 => w.gap first + 1 + idsNeeded w (first + 1) count

/-- A database that works for a call that stores at most `rows` rows, by three statements
each after its first. -/
structure Works (w : World) (rows : ℕ) (db : Db) : Prop where
  fault : ∀ k, w.fault k = none
  ids : db.seq + idsNeeded w 1 (3 * rows) < 2 ^ 63

/-- Inside a call, ids are left for `rows` rows more. -/
structure Roomy (w : World) (rows : ℕ) (t : Tx) : Prop where
  valid : t.db.Valid
  ids : t.db.seq + idsNeeded w t.statements (3 * rows) < 2 ^ 63

section Statements

variable {w : World} {t : Tx} {db db' : Db} {ns path : String}

theorem statement_of_ok {α : Type} {toError : SqlError → Error}
    {run : ℕ → Db → Except SqlError (α × Db)} {a : α} (hfault : w.fault t.statements = none)
    (hrun : run (w.gap t.statements) t.db = .ok (a, db)) :
    statement w toError run t = .ok (a, ⟨db, t.statements + 1, t.readings⟩) := by
  simp [statement, hfault, hrun]

theorem select_of_fault {α : Type} {run : Db → α} (hfault : w.fault t.statements = none) :
    select w run t = .ok (run t.db, ⟨t.db, t.statements + 1, t.readings⟩) :=
  statement_of_ok hfault rfl

theorem execute_of_ok {toError : SqlError → Error} {run : ℕ → Db → Except SqlError Db}
    (hfault : w.fault t.statements = none) (hrun : run (w.gap t.statements) t.db = .ok db) :
    execute w toError run t = .ok ((), ⟨db, t.statements + 1, t.readings⟩) :=
  statement_of_ok hfault (by rw [hrun]; rfl)

/-- An upsert succeeds with a use value in range and an id left. -/
theorem Sql.upsertFile_of_lt (ns path : String) {gap : ℕ} {c : Sql.FileColumns} {db : Db}
    (hc : c.lastUsedUs < useValueLimit) (hroom : db.seq + gap + 1 < 2 ^ 63) :
    ∃ db', Sql.upsertFile gap ns path c db = .ok db' ∧ db'.seq ≤ db.seq + gap + 1 := by
  unfold Sql.upsertFile
  rw [if_neg (not_le.mpr hc), if_neg (not_le.mpr hroom)]
  cases db.find? ns path with
  | some old => exact ⟨_, rfl, le_rfl⟩
  | none => exact ⟨_, rfl, le_rfl⟩

/-- The statements that follow an upsert succeed. -/
theorem storePayload_of_upserted (content : List UInt8) (encoding : String) {row : FileRow}
    (hfault : ∀ k, w.fault k = none) (hu : Upserted ns path row db t.db) :
    ∃ t', storePayload w ns path content encoding t = .ok (row.id, t') ∧
      t'.statements = t.statements + 2 ∧ t'.db.seq = t.db.seq := by
  have hmem : row ∈ t.db.files := (hu.mem row).mpr (Or.inl rfl)
  have hsel : selectOrFail w (Sql.selectId ns path) t =
      .ok (row.id, ⟨t.db, t.statements + 1, t.readings⟩) := by
    refine statement_of_ok (hfault _) ?_
    rw [Sql.selectId, hu.valid.find?_eq_some.mpr ⟨hmem, hu.hasKey⟩]
    rfl
  have hpay : ∃ db', Sql.upsertPayload ⟨row.id, content, encoding⟩ t.db = .ok db' ∧
      db'.seq = t.db.seq := by
    unfold Sql.upsertPayload
    rw [if_pos (by simpa using ⟨row, hmem, rfl⟩)]
    exact ⟨_, rfl, rfl⟩
  obtain ⟨db', hrun, hseq⟩ := hpay
  exact ⟨_, (StateExcept.bind_of_ok hsel).trans ((StateExcept.bind_of_ok
    (execute_of_ok (hfault _) hrun)).trans rfl), rfl, hseq⟩

/-- The three statements of one row succeed, and leave room for the rows after it. -/
theorem storeRow_of_lt (ns path : String) (toError : SqlError → Error)
    (columns : Db → Sql.FileColumns) (content : List UInt8) (encoding : String) {rows : ℕ}
    (hfault : ∀ k, w.fault k = none) (hroom : Roomy w (rows + 1) t)
    (hc : (columns t.db).lastUsedUs < useValueLimit) :
    ∃ id t', (execute w toError (fun gap db => Sql.upsertFile gap ns path (columns db) db) >>=
        fun _ => storePayload w ns path content encoding) t = .ok (id, t') ∧ Roomy w rows t' := by
  have hids := hroom.ids
  rw [show 3 * (rows + 1) = (3 * rows) + 1 + 1 + 1 by omega, idsNeeded, idsNeeded, idsNeeded] at hids
  have hroom₁ : t.db.seq + w.gap t.statements + 1 < 2 ^ 63 := by omega
  obtain ⟨db₁, hup, hseq⟩ := Sql.upsertFile_of_lt ns path hc hroom₁
  obtain ⟨-, id, hu⟩ := Sql.upsertFile_ok hroom.valid hup
  have hrun : execute w toError (fun gap db => Sql.upsertFile gap ns path (columns db) db) t =
      .ok ((), ⟨db₁, t.statements + 1, t.readings⟩) := execute_of_ok (hfault t.statements) hup
  obtain ⟨t', hstore, hcount, hseq'⟩ := storePayload_of_upserted (w := w)
    (t := ⟨db₁, t.statements + 1, t.readings⟩) content encoding hfault hu
  refine ⟨_, t', (StateExcept.bind_of_ok hrun).trans hstore,
    (storePayload_ok hu hstore).1.valid, ?_⟩
  have hcount' : t'.statements = t.statements + 1 + 1 + 1 := hcount
  have hseq'' : t'.db.seq = db₁.seq := hseq'
  rw [hcount', hseq'']
  omega

end Statements

/-! ## The loops and the transaction -/

section Calls

variable {w : World} {ns : String} {db : Db}

/-- Rows whose recency a use value can hold are imported. -/
theorem total_importRowsInTx {rows : List FullRow} (hfault : ∀ k, w.fault k = none)
    (huse : ∀ row ∈ rows, (useValueOfRecord row.lastAccessedAt row.updatedAt).isSome) :
    StateExcept.Total (Roomy w rows.length) (importRowsInTx w ns rows) fun _ t => t.db.Valid := by
  unfold importRowsInTx
  refine (StateExcept.Total.forEach (I := fun rest done _ t => done ++ rest = rows ∧
    Roomy w rest.length t) ?_ rows [] []).weaken (fun t ht => ⟨rfl, ht⟩) fun _ t ht => ht.2.valid
  rintro done ids row rest t ⟨rfl, hroom⟩
  obtain ⟨useValue, hsome⟩ := Option.isSome_iff_exists.mp (huse row (by simp))
  obtain ⟨id, t', hrun, hroom'⟩ := storeRow_of_lt ns row.path databaseError
    (fun _ => ⟨row.metadata, row.updatedAt, row.payloadVersion, useValue⟩) row.content row.encoding
    hfault hroom (useValueOfRecord_range hsome).2
  refine ⟨id, t', ?_, by simp, hroom'⟩
  rw [importRowInTx, hsome]
  exact hrun

/-- The eviction of a write keeps the payloads of the rows it leaves. -/
theorem enforceMaxEntries_shrunk {e : Engine} {ids : List ℕ} {evicted : List String} {t t' : Tx}
    (hv : t.db.Valid) (h : enforceMaxEntries e w ids t = .ok (evicted, t')) : Shrunk t.db t'.db := by
  unfold enforceMaxEntries at h
  cases hm : e.maxEntries with
  | none =>
    rw [hm] at h
    obtain ⟨-, rfl⟩ := StateExcept.pure_eq_ok h
    exact Shrunk.refl _
  | some maxEntries =>
    rw [hm] at h
    obtain ⟨count, t₁, hcount, h⟩ := StateExcept.bind_eq_ok h
    obtain ⟨-, hdb, -⟩ := select_ok hcount
    split_ifs at h
    · obtain ⟨-, rfl⟩ := StateExcept.pure_eq_ok h
      exact hdb ▸ Shrunk.refl _
    · exact hdb ▸ evictLru_shrunk (hdb.symm ▸ hv) h

theorem total_evictLru (hfault : ∀ k, w.fault k = none) (n : ℕ) (protectedIds : List ℕ) :
    StateExcept.Total (fun _ => True) (evictLru w ns n protectedIds) fun _ _ => True := by
  refine StateExcept.Total.bind (m := fun _ _ => True)
    (fun t _ => ⟨_, _, select_of_fault (hfault _), trivial⟩) fun candidates => ?_
  refine StateExcept.Total.bind (m := fun _ _ => True) ?_
    fun _ => StateExcept.Total.pure fun _ _ => trivial
  exact (StateExcept.Total.forEach (I := fun _ _ _ _ => True)
    (fun _ _ _ _ t _ => ⟨_, _, execute_of_ok (hfault _) rfl, trivial⟩) _ [] []).weaken
      (fun _ _ => trivial) fun _ _ _ => trivial

theorem total_enforceMaxEntries (e : Engine) (hfault : ∀ k, w.fault k = none)
    (protectedIds : List ℕ) :
    StateExcept.Total (fun _ => True) (enforceMaxEntries e w protectedIds) fun _ _ => True := by
  unfold enforceMaxEntries
  cases e.maxEntries with
  | none => exact StateExcept.Total.pure fun _ _ => trivial
  | some maxEntries =>
    refine StateExcept.Total.bind (m := fun _ _ => True)
      (fun t _ => ⟨_, _, select_of_fault (hfault _), trivial⟩) fun count => ?_
    split_ifs
    · exact StateExcept.Total.pure fun _ _ => trivial
    · exact total_evictLru hfault _ _

/-- A transaction whose body succeeds commits. -/
theorem transaction_of_ok {α : Type} {body : TxM α} {a : α} {t : Tx}
    (hfault : ∀ k, w.fault k = none) (h : body ⟨db, 1, 0⟩ = .ok (a, t)) :
    transaction w body db = (.ok a, t.db) := by
  have hbegin : select w (fun _ => ()) ⟨db, 0, 0⟩ = .ok ((), ⟨db, 1, 0⟩) :=
    select_of_fault (hfault _)
  have hcommit : select w (fun _ => ()) t = .ok ((), ⟨t.db, t.statements + 1, t.readings⟩) :=
    select_of_fault (hfault _)
  simp only [transaction, StateExcept.bind_of_ok hbegin, StateExcept.bind_of_ok h,
    StateExcept.bind_of_ok hcommit]
  rfl

theorem Works.roomy {rows : ℕ} (h : Works w rows db) (hv : db.Valid) :
    Roomy w rows ⟨db, 1, 0⟩ := ⟨hv, h.ids⟩

/-- A write that succeeded is committed, with the eviction it triggers. -/
theorem boundedWrite_of_ok {α : Type} (e : Engine) {write : TxM (α × List ℕ)} {a : α}
    {ids : List ℕ} {t : Tx} (hfault : ∀ k, w.fault k = none)
    (hwrite : write ⟨db, 1, 0⟩ = .ok ((a, ids), t)) :
    ∃ evicted t', enforceMaxEntries e w ids t = .ok (evicted, t') ∧
      boundedWrite e w write db = ⟨.ok a, t'.db, evicted, ids⟩ := by
  obtain ⟨evicted, t', hevict, -⟩ := total_enforceMaxEntries e hfault ids t trivial
  refine ⟨evicted, t', hevict, ?_⟩
  have hbody : (do
      let written ← write
      let evicted ← enforceMaxEntries e w written.2
      pure (written, evicted) : TxM ((α × List ℕ) × List String)) ⟨db, 1, 0⟩ =
        .ok (((a, ids), evicted), t') :=
    (StateExcept.bind_of_ok hwrite).trans ((StateExcept.bind_of_ok hevict).trans rfl)
  simp only [boundedWrite, transaction_of_ok hfault hbody]

/-- A write whose loop succeeds is committed. -/
theorem boundedWrite_of_total {α : Type} {e : Engine} {write : TxM (α × List ℕ)}
    {post : α × List ℕ → Tx → Prop} {rows : ℕ} (hworks : Works w rows db) (hv : db.Valid)
    (hwrite : StateExcept.Total (Roomy w rows) write post) :
    ∃ a ids t evicted t', write ⟨db, 1, 0⟩ = .ok ((a, ids), t) ∧ post (a, ids) t ∧
      enforceMaxEntries e w ids t = .ok (evicted, t') ∧
        boundedWrite e w write db = ⟨.ok a, t'.db, evicted, ids⟩ := by
  obtain ⟨⟨a, ids⟩, t, hq, hpost⟩ := hwrite ⟨db, 1, 0⟩ (hworks.roomy hv)
  obtain ⟨evicted, t', hevict, hbounded⟩ := boundedWrite_of_ok e hworks.fault hq
  exact ⟨a, ids, t, evicted, t', hq, hpost, hevict, hbounded⟩

end Calls

end LocalCache
