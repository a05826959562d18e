import LocalCache.Lockstep
import LocalCache.Frames
import Mathlib.Order.WellFounded

/-!
# A namespace up to its row ids

All namespaces of a database draw their row ids from one sequence, so what the others store
decides which ids a namespace gets. `Alike ns f` says that this is all : the rows of `ns` in two
databases are the same, in the same order and with the same payloads, under ids that `f` renames.
`f` is strictly monotone, since the ids decide among entries with equal use values.

Every statement on `ns` keeps this, but for one error : the ids may run out in one of the two
databases only (`IdsExhausted`). Only a statement that stores a new row can fail so, hence the
parameter `lost`.
-/

namespace LocalCache

def FileRow.rename (f : ℕ → ℕ) (r : FileRow) : FileRow := { r with id := f r.id }

def PayloadRow.rename (f : ℕ → ℕ) (p : PayloadRow) : PayloadRow := { p with fileId := f p.fileId }

/-- The ids are used up. -/
def SqlError.IdsExhausted (e : SqlError) : Prop := e = .other "database or disk is full"

@[inherit_doc SqlError.IdsExhausted]
def Error.IdsExhausted (e : Error) : Prop := e = .database "database or disk is full"

/-- The rows of `ns` are the same in both databases, under ids that `f` renames, and so are the
next ids. -/
structure Alike (ns : String) (f : ℕ → ℕ) (db db' : Db) : Prop where
  mono : StrictMono f
  valid : db.Valid
  valid' : db'.Valid
  rows : db'.inNamespace ns = (db.inNamespace ns).map (FileRow.rename f)
  payload : ∀ r ∈ db.inNamespace ns,
    db'.payload? (f r.id) = (db.payload? r.id).map (PayloadRow.rename f)
  next : ∀ k, f (db.seq + k + 1) = db'.seq + k + 1

namespace Alike

variable {ns path : String} {f : ℕ → ℕ} {lost : SqlError → Prop} {db db' : Db}

theorem find? (h : Alike ns f db db') (path : String) :
    db'.find? ns path = (db.find? ns path).map (FileRow.rename f) := by
  rw [Db.find?_eq, Db.find?_eq, h.rows, List.find?_map]
  rfl

theorem length (h : Alike ns f db db') :
    (db'.inNamespace ns).length = (db.inNamespace ns).length := by
  rw [h.rows, List.length_map]

theorem nextUse (h : Alike ns f db db') (now : ℕ) :
    Sql.nextUse now db' ns = Sql.nextUse now db ns := by
  unfold Sql.nextUse Sql.maxUse
  rw [h.rows, List.map_map]
  rfl

theorem seq_le (h : Alike ns f db db') : db.seq ≤ db'.seq := by
  have hle := StrictMono.le_apply h.mono (x := db.seq + 0 + 1)
  rw [h.next 0] at hle
  omega

/-- The payload of an id that is of `ns`, row or not. -/
theorem payload_of_owns (h : Alike ns f db db') {id : ℕ} (hown : db.Owns ns id)
    (hown' : db'.Owns ns (f id)) :
    db'.payload? (f id) = (db.payload? id).map (PayloadRow.rename f) := by
  by_cases hrow : ∃ r ∈ db.files, r.id = id
  · obtain ⟨r, hr, rfl⟩ := hrow
    exact h.payload r (Db.mem_inNamespace.mpr ⟨hr, hown.2 r hr rfl⟩)
  · have hnone : ∀ r ∈ db.files, r.id ≠ id := fun r hr hid => hrow ⟨r, hr, hid⟩
    have hnone' : ∀ r ∈ db'.files, r.id ≠ f id := by
      intro r hr hid
      have hmem := Db.mem_inNamespace.mpr ⟨hr, hown'.2 r hr hid⟩
      rw [h.rows] at hmem
      obtain ⟨q, hq, rfl⟩ := List.mem_map.mp hmem
      exact hnone q (Db.mem_inNamespace.mp hq).1 (h.mono.injective hid)
    rw [Db.payload?_eq_none h.valid hnone, Db.payload?_eq_none h.valid' hnone']
    rfl

/-- Whether an id of `ns` is a row's. -/
theorem any_of_owns (h : Alike ns f db db') {id : ℕ} (hown : db.Owns ns id)
    (hown' : db'.Owns ns (f id)) : (db'.files.any (·.id = f id)) = db.files.any (·.id = id) := by
  rw [Bool.eq_iff_iff, List.any_eq_true, List.any_eq_true]
  simp only [decide_eq_true_eq]
  constructor
  · rintro ⟨r, hr, hid⟩
    have hmem := Db.mem_inNamespace.mpr ⟨hr, hown'.2 r hr hid⟩
    rw [h.rows] at hmem
    obtain ⟨q, hq, rfl⟩ := List.mem_map.mp hmem
    exact ⟨q, (Db.mem_inNamespace.mp hq).1, h.mono.injective hid⟩
  · rintro ⟨r, hr, hid⟩
    have hmem : r.rename f ∈ db'.inNamespace ns := by
      rw [h.rows]
      exact List.mem_map_of_mem (Db.mem_inNamespace.mpr ⟨hr, hown.2 r hr hid⟩)
    exact ⟨r.rename f, (Db.mem_inNamespace.mp hmem).1, congrArg f hid⟩

/-! ## Statements -/

/-- Rewriting rows in both databases, without their ids and keys. -/
theorem mapRows (h : Alike ns f db db') {g g' : FileRow → FileRow} (gap : ℕ)
    (hg : ∀ r ∈ db.files, (g r).id = r.id ∧ (g r).ns = r.ns ∧ (g r).path = r.path)
    (hg' : ∀ r ∈ db'.files, (g' r).id = r.id ∧ (g' r).ns = r.ns ∧ (g' r).path = r.path)
    (hgg : ∀ r ∈ db.inNamespace ns, g' (r.rename f) = (g r).rename f) :
    Alike ns f { db with files := db.files.map g, seq := db.seq + gap }
      { db' with files := db'.files.map g', seq := db'.seq + gap } where
  mono := h.mono
  valid := Sql.valid_map h.valid (fun r hr => (hg r hr).1)
    (fun r hr => Prod.ext (hg r hr).2.1 (hg r hr).2.2) (Nat.le_add_right _ _)
  valid' := Sql.valid_map h.valid' (fun r hr => (hg' r hr).1)
    (fun r hr => Prod.ext (hg' r hr).2.1 (hg' r hr).2.2) (Nat.le_add_right _ _)
  rows := by
    rw [Db.inNamespace_map fun r hr => (hg' r hr).2.1,
      Db.inNamespace_map fun r hr => (hg r hr).2.1, h.rows, List.map_map, List.map_map]
    exact List.map_congr_left hgg
  payload r hr := by
    rw [Db.inNamespace_map fun r hr => (hg r hr).2.1] at hr
    obtain ⟨q, hq, rfl⟩ := List.mem_map.mp hr
    rw [(hg q (Db.mem_inNamespace.mp hq).1).1]
    exact h.payload q hq
  next k := by
    show f (db.seq + gap + k + 1) = db'.seq + gap + k + 1
    rw [Nat.add_assoc db.seq, Nat.add_assoc db'.seq]
    exact h.next (gap + k)

/-- A row more, under the next ids. -/
theorem append (h : Alike ns f db db') {gap : ℕ} {c : Sql.FileColumns} {seq seq' : ℕ}
    (hseq : seq = db.seq + gap + 1) (hseq' : seq' = db'.seq + gap + 1)
    (hv : Db.Valid { db with files := db.files ++ [c.toRow seq ns path], seq := seq })
    (hv' : Db.Valid { db' with files := db'.files ++ [c.toRow seq' ns path], seq := seq' }) :
    Alike ns f { db with files := db.files ++ [c.toRow seq ns path], seq := seq }
      { db' with files := db'.files ++ [c.toRow seq' ns path], seq := seq' } where
  mono := h.mono
  valid := hv
  valid' := hv'
  rows := by
    have hid : f seq = seq' := by rw [hseq, hseq', h.next gap]
    have hone : ∀ id, ([c.toRow id ns path].filter fun r => decide (r.ns = ns)) =
        [c.toRow id ns path] := fun id => by simp [Sql.FileColumns.toRow]
    have hrows := h.rows
    simp only [Db.inNamespace] at hrows
    simp only [Db.inNamespace, List.filter_append, hone, List.map_append, hrows, ← hid]
    rfl
  payload r hr := by
    rw [Db.mem_inNamespace, List.mem_append, List.mem_singleton] at hr
    rcases hr with ⟨hr | rfl, hns⟩
    · exact h.payload r (Db.mem_inNamespace.mpr ⟨hr, hns⟩)
    · -- a new id has no payload yet
      have hnone : db.payload? seq = none := Db.payload?_eq_none h.valid fun r hr hid => by
        have hle := h.valid.seq r hr
        omega
      have hnone' : db'.payload? (f seq) = none := Db.payload?_eq_none h.valid' fun r hr hid => by
        have hle := h.valid'.seq r hr
        rw [hseq, h.next gap] at hid
        omega
      show db'.payload? (f seq) = (db.payload? seq).map _
      rw [hnone, hnone']
      rfl
  next k := by
    show f (seq + k + 1) = seq' + k + 1
    rw [hseq, hseq']
    have hnext := h.next (gap + 1 + k)
    rwa [show db.seq + (gap + 1 + k) + 1 = db.seq + gap + 1 + k + 1 by omega,
      show db'.seq + (gap + 1 + k) + 1 = db'.seq + gap + 1 + k + 1 by omega] at hnext

/-- How two statements that return nothing ended. -/
def Ran (ns : String) (f : ℕ → ℕ) (lost : SqlError → Prop) (x y : Except SqlError Db) : Prop :=
  Mirrors (Alike ns f) id lost (x.map fun db => ((), db)) (y.map fun db => ((), db))

theorem Ran.mono {lost' : SqlError → Prop} {x y : Except SqlError Db} (h : Ran ns f lost x y)
    (hlost : ∀ e, lost e → lost' e) : Ran ns f lost' x y := Mirrors.mono h hlost

theorem upsert_keeps (hv : db.Valid) {old : FileRow} (hfind : db.find? ns path = some old)
    {c : Sql.FileColumns} : ∀ r ∈ db.files,
      (if Db.HasKey ns path r then c.toRow old.id ns path else r).id = r.id ∧
        (if Db.HasKey ns path r then c.toRow old.id ns path else r).ns = r.ns ∧
          (if Db.HasKey ns path r then c.toRow old.id ns path else r).path = r.path := by
  intro r hr
  split_ifs with hk
  · obtain ⟨hold, hk'⟩ := hv.find?_eq_some.mp hfind
    rw [hv.eq_of_hasKey hold hr hk' hk]
    exact ⟨rfl, hk.1.symm, hk.2.symm⟩
  · exact ⟨rfl, rfl, rfl⟩

theorem upsertFile (h : Alike ns f db db') (gap : ℕ) (path : String) (c : Sql.FileColumns) :
    Ran ns f SqlError.IdsExhausted (Sql.upsertFile gap ns path c db)
      (Sql.upsertFile gap ns path c db') := by
  have hok : ∀ {db db'' : Db}, db.Valid → Sql.upsertFile gap ns path c db = .ok db'' → db''.Valid :=
    fun hv hup => (Sql.upsertFile_ok hv hup).2.choose_spec.valid
  unfold Ran Sql.upsertFile at *
  by_cases hc : useValueLimit ≤ c.lastUsedUs
  · rw [if_pos hc, if_pos hc]
    exact .error _
  simp only [if_neg hc] at hok ⊢
  have hle := h.seq_le
  by_cases hfull' : 2 ^ 63 ≤ db'.seq + gap + 1
  · rw [if_pos hfull']
    exact .lost _ rfl
  have hfull : ¬2 ^ 63 ≤ db.seq + gap + 1 := by omega
  rw [if_neg hfull, if_neg hfull', h.find? path]
  cases hfind : db.find? ns path with
  | some old =>
    have hfind' : db'.find? ns path = some (old.rename f) := by rw [h.find?, hfind]; rfl
    refine .ok () (h.mapRows (gap + 1) (upsert_keeps h.valid hfind) (upsert_keeps h.valid' hfind')
      fun r hr => ?_)
    by_cases hk : Db.HasKey ns path r
    · rw [if_pos hk, if_pos (show Db.HasKey ns path (r.rename f) from hk)]
      rfl
    · rw [if_neg hk, if_neg (show ¬Db.HasKey ns path (r.rename f) from hk)]
  | none =>
    have hfind' : db'.find? ns path = none := by rw [h.find?, hfind]; rfl
    simp only [Option.map_none]
    refine .ok () (h.append rfl rfl (hok h.valid ?_) (hok h.valid' ?_))
    · rw [if_neg hfull, hfind]
    · rw [if_neg hfull', hfind']

theorem upsertPayload (h : Alike ns f db db') {id : ℕ} (hrow : ∃ r ∈ db.inNamespace ns, r.id = id)
    (content : List UInt8) (encoding : String) :
    Ran ns f lost (Sql.upsertPayload ⟨id, content, encoding⟩ db)
      (Sql.upsertPayload ⟨f id, content, encoding⟩ db') := by
  obtain ⟨r, hr, rfl⟩ := hrow
  have hr' : r.rename f ∈ db'.inNamespace ns := by
    rw [h.rows]
    exact List.mem_map_of_mem hr
  have hany : db.files.any (·.id = r.id) = true := by
    simpa using ⟨r, (Db.mem_inNamespace.mp hr).1, rfl⟩
  have hany' : db'.files.any (·.id = f r.id) = true := by
    simpa using ⟨r.rename f, (Db.mem_inNamespace.mp hr').1, rfl⟩
  have hup : Sql.upsertPayload ⟨r.id, content, encoding⟩ db = .ok _ := if_pos hany
  have hup' : Sql.upsertPayload ⟨f r.id, content, encoding⟩ db' = .ok _ := if_pos hany'
  rw [hup, hup']
  obtain ⟨hself, hothers⟩ := Sql.payload?_upsertPayload hup
  obtain ⟨hself', hothers'⟩ := Sql.payload?_upsertPayload hup'
  refine .ok () ⟨h.mono, (Sql.upsertPayload_ok h.valid hup).2.2,
    (Sql.upsertPayload_ok h.valid' hup').2.2, h.rows, fun q hq => ?_, h.next⟩
  by_cases hid : q.id = r.id
  · rw [hid, hself, hself']
    rfl
  · rw [hothers q.id hid, hothers' (f q.id) (h.mono.injective.ne hid)]
    exact h.payload q hq

theorem deleteFiles (h : Alike ns f db db') {gone gone' : FileRow → Bool}
    (hgone : ∀ r ∈ db.inNamespace ns, gone' (r.rename f) = gone r) :
    Alike ns f (Sql.deleteFiles gone db) (Sql.deleteFiles gone' db') := by
  have hmap : (Sql.deleteFiles gone' db').inNamespace ns =
      ((Sql.deleteFiles gone db).inNamespace ns).map (FileRow.rename f) := by
    rw [Sql.inNamespace_deleteFiles, Sql.inNamespace_deleteFiles, h.rows, List.filter_map]
    congr 1
    refine List.filter_congr fun r hr => ?_
    rw [Function.comp_apply, hgone r hr]
  refine ⟨h.mono, Sql.valid_deleteFiles h.valid gone, Sql.valid_deleteFiles h.valid' gone', hmap,
    fun r hr => ?_, h.next⟩
  have hr' : r.rename f ∈ (Sql.deleteFiles gone' db').inNamespace ns := by
    rw [hmap]
    exact List.mem_map_of_mem hr
  have hold : r ∈ db.inNamespace ns := by
    rw [Sql.inNamespace_deleteFiles] at hr
    exact List.mem_of_mem_filter hr
  rw [(Sql.shrunk_deleteFiles h.valid gone).payload r (Db.mem_inNamespace.mp hr).1]
  exact ((Sql.shrunk_deleteFiles h.valid' gone').payload _ (Db.mem_inNamespace.mp hr').1).trans
    (h.payload r hold)

theorem recordUse (h : Alike ns f db db') (now : ℕ) {id : ℕ} (hown : db.Owns ns id)
    (hown' : db'.Owns ns (f id)) :
    Ran ns f lost (Sql.recordUse now ns id db) (Sql.recordUse now ns (f id) db') := by
  unfold Ran Sql.recordUse
  rw [h.nextUse, h.any_of_owns hown hown']
  split_ifs with hfull
  · exact .error _
  · refine .ok () (h.mapRows 0 (fun r _ => ?_) (fun r _ => ?_) fun r _ => ?_)
    · split_ifs <;> exact ⟨rfl, rfl, rfl⟩
    · split_ifs <;> exact ⟨rfl, rfl, rfl⟩
    · have hiff : (r.rename f).id = f id ↔ r.id = id := h.mono.injective.eq_iff
      by_cases hid : r.id = id
      · rw [if_pos hid, if_pos (hiff.mpr hid)]
        rfl
      · rw [if_neg hid, if_neg (fun h' => hid (hiff.mp h'))]

theorem updatePayload (h : Alike ns f db db') (p : PayloadRow) :
    Alike ns f (Sql.updatePayload p db) (Sql.updatePayload (p.rename f) db') := by
  refine ⟨h.mono, (rekeyed_updatePayload p db).valid h.valid,
    (rekeyed_updatePayload (p.rename f) db').valid h.valid', h.rows, fun r hr => ?_, h.next⟩
  rw [Sql.payload?_updatePayload, Sql.payload?_updatePayload, h.payload r hr, Option.map_map, Option.map_map]
  congr 1
  funext q
  have hiff : (q.rename f).fileId = (p.rename f).fileId ↔ q.fileId = p.fileId :=
    h.mono.injective.eq_iff
  simp only [Function.comp_apply]
  by_cases hid : q.fileId = p.fileId
  · rw [if_pos hid, if_pos (hiff.mpr hid)]
  · rw [if_neg hid, if_neg (fun h' => hid (hiff.mp h'))]

end Alike

/-! ## Statements of a connection -/

/-- Two connections inside the same call. -/
structure Tied (ns : String) (f : ℕ → ℕ) (t t' : Tx) : Prop where
  alike : Alike ns f t.db t'.db
  statements : t'.statements = t.statements
  readings : t'.readings = t.readings

/-- How two parts of the same call ended. -/
abbrev Follows (ns : String) (f : ℕ → ℕ) {α β : Type} (φ : α → β) (lost : Error → Prop) :
    Except Error (α × Tx) → Except Error (β × Tx) → Prop := Mirrors (Tied ns f) φ lost

namespace Tied

variable {ns : String} {f : ℕ → ℕ} {t t' : Tx} {w : World} {α β γ δ : Type} {φ : α → β}
  {lost : Error → Prop}

theorem statement (h : Tied ns f t t') {toError : SqlError → Error}
    {run : ℕ → Db → Except SqlError (α × Db)} {run' : ℕ → Db → Except SqlError (β × Db)}
    (hrun : ∀ gap, Mirrors (Alike ns f) φ (fun e => lost (toError e)) (run gap t.db)
      (run' gap t'.db)) :
    Follows ns f φ lost (statement w toError run t) (statement w toError run' t') := by
  unfold LocalCache.statement
  rw [h.statements, h.readings]
  cases w.fault t.statements with
  | some text => exact .error _
  | none =>
    dsimp only
    have hend := hrun (w.gap t.statements)
    generalize run (w.gap t.statements) t.db = x at hend ⊢
    generalize run' (w.gap t.statements) t'.db = y at hend ⊢
    cases hend with
    | ok a halike => exact .ok a ⟨halike, rfl, rfl⟩
    | error e => exact .error _
    | lost x he => exact .lost _ he

theorem select (h : Tied ns f t t') {run : Db → α} {run' : Db → β}
    (hrun : run' t'.db = φ (run t.db)) :
    Follows ns f φ lost (select w run t) (select w run' t') :=
  h.statement fun _ => .of_eq hrun h.alike

/-- A read whose value is used up in what follows it. -/
theorem select_map (h : Tied ns f t t') {run : Db → α} {run' : Db → β} {g : α → γ} {k : β → δ}
    {ψ : γ → δ} (hrun : k (run' t'.db) = ψ (g (run t.db))) :
    Follows ns f ψ lost ((LocalCache.select w run >>= fun a => pure (g a)) t)
      ((LocalCache.select w run' >>= fun b => pure (k b)) t') := by
  have hend : Follows ns f (fun _ => run' t'.db) lost (LocalCache.select w run t)
    (LocalCache.select w run' t') := h.select rfl
  refine hend.bind fun a s s' ha _ hs => .of_eq ?_ hs
  rw [(select_ok ha).1]
  exact hrun

theorem selectOrFail (h : Tied ns f t t') {run : Db → Except SqlError α}
    {run' : Db → Except SqlError β} (hrun : run' t'.db = (run t.db).map φ) :
    Follows ns f φ lost (selectOrFail w run t) (selectOrFail w run' t') := by
  refine h.statement fun _ => ?_
  rw [hrun]
  cases run t.db with
  | error e => exact .error _
  | ok a => exact .ok a h.alike

theorem execute (h : Tied ns f t t') {toError : SqlError → Error}
    {run run' : ℕ → Db → Except SqlError Db}
    (hrun : ∀ gap, Alike.Ran ns f (fun e => lost (toError e)) (run gap t.db) (run' gap t'.db)) :
    Follows ns f id lost (execute w toError run t) (execute w toError run' t') :=
  h.statement hrun

theorem nowUs (h : Tied ns f t t') : Follows ns f id lost (nowUs w t) (nowUs w t') :=
  .of_eq (by rw [h.readings]; rfl) ⟨h.alike, h.statements, congrArg (· + 1) h.readings⟩

theorem nowSecs (h : Tied ns f t t') : Follows ns f id lost (nowSecs w t) (nowSecs w t') :=
  .of_eq (by rw [h.readings]; rfl) h

end Tied

/-! ## The repository's functions -/

section Repository

variable {ns : String} {f : ℕ → ℕ} {t t' : Tx} {w : World} {lost : Error → Prop}

theorem Alike.selectId {db db' : Db} (h : Alike ns f db db') (path : String) :
    Sql.selectId ns path db' = (Sql.selectId ns path db).map f := by
  unfold Sql.selectId
  rw [h.find?]
  cases db.find? ns path <;> rfl

theorem Tied.storePayload (h : Tied ns f t t') (path : String) (content : List UInt8)
    (encoding : String) : Follows ns f f lost (storePayload w ns path content encoding t)
      (storePayload w ns path content encoding t') := by
  refine (h.selectOrFail (h.alike.selectId path)).bind fun id s s' hid _ hs => ?_
  obtain ⟨hsel, hdb, -⟩ := selectOrFail_ok hid
  obtain ⟨r, hr, hk, hrid⟩ := Sql.selectId_ok h.alike.valid hsel
  have hrow : ∃ r ∈ s.db.inNamespace ns, r.id = id :=
    ⟨r, Db.mem_inNamespace.mpr ⟨hdb ▸ hr, hk.1⟩, hrid⟩
  exact (hs.execute fun _ => hs.alike.upsertPayload hrow content encoding).map fun _ => rfl

theorem Tied.upsertInTx (h : Tied ns f t t') (path : String) (metadata : FileMetadata)
    (content : List UInt8) (encoding : String) (payloadVersion : UInt32) :
    Follows ns f f Error.IdsExhausted (upsertInTx w ns path metadata content encoding payloadVersion t)
      (upsertInTx w ns path metadata content encoding payloadVersion t') := by
  refine h.nowSecs.bind fun updatedAt s s' _ _ hs => hs.nowUs.bind fun now u u' _ _ hu => ?_
  refine (hu.execute fun gap => ?_).bind fun _ v v' _ _ hv => hv.storePayload path content encoding
  rw [hu.alike.nextUse]
  exact (hu.alike.upsertFile gap path _).mono fun e he => he ▸ rfl

theorem Tied.importRowInTx (h : Tied ns f t t') (row : FullRow) :
    Follows ns f f Error.IdsExhausted (importRowInTx w ns row t) (importRowInTx w ns row t') := by
  unfold LocalCache.importRowInTx
  cases useValueOfRecord row.lastAccessedAt row.updatedAt with
  | none => exact .error _
  | some useValue =>
    exact (h.execute fun gap => (h.alike.upsertFile gap row.path _).mono fun e he => he ▸ rfl).bind
      fun _ v v' _ _ hv => hv.storePayload row.path row.content row.encoding

theorem Tied.recordUse (h : Tied ns f t t') {k : ℕ} (hown : t.db.Owns ns k)
    (hown' : t'.db.Owns ns (f k)) :
    Follows ns f id lost (recordUse w ns k t) (recordUse w ns (f k) t') := by
  refine h.nowUs.bind fun now s s' hnow hnow' hs => hs.execute fun _ => ?_
  obtain ⟨-, rfl⟩ := Prod.mk.inj (Except.ok.inj hnow)
  obtain ⟨-, rfl⟩ := Prod.mk.inj (Except.ok.inj hnow')
  exact hs.alike.recordUse now hown hown'

theorem mem_map_iff {f : ℕ → ℕ} (hf : Function.Injective f) {ids : List ℕ} {k : ℕ} :
    f k ∈ ids.map f ↔ k ∈ ids := by
  simp [hf.eq_iff]

theorem Tied.deleteIds (h : Tied ns f t t') (ids : List ℕ) :
    Follows ns f id lost (deleteIds w ids t) (deleteIds w (ids.map f) t') :=
  h.execute fun _ => .ok () (h.alike.deleteFiles fun _ _ =>
    decide_eq_decide.mpr (mem_map_iff h.alike.mono.injective))

theorem useKey_rename (hf : StrictMono f) (r q : FileRow) :
    Sql.useKey (r.rename f) ≤ Sql.useKey (q.rename f) ↔ Sql.useKey r ≤ Sql.useKey q := by
  simp only [Sql.useKey, Prod.Lex.toLex_le_toLex, FileRow.rename, hf.le_iff_le]

theorem Alike.evictionCandidates {db db' : Db} (h : Alike ns f db db') (limit : ℕ) :
    Sql.evictionCandidates ns limit db' = (Sql.evictionCandidates ns limit db).map (FileRow.rename f) := by
  rw [Sql.evictionCandidates, Sql.evictionCandidates, h.rows,
    sortBy_map fun r _ q _ => useKey_rename h.mono r q, Sql.limitRows_map]

theorem Alike.pathsAfter {db db' : Db} (h : Alike ns f db db') (after : String) (limit : ℕ) :
    Sql.pathsAfter ns after limit db' = (Sql.pathsAfter ns after limit db).map (FileRow.rename f) := by
  rw [Sql.pathsAfter, Sql.pathsAfter, h.rows, List.filter_map,
    sortBy_map fun r _ q _ => Iff.rfl, Sql.limitRows_map]
  rfl

theorem Tied.evictLru (h : Tied ns f t t') (n : ℕ) (protectedIds : List ℕ) :
    Follows ns f id lost (evictLru w ns n protectedIds t) (evictLru w ns n (protectedIds.map f) t') := by
  have hdedup : (protectedIds.map f).dedup = protectedIds.dedup.map f :=
    List.dedup_map_of_injective h.alike.mono.injective _
  unfold LocalCache.evictLru
  simp only [hdedup, List.length_map]
  refine (h.select (h.alike.evictionCandidates _)).bind fun rows s s' _ _ hs => ?_
  have hselected : ((rows.map (FileRow.rename f)).filter fun r =>
      decide (r.id ∉ protectedIds.dedup.map f)).take n =
        ((rows.filter fun r => decide (r.id ∉ protectedIds.dedup)).take n).map (FileRow.rename f) := by
    rw [List.filter_map, List.map_take]
    congr 2
    refine List.filter_congr fun r _ => ?_
    exact decide_eq_decide.mpr (not_congr (mem_map_iff h.alike.mono.injective))
  have hids : ∀ rows : List FileRow, (rows.map (FileRow.rename f)).map FileRow.id =
      (rows.map FileRow.id).map f := fun rows => by
    rw [List.map_map, List.map_map]
    rfl
  rw [hselected, hids, chunks_map idListChunk f]
  have hloop := Mirrors.forEach (fun ids s s' hs =>
      (Tied.deleteIds hs ids : Follows ns f id lost (LocalCache.deleteIds w ids s) _))
    (chunks idListChunk (((rows.filter fun r => decide (r.id ∉ protectedIds.dedup)).take n).map
      FileRow.id)) hs
  refine hloop.map fun _ => ?_
  rw [List.map_map]
  rfl

theorem Tied.enforceMaxEntries (h : Tied ns f t t') {e : Engine} (he : e.ns = ns) (ids : List ℕ) :
    Follows ns f id lost (enforceMaxEntries e w ids t) (enforceMaxEntries e w (ids.map f) t') := by
  subst he
  unfold LocalCache.enforceMaxEntries
  cases e.maxEntries with
  | none => exact .pure rfl h
  | some maxEntries =>
    refine (h.select (φ := id) h.alike.length).bind fun count s s' _ _ hs => ?_
    dsimp only [id]
    split_ifs
    · exact .pure rfl hs
    · exact hs.evictLru _ ids

theorem Tied.deleteByPath (h : Tied ns f t t') (path : String) :
    Follows ns f id lost (deleteByPath w ns path t) (deleteByPath w ns path t') := by
  refine h.statement fun _ => .of_eq ?_ (h.alike.deleteFiles fun _ _ => rfl)
  rw [h.alike.find?, Option.isSome_map]
  rfl

theorem Tied.deletePathsInTx (h : Tied ns f t t') (paths : List String) :
    Follows ns f id lost (deletePathsInTx w ns paths t) (deletePathsInTx w ns paths t') := by
  have hloop := Mirrors.forEach (χ := id) (fun path s s' hs =>
    (Tied.deleteByPath hs path : Follows ns f id lost (LocalCache.deleteByPath w ns path s) _)) paths h
  rw [List.map_id] at hloop
  exact hloop.map fun removed => by rw [List.map_id]; rfl

end Repository

/-! ## Transactions -/

/-- How two calls on a database ended, with their results and the databases after them. -/
def Ended (ns : String) (f : ℕ → ℕ) {α β : Type} (φ : α → β) (lost : Error → Prop)
    (x : Except Error α × Db) (y : Except Error β × Db) : Prop :=
  (∃ e, lost e ∧ y.1 = .error e) ∨ (y.1 = x.1.map φ ∧ Alike ns f x.2 y.2)

section Transactions

variable {ns : String} {f : ℕ → ℕ} {w : World} {db db' : Db} {α β : Type} {φ : α → β}
  {lost : Error → Prop} {body : TxM α} {body' : TxM β}

theorem Alike.tied (h : Alike ns f db db') (statements readings : ℕ) :
    Tied ns f ⟨db, statements, readings⟩ ⟨db', statements, readings⟩ := ⟨h, rfl, rfl⟩

theorem Alike.autocommit (h : Alike ns f db db')
    (hbody : Follows ns f φ lost (body ⟨db, 0, 0⟩) (body' ⟨db', 0, 0⟩)) :
    Ended ns f φ lost (autocommit body db) (autocommit body' db') := by
  unfold LocalCache.autocommit
  generalize body ⟨db, 0, 0⟩ = x at hbody ⊢
  generalize body' ⟨db', 0, 0⟩ = y at hbody ⊢
  cases hbody with
  | ok a hs => exact Or.inr ⟨rfl, hs.alike⟩
  | error e => exact Or.inr ⟨rfl, h⟩
  | lost x he => exact Or.inl ⟨_, he, rfl⟩

theorem Alike.transaction (h : Alike ns f db db')
    (hbody : ∀ t t', t.db = db → t'.db = db' → Tied ns f t t' →
      Follows ns f φ lost (body t) (body' t')) :
    Ended ns f φ lost (transaction w body db) (transaction w body' db') := by
  refine h.autocommit (((h.tied 0 0).select (φ := id) rfl).bind fun _ s s' hs₁ hs₂ hs => ?_)
  refine (hbody s s' (select_ok hs₁).2.1 (select_ok hs₂).2.1 hs).bind fun a u u' _ _ hu => ?_
  exact (hu.select (φ := id) rfl).bind fun _ v v' _ _ hv => .of_eq rfl hv

/-- Without an error of its own, the second call ends as the first. -/
theorem Ended.of_never {x : Except Error α × Db} {y : Except Error β × Db}
    (h : Ended ns f φ (fun _ => False) x y) : y.1 = x.1.map φ ∧ Alike ns f x.2 y.2 :=
  h.resolve_left fun ⟨_, he, _⟩ => he

theorem Ended.eq_of_never {x y : Except Error α × Db} (h : Ended ns f id (fun _ => False) x y) :
    y.1 = x.1 ∧ Alike ns f x.2 y.2 :=
  ⟨h.of_never.1.trans (congrFun Except.map_id x.1), h.of_never.2⟩

end Transactions

end LocalCache
