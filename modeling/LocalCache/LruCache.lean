import LocalCache.LeastRecent
import LocalCache.BatchSequence
import LocalCache.Eviction
import LocalCache.Frames

/-!
# The cache as a recency list

Over the tables a namespace is a list of entries in the order of their use (`Db.entries`). Every
part of every call, but an import, does one `RecencyOp` to that list : a write stores its entries
and cuts the list to the engine's bound, a read hit and a touch use an entry, a deletion drops
entries, a rotation revises their payloads. All else leaves the list. So a run of sessions, one
statement at a time, is a run of operations on recency lists (`entries_of_run`).

An import gives its entries a place by the times of their records, so it is no such operation.

From the list it follows what the order of use is for : an entry used last stays cached until as
many others as the bound were written or used (`cached_of_run`).
-/

namespace LocalCache

/-! ## What the statements do to the entries -/

section Statements

variable {db db' : Db} {ns : String}

/-- What a lookup finds is the entry of its path. -/
theorem Db.entry_find? (hv : db.Valid) (ns path : String) :
    (db.find? ns path).map db.entry = (db.entries ns).find? fun a => a.path = path := by
  cases hfind : db.find? ns path with
  | none =>
    refine (List.find?_eq_none.mpr fun a ha => ?_).symm
    obtain ⟨r, hr, rfl⟩ := List.mem_map.mp ha
    obtain ⟨hmem, hns⟩ := Db.mem_byUse.mp hr
    exact fun hpath => Db.find?_eq_none.mp hfind r hmem ⟨hns, of_decide_eq_true hpath⟩
  | some r =>
    obtain ⟨hmem, hns, hpath⟩ := hv.find?_eq_some.mp hfind
    have hentry : db.entry r ∈ db.entries ns := List.mem_map_of_mem (Db.mem_byUse.mpr ⟨hmem, hns⟩)
    cases hother : (db.entries ns).find? fun a => a.path = path with
    | none => simpa [entry, hpath] using List.find?_eq_none.mp hother _ hentry
    | some a =>
      have hpath' : a.path = path := by simpa using List.find?_some hother
      exact congrArg some (List.inj_on_of_nodup_map (hv.nodup_entries_path ns) hentry
        (List.mem_of_find?_eq_some hother) (hpath.trans hpath'.symm))

theorem Untouched.byUse (h : Untouched ns db db') : db'.byUse ns = db.byUse ns := by
  rw [Db.byUse, Db.byUse, h.rows]

/-- Other namespaces keep their entries. -/
theorem Untouched.entries (h : Untouched ns db db') : db'.entries ns = db.entries ns := by
  rw [Db.entries, h.byUse]
  refine List.map_congr_left fun r hr => ?_
  rw [Db.entry, Db.entry, h.payload r (Db.mem_inNamespace.mpr (Db.mem_byUse.mp hr))]

/-- Deleting rows drops their entries, when what is deleted can be told from the entries. -/
theorem entries_deleteFiles (hv : db.Valid) {gone : FileRow → Bool} {goneEntry : CachedEntry → Bool}
    (hgone : ∀ r ∈ db.files, r.ns = ns → gone r = goneEntry (db.entry r)) :
    (Sql.deleteFiles gone db).entries ns =
      (RecencyOp.drop goneEntry).run CachedEntry.path (db.entries ns) := by
  have hbyUse : (Sql.deleteFiles gone db).byUse ns = (db.byUse ns).filter fun r => !gone r := by
    refine eq_of_pairwise_lt Sql.useKey ((Sql.valid_deleteFiles hv gone).pairwise_byUse ns)
      ((hv.pairwise_byUse ns).sublist List.filter_sublist) fun r => ?_
    rw [Db.mem_byUse, Sql.mem_deleteFiles, List.mem_filter, Db.mem_byUse]
    simp only [Bool.not_eq_true', and_right_comm]
  rw [(Sql.shrunk_deleteFiles hv gone).entries, hbyUse, RecencyOp.run, Db.entries, List.filter_map]
  congr 1
  refine List.filter_congr fun r hr => ?_
  obtain ⟨hmem, hns⟩ := Db.mem_byUse.mp hr
  rw [Function.comp_apply, hgone r hmem hns]

/-- A path is that of one row of its namespace. -/
theorem Db.Valid.filter_byUse_path (hv : db.Valid) {r : FileRow} (hr : r ∈ db.files) :
    (db.byUse r.ns).filter (fun q => q.path = r.path) = [r] := by
  refine eq_of_pairwise_lt Sql.useKey ((hv.pairwise_byUse r.ns).sublist List.filter_sublist)
    (List.pairwise_singleton _ _) fun q => ?_
  rw [List.mem_filter, Db.mem_byUse, List.mem_singleton, decide_eq_true_eq]
  constructor
  · rintro ⟨⟨hq, hns⟩, hpath⟩
    exact hv.eq_of_hasKey hq hr ⟨hns, hpath⟩ ⟨rfl, rfl⟩
  · rintro rfl
    exact ⟨⟨hr, rfl⟩, rfl⟩

/-- A use makes its row the newest. -/
theorem byUse_recordUse {now : ℕ} (hv : db.Valid) {r : FileRow} (hr : r ∈ db.files)
    (h : Sql.recordUse now r.ns r.id db = .ok db') :
    db'.byUse r.ns = (db.byUse r.ns).filter (fun q => q.path ≠ r.path) ++
      [{ r with lastUsedUs := Sql.nextUse now db r.ns }] := by
  obtain ⟨-, hv', -, hfiles⟩ := Sql.recordUse_ok hv h
  refine eq_of_pairwise_lt Sql.useKey (hv'.pairwise_byUse r.ns) ?_ fun q => ?_
  · refine List.pairwise_append.mpr ⟨(hv.pairwise_byUse r.ns).sublist List.filter_sublist,
      List.pairwise_singleton _ _, fun a ha b hb => ?_⟩
    rw [List.mem_singleton.mp hb]
    obtain ⟨ha, hns⟩ := Db.mem_byUse.mp (List.mem_of_mem_filter ha)
    exact Prod.Lex.toLex_lt_toLex.mpr (Or.inl (hns ▸ Sql.lt_nextUse ha))
  · rw [Db.mem_byUse, hfiles, List.mem_append, List.mem_filter, Db.mem_byUse, List.mem_singleton,
      List.mem_map]
    constructor
    · rintro ⟨⟨a, ha, rfl⟩, hns⟩
      by_cases hid : a.id = r.id
      · rw [if_pos hid, hv.eq_of_id ha hr hid]
        exact Or.inr rfl
      · rw [if_neg hid] at hns ⊢
        refine Or.inl ⟨⟨ha, hns⟩, ?_⟩
        have hpath : a.path ≠ r.path := fun hpath =>
          hid (congrArg FileRow.id (hv.eq_of_hasKey ha hr ⟨hns, hpath⟩ ⟨rfl, rfl⟩))
        simpa using hpath
    · rintro (⟨⟨ha, hns⟩, hpath⟩ | rfl)
      · refine ⟨⟨q, ha, if_neg fun hid => ?_⟩, hns⟩
        rw [hv.eq_of_id ha hr hid] at hpath
        simp at hpath
      · exact ⟨⟨r, hr, if_pos rfl⟩, rfl⟩

/-- The use of the row with this id, if there is one. -/
def Db.useOp (db : Db) (id : ℕ) : RecencyOp CachedEntry String :=
  match db.files.find? fun r => r.id = id with
  | some r => .use r.path
  | none => .skip

/-- Recording a use moves the entry of the row to the end. -/
theorem entries_recordUse {now id : ℕ} (hv : db.Valid) (hown : db.Owns ns id)
    (h : Sql.recordUse now ns id db = .ok db') :
    db'.entries ns = (db.useOp id).run CachedEntry.path (db.entries ns) := by
  obtain ⟨-, -, -, hfiles⟩ := Sql.recordUse_ok hv h
  have hpayload : ∀ id, db'.payload? id = db.payload? id := fun id => by
    unfold Sql.recordUse at h
    split_ifs at h
    rw [← Except.ok.inj h]
    rfl
  unfold Db.useOp
  cases hfind : db.files.find? fun r => r.id = id with
  | none =>
    have hrow : ∀ r ∈ db.files, r.id ≠ id := by simpa using List.find?_eq_none.mp hfind
    have hsame : db'.files = db.files := by
      rw [hfiles]
      exact (List.map_congr_left fun r hr => if_neg (hrow r hr)).trans (List.map_id' _)
    have hns : db'.inNamespace ns = db.inNamespace ns := by rw [Db.inNamespace, Db.inNamespace, hsame]
    exact Untouched.entries ⟨hns, fun r _ => hpayload r.id⟩
  | some r =>
    have hr := List.mem_of_find?_eq_some hfind
    obtain rfl : r.id = id := by simpa using List.find?_some hfind
    obtain rfl := hown.2 r hr rfl
    have hentry : ∀ q : FileRow, db'.entry q = db.entry q := fun q => by
      rw [Db.entry, Db.entry, hpayload]
    have hold : (db.byUse r.ns).filter ((fun a : CachedEntry => decide (a.path = r.path)) ∘ db.entry) =
        [r] := hv.filter_byUse_path hr
    rw [RecencyOp.run, Db.entries, byUse_recordUse hv hr h, List.map_append, List.map_singleton,
      Db.entries, List.filter_map, List.filter_map, hold, List.map_singleton, hentry]
    congr 1
    exact List.map_congr_left fun q _ => hentry q

/-- A rotation changes what the payloads hold, and nothing else of the entries. -/
def Db.revised (db' : Db) (ns : String) (a : CachedEntry) : CachedEntry :=
  { a with payload := (db'.find? ns a.path).bind fun r =>
      (db'.payload? r.id).map fun p => (p.content, p.encoding) }

theorem Rekeyed.entries (h : Rekeyed db db') (hv : db.Valid) (ns : String) :
    db'.entries ns = (RecencyOp.revise (db'.revised ns)).run CachedEntry.path (db.entries ns) := by
  have hbyUse : db'.byUse ns = db.byUse ns := by
    rw [Db.byUse, Db.byUse, Db.inNamespace, Db.inNamespace, h.files]
  rw [RecencyOp.run, Db.entries, Db.entries, hbyUse, List.map_map]
  refine List.map_congr_left fun r hr => ?_
  obtain ⟨hmem, hns⟩ := Db.mem_byUse.mp hr
  have hfind : db'.find? ns r.path = some r :=
    (h.valid hv).find?_eq_some.mpr ⟨h.files ▸ hmem, hns, rfl⟩
  rw [Function.comp_apply, Db.revised, Db.entry, Db.entry, hfind]
  rfl

end Statements

/-! ## What a part of a call does to the entries -/

/-- The operation of something that has to succeed for it. -/
def RecencyOp.ifOk {α : Type} (result : Except Error α) (op : RecencyOp CachedEntry String) :
    RecencyOp CachedEntry String :=
  match result with
  | .ok _ => op
  | .error _ => .skip

/-- The kinds of operations that calls do, with this bound. -/
inductive RecencyOp.Of (ns : String) (bound : Option ℕ) : RecencyOp CachedEntry String → Prop
  | skip : Of ns bound .skip
  | store (as : List CachedEntry) : Of ns bound (.store as bound)
  | use (path : String) : Of ns bound (.use path)
  | drop (gone : CachedEntry → Bool) : Of ns bound (.drop gone)
  | revise (db : Db) : Of ns bound (.revise (db.revised ns))

def RecencyOp.isDrop : RecencyOp CachedEntry String → Bool
  | .drop _ => true
  | _ => false

theorem RecencyOp.Of.ifOk {ns : String} {bound : Option ℕ} {op : RecencyOp CachedEntry String}
    (h : op.Of ns bound) {α : Type} (result : Except Error α) : (RecencyOp.ifOk result op).Of ns bound := by
  unfold RecencyOp.ifOk
  split
  · exact h
  · exact .skip

section Ops

variable {T : Type} (e : Engine)

/-- A write stores the entries of the items that prepare, and cuts to the bound. -/
def Write.recencyOp : Write T → RecencyOp CachedEntry String
  | .set src path payload =>
    match prepare src path payload with
    | .ok item => .store [item.entry e.payloadVersion] e.maxEntries
    | .error _ => .skip
  | .batchSet src items =>
    .store ((batchPrepared src items).map (Prepared.entry e.payloadVersion)) e.maxEntries
  | .importEntries _ _ | .importFrom _ => .skip

variable (host : Host T) (env : Env T)

/-- The operation of the first part of a call. -/
def Call.recencyOp (db : Db) (call : Call T) : RecencyOp CachedEntry String :=
  match call with
  | .write w => .ifOk (w.call e env.world db).result (w.recencyOp e)
  | .remove path =>
    match resolvePathKey env.src path with
    | .ok resolved => .ifOk (LocalCache.remove e env.src env.world path db).result
        (.drop fun a => a.path = resolved.key)
    | .error _ => .skip
  | .purgeStaleVersions => .ifOk (LocalCache.purgeStaleVersions e env.world db).result
      (.drop fun a => a.payloadVersion ≠ e.payloadVersion)
  | .rotateEncryptionKey .. => .revise ((call.start e host env db).db.revised e.ns)
  | .get _ | .getIfFresh _ | .touch _ | .query _ | .cleanupMissingFiles _ | .cleanupExpired _ => .skip

/-- The operation of a later part. -/
def Ongoing.recencyOp (db : Db) : Ongoing T → RecencyOp CachedEntry String
  | .loaded row _ =>
    if e.readOnly then .skip
    else .ifOk (autocommit (recordUse env.world e.ns row.id) db).1 (db.useOp row.id)
  | .touching row => .ifOk (autocommit (recordUse env.world e.ns row.id) db).1 (db.useOp row.id)
  | .cleaning c =>
    match c.page with
    | some ⟨[], gone, _⟩ => .ifOk
        (transaction env.world (deletePathsInTx env.world e.ns (gone.map Judged.path)) db).1
        (.drop fun a => a.path ∈ gone.map Judged.path)
    | _ => .skip
  | .found _ | .querying _ _ => .skip

variable {e host env}

theorem Write.recencyOp_of (ns : String) (write : Write T) :
    (write.recencyOp e).Of ns e.maxEntries := by
  cases write with
  | set src path payload =>
    rw [recencyOp]
    split
    · exact .store _
    · exact .skip
  | batchSet => exact .store _
  | importEntries => exact .skip
  | importFrom => exact .skip

theorem Call.recencyOp_of (db : Db) (call : Call T) :
    (call.recencyOp e host env db).Of e.ns e.maxEntries := by
  cases call with
  | write write => exact (write.recencyOp_of e.ns).ifOk _
  | remove path =>
    rw [recencyOp]
    split
    · exact (RecencyOp.Of.drop _).ifOk _
    · exact .skip
  | purgeStaleVersions => exact (RecencyOp.Of.drop _).ifOk _
  | rotateEncryptionKey => exact .revise _
  | get | getIfFresh | touch | query | cleanupMissingFiles | cleanupExpired => exact .skip

theorem Db.useOp_of (ns : String) (bound : Option ℕ) (db : Db) (id : ℕ) : (db.useOp id).Of ns bound := by
  unfold useOp
  split
  · exact .use _
  · exact .skip

theorem Ongoing.recencyOp_of (db : Db) (ongoing : Ongoing T) :
    (ongoing.recencyOp e env db).Of e.ns e.maxEntries := by
  cases ongoing with
  | loaded row entry =>
    rw [recencyOp]
    split_ifs
    · exact .skip
    · exact (db.useOp_of _ _ _).ifOk _
  | touching row => exact (db.useOp_of _ _ _).ifOk _
  | cleaning c =>
    rw [recencyOp]
    split
    · exact (RecencyOp.Of.drop _).ifOk _
    · exact .skip
  | found | querying => exact .skip

end Ops

section Calls

variable {T : Type} {e : Engine} {env : Env T} {w : World} {db : Db}

theorem keepNewest_eq {α : Type} (bound : Option ℕ) (l : List α) :
    keepNewest bound l = bound.elim l fun m => newest m l := by
  cases bound <;> rfl

/-- A `set` that succeeded stored its entry. -/
theorem set_of_ok {src : Sources T} {path : Path} {payload : T} (hv : db.Valid)
    (hbound : e.maxEntries ≠ some 0) (h : (set e src w path payload db).result = .ok ()) :
    ∃ item, prepare src path payload = .ok item ∧
      (set e src w path payload db).db.entries e.ns = keepNewest e.maxEntries
        (refresh CachedEntry.path (db.entries e.ns) (item.entry e.payloadVersion)) := by
  by_cases hro : e.readOnly = true
  · unfold set at h
    rw [if_pos hro] at h
    exact absurd h (by simp [Outcome.ofError])
  rw [set_eq e src w path payload db (by simpa using hro)] at h ⊢
  cases hprepare : prepare src path payload with
  | error failed =>
    rw [hprepare] at h
    exact absurd h (by simp [Outcome.ofError])
  | ok item =>
    rw [hprepare] at h
    dsimp only at h ⊢
    refine ⟨item, rfl, ?_⟩
    rcases boundedWrite_inv (e := e) (w := w) (do
        let id ← upsertPrepared e w item
        pure ((), [id])) db with
      ⟨a, ids, t₀, t, evicted, t', rfl, hwrite, hevict, heq⟩ | ⟨err, heq⟩ <;> rw [heq] at h ⊢
    · obtain ⟨id, hupsert, hpair⟩ := StateExcept.map_eq_ok hwrite
      obtain ⟨-, rfl⟩ := Prod.mk.inj hpair
      obtain ⟨row₀, hu, rfl, hlt, hvalue, -⟩ := upsertInTx_ok hv hupsert
      obtain ⟨hentries, row, hpath, hbyUse⟩ := upsertPrepared_entries hv hupsert
      have hdistinct : ∀ m, e.maxEntries = some m → distinctCount [item.path] ≤ m := by
        intro m hm
        have : m ≠ 0 := fun h => hbound (h ▸ hm)
        show 1 ≤ m
        omega
      obtain ⟨-, hkept⟩ := enforceMaxEntries_entries hv
        ((Upserts.nil t₀.db).snoc hu (show Newest e.ns t₀.db row₀ from ⟨hlt, _, hvalue⟩))
        (by simp [hpath]) (show t.db.byUse e.ns = [row].foldl (refresh FileRow.path)
          (t₀.db.byUse e.ns) from hbyUse) hdistinct hevict
      exact hkept.trans (by rw [hentries])
    · exact absurd h (by simp [Outcome.ofError])

theorem Outcome.map_map {α β γ : Type} (o : Outcome α) (f : α → β) (g : β → γ) :
    (o.map f).map g = o.map fun a => g (f a) := by
  rcases o with ⟨_ | _, _, _, _⟩ <;> rfl

theorem Write.map_call (write : Write T) : (write.call e w db).map (fun _ => ()) = write.run e w db := by
  cases write <;> rw [call, Outcome.map_map, run]
  rcases LocalCache.set e _ w _ _ db with ⟨_ | _, _, _, _⟩ <;> rfl

/-- A call that failed left the database. -/
theorem Write.db_of_error (write : Write T) (hv : db.Valid) {err : Error}
    (h : (write.call e w db).result = .error err) : (write.call e w db).db = db := by
  have hfails := (write.run_cases (e := e) (w := w) hv).failsClean err
  rw [← write.map_call, Outcome.map, h] at hfails
  exact (hfails rfl).1

/-- A write that is no import stores its entries and cuts the list to the bound. -/
theorem Write.entries_call {write : Write T} (himport : write.isImport = false) (hv : db.Valid)
    (hbound : e.maxEntries ≠ some 0) :
    (write.call e w db).db.entries e.ns =
      (RecencyOp.ifOk (write.call e w db).result (write.recencyOp e)).run CachedEntry.path
        (db.entries e.ns) := by
  cases hresult : (write.call e w db).result with
  | error err =>
    rw [write.db_of_error hv hresult]
    rfl
  | ok reply =>
    rw [RecencyOp.ifOk]
    cases write with
    | set src path payload =>
      have hok : (LocalCache.set e src w path payload db).result = .ok () := by
        cases hr : (LocalCache.set e src w path payload db).result with
        | ok => rfl
        | error err => simp [Write.call, Outcome.map, hr, Except.map] at hresult
      obtain ⟨item, hprepare, hentries⟩ := set_of_ok hv hbound hok
      rw [Write.recencyOp, hprepare, RecencyOp.run, ← keepNewest_eq]
      exact hentries
    | batchSet src items =>
      cases hr : (LocalCache.batchSet e src w items db).result with
      | error err => simp [Write.call, Outcome.map, hr, Except.map] at hresult
      | ok report =>
        obtain ⟨-, -, -, hentries⟩ := batchSet_of_ok hv hr
        rw [Write.recencyOp, RecencyOp.run, ← keepNewest_eq]
        exact hentries
    | importEntries => exact absurd himport (by simp [isImport])
    | importFrom => exact absurd himport (by simp [isImport])

/-- The first part of a call that is no import. -/
theorem Call.entries_start {host : Host T} {call : Call T}
    (himport : ∀ write, call = .write write → write.isImport = false) (hv : db.Valid)
    (hbound : e.maxEntries ≠ some 0) :
    (call.start e host env db).db.entries e.ns =
      (call.recencyOp e host env db).run CachedEntry.path (db.entries e.ns) := by
  cases call with
  | write write => exact write.entries_call (himport write rfl) hv hbound
  | remove path =>
    show (LocalCache.remove e env.src env.world path db).db.entries e.ns = _
    rw [recencyOp]
    unfold LocalCache.remove
    split_ifs with hro
    · split <;> rfl
    cases resolvePathKey env.src path with
    | error err => rfl
    | ok resolved =>
      dsimp only
      rcases autocommit_cases (deleteByPath env.world e.ns resolved.key) db with
        ⟨b, t, hrun, h⟩ | ⟨err, hrun, -⟩ <;> rw [hrun]
      · rw [(deleteByPath_ok h).2]
        exact entries_deleteFiles hv fun r _ hns =>
          decide_eq_decide.mpr ⟨fun h => h.2, fun h => ⟨hns, h⟩⟩
      · rfl
  | purgeStaleVersions =>
    show (LocalCache.purgeStaleVersions e env.world db).db.entries e.ns = _
    rw [recencyOp]
    unfold LocalCache.purgeStaleVersions
    split_ifs with hro
    · rfl
    dsimp only
    rcases autocommit_cases (deleteByOtherVersion env.world e.ns e.payloadVersion) db with
      ⟨n, t, hrun, h⟩ | ⟨err, hrun, -⟩ <;> rw [hrun]
    · obtain ⟨gap, hdelete, -⟩ := statement_ok h
      rw [← (Prod.mk.inj (Except.ok.inj hdelete)).2]
      exact entries_deleteFiles hv fun r _ hns =>
        decide_eq_decide.mpr ⟨fun h => h.2, fun h => ⟨hns, h⟩⟩
    · rfl
  | rotateEncryptionKey nonces maxRows maxBytes newKey =>
    exact (Call.start_rekeyed rfl).2.entries hv e.ns
  | get path => exact congrArg (fun d : Db => d.entries e.ns) (Part.ofFound_db _).1
  | getIfFresh path => exact congrArg (fun d : Db => d.entries e.ns) (Part.ofFound_db _).1
  | touch path => exact congrArg (fun d : Db => d.entries e.ns) (Part.ofFound_db _).1
  | query q => rw [start]; split <;> rfl
  | cleanupMissingFiles size => rw [start]; split_ifs <;> rfl
  | cleanupExpired size =>
    rw [start]
    split_ifs
    · rfl
    · cases e.ttl <;> rfl

/-- Recording a use in autocommit mode. -/
theorem entries_autocommit_recordUse {id : ℕ} (hv : db.Valid) (hown : db.Owns e.ns id) :
    (autocommit (recordUse w e.ns id) db).2.entries e.ns =
      (RecencyOp.ifOk (autocommit (recordUse w e.ns id) db).1 (db.useOp id)).run CachedEntry.path
        (db.entries e.ns) := by
  rcases autocommit_cases (recordUse w e.ns id) db with ⟨_, t, hrun, h⟩ | ⟨err, hrun, -⟩ <;>
    rw [hrun]
  · have hrecord := recordUseInTx_ok h
    dsimp only at hrecord
    exact entries_recordUse hv hown hrecord
  · rfl

/-- Deleting paths one by one drops their entries. -/
theorem entries_deletePathsInTx {ns : String} {paths : List String} {n : ℕ} {t t' : Tx}
    (hv : t.db.Valid) (h : deletePathsInTx w ns paths t = .ok (n, t')) :
    t'.db.entries ns =
      (RecencyOp.drop fun a => a.path ∈ paths).run CachedEntry.path (t.db.entries ns) := by
  obtain ⟨removed, hloop, -⟩ := StateExcept.map_eq_ok h
  refine (StateExcept.forEach_ok (fun done _ (s : Tx) => s.db.Valid ∧ s.db.entries ns =
    (RecencyOp.drop fun a => a.path ∈ done).run CachedEntry.path (t.db.entries ns)) ?_ paths [] []
      removed t t' ⟨hv, by simp [RecencyOp.run]⟩ hloop).2
  rintro done _ path b s s' ⟨hs, hentries⟩ hstep
  rw [(deleteByPath_ok hstep).2]
  refine ⟨Sql.valid_deleteFiles hs _, ?_⟩
  have hdrop : (Sql.deleteFiles (fun r => decide (Db.HasKey ns path r)) s.db).entries ns =
      (RecencyOp.drop fun a => a.path = path).run CachedEntry.path (s.db.entries ns) :=
    entries_deleteFiles hs fun r _ hns => decide_eq_decide.mpr ⟨fun h => h.2, fun h => ⟨hns, h⟩⟩
  rw [hdrop, hentries, RecencyOp.run, RecencyOp.run, RecencyOp.run, List.filter_filter]
  refine List.filter_congr fun a _ => ?_
  simp only [List.mem_append, List.mem_singleton, Bool.decide_or, Bool.not_or, Bool.and_comm]

/-- The last part of a page deletes what was judged gone. -/
theorem entries_deletePage (gone : List Judged) (hv : db.Valid) :
    (if gone.isEmpty then ((.ok 0 : Except Error ℕ), db)
      else transaction w (deletePathsInTx w e.ns (gone.map Judged.path)) db).2.entries e.ns =
        (RecencyOp.ifOk (transaction w (deletePathsInTx w e.ns (gone.map Judged.path)) db).1
          (.drop fun a => a.path ∈ gone.map Judged.path)).run CachedEntry.path (db.entries e.ns) := by
  split_ifs with hempty
  · obtain rfl := List.isEmpty_iff.mp hempty
    unfold RecencyOp.ifOk
    split
    · simp [RecencyOp.run]
    · rfl
  · rcases transaction_cases (w := w) (deletePathsInTx w e.ns (gone.map Judged.path)) db with
      ⟨n, t₀, t, hrun, rfl, -, h⟩ | ⟨err, hrun⟩
    · rw [hrun]
      exact entries_deletePathsInTx hv h
    · rw [hrun]
      rfl

/-- A part of a cleanup : only the last of a page changes the tables. -/
theorem Cleaning.entries_next (c : Cleaning) (commits : ℕ) (hv : db.Valid) :
    (c.next e env commits db).db.entries e.ns =
      ((Ongoing.cleaning c : Ongoing T).recencyOp e env db).run CachedEntry.path (db.entries e.ns) := by
  obtain ⟨kind, size, cursor, removed, _ | ⟨_ | ⟨row, left⟩, gone, last⟩⟩ := c
  · rw [Cleaning.next]
    dsimp only
    cases (autocommit (select env.world (Sql.pathsAfter e.ns cursor size)) db).1 with
    | error err => rfl
    | ok rows =>
      dsimp only
      cases rows.getLast? <;> rfl
  · have hpage := entries_deletePage (e := e) (w := env.world) gone hv
    rw [Cleaning.next, Ongoing.recencyOp]
    dsimp only
    rw [← hpage]
    generalize (if gone.isEmpty then ((.ok 0 : Except Error ℕ), db)
      else transaction env.world (deletePathsInTx env.world e.ns (gone.map Judged.path)) db) = deleted
    obtain ⟨err | k, db'⟩ := deleted
    · rfl
    · dsimp only
      split_ifs <;> rfl
  · rfl

/-- A later part of a call. -/
theorem Ongoing.entries_next {host : Host T} {ongoing : Ongoing T} (commits : ℕ) (hv : db.Valid)
    (hown : ∀ id ∈ ongoing.ids, db.Owns e.ns id) :
    (ongoing.next e host env commits db).db.entries e.ns =
      (ongoing.recencyOp e env db).run CachedEntry.path (db.entries e.ns) := by
  cases ongoing with
  | found row =>
    rw [next]
    rcases loadEntry env.src env.world row db with err | _ | entry <;> rfl
  | loaded row entry =>
    show (finishRead e env.world row entry db).db.entries e.ns = _
    have huse := entries_autocommit_recordUse (w := env.world) hv
      (hown row.id (by simp [Ongoing.ids]))
    rw [recencyOp]
    unfold finishRead
    split_ifs with hro
    · rfl
    · rw [← huse]
      split <;> next hrun => rw [hrun]
  | touching row =>
    show (finishTouch e env.world row db).db.entries e.ns = _
    have huse := entries_autocommit_recordUse (w := env.world) hv
      (hown row.id (by simp [Ongoing.ids]))
    rw [recencyOp, ← huse]
    unfold finishTouch
    rcases autocommit_cases (recordUse env.world e.ns row.id) db with
      ⟨_, t, hrun, -⟩ | ⟨err, hrun, -⟩
    · rw [hrun]
    · rw [hrun]
      rfl
  | querying q phase =>
    rw [next]
    rcases (autocommit (phase.step host.query env.src e env.world q) db).1 with err | phase' | report <;>
      rfl
  | cleaning c => exact c.entries_next commits hv

end Calls

/-! ## Runs -/

def SessionEvent.imports {T : Type} (ev : SessionEvent T) : Bool :=
  match ev.action with
  | .invoke (.write write) => write.isImport
  | _ => false

/-- An engine that was opened has no bound, or one that is not zero. -/
def Engine.Bounded (e : Engine) : Prop := e.maxEntries ≠ some 0

namespace Sessions

variable {T : Type} {host : Host T} {s : Sessions T} {ev : SessionEvent T} {ns : String}

/-- The operation on the entries of `ns` that an event does. -/
def recencyOp (host : Host T) (ns : String) (s : Sessions T) (ev : SessionEvent T) :
    RecencyOp CachedEntry String :=
  if s.ns ev.conn = ns then
    match ev.action, (s.session ev.conn).call with
    | .invoke call, none => call.recencyOp (s.session ev.conn).engine host ev.env s.db
    | .resume, some ongoing => ongoing.recencyOp (s.session ev.conn).engine ev.env s.db
    | _, _ => .skip
  else .skip

/-- The operations of a run. -/
def recencyOps (host : Host T) (ns : String) :
    Sessions T → List (SessionEvent T) → List (RecencyOp CachedEntry String)
  | _, [] => []
  | s, ev :: events => s.recencyOp host ns ev :: recencyOps host ns (s.step host ev) events

/-- The event begins no import into `ns`. -/
def NoImport (ns : String) (s : Sessions T) (ev : SessionEvent T) : Prop :=
  s.ns ev.conn = ns → ev.imports = false

/-- A step does its operation on the entries of every namespace. -/
theorem entries_step (h : s.OwnIds) (hbound : ∀ conn, (s.session conn).engine.Bounded)
    (himport : s.NoImport ns ev) :
    (s.step host ev).db.entries ns = (s.recencyOp host ns ev).run CachedEntry.path (s.db.entries ns) := by
  unfold recencyOp
  split_ifs with hns
  · subst hns
    unfold step part?
    obtain ⟨conn, env, action⟩ := ev
    cases action with
    | invoke call =>
      cases hcall : (s.session conn).call with
      | some ongoing => rfl
      | none =>
        refine call.entries_start (fun write hwrite => ?_) h.valid (hbound conn)
        subst hwrite
        exact himport rfl
    | resume =>
      cases hcall : (s.session conn).call with
      | none => rfl
      | some ongoing =>
        exact ongoing.entries_next _ h.valid (by rw [← ids_of_call hcall]; exact h.owns conn)
  · exact ((h.within host ev).others ns (Ne.symm hns)).entries

theorem engine_step (host : Host T) (s : Sessions T) (ev : SessionEvent T) (conn : ℕ) :
    ∃ key, ((s.step host ev).session conn).engine =
      { (s.session conn).engine with encryptionKey := key } := by
  by_cases hne : conn = ev.conn
  · rcases step_cases host s ev with ⟨-, h⟩ | ⟨part, -, h⟩
    · exact ⟨_, by rw [h]⟩
    · refine ⟨part.key, ?_⟩
      rw [h, hne]
      simp [after]
  · exact ⟨_, by rw [session_step_of_ne hne]⟩

theorem bounded_step (hbound : ∀ conn, (s.session conn).engine.Bounded) (conn : ℕ) :
    ((s.step host ev).session conn).engine.Bounded := by
  obtain ⟨key, hkey⟩ := engine_step host s ev conn
  rw [hkey]
  exact hbound conn

/-- A run of sessions is a run of operations on the entries of each namespace. -/
theorem entries_run : ∀ {s : Sessions T} {events : List (SessionEvent T)}, s.OwnIds →
    (∀ conn, (s.session conn).engine.Bounded) → Along (step host) (NoImport ns) s events →
      (runFrom (step host) s events).db.entries ns =
        runFrom (RecencyOp.run CachedEntry.path) (s.db.entries ns) (recencyOps host ns s events)
  | _, [], _, _, _ => rfl
  | s, ev :: events, h, hbound, ⟨himport, hrest⟩ => by
    rw [runFrom_cons, recencyOps, runFrom_cons, ← entries_step h hbound himport]
    exact entries_run (h.step host ev) (bounded_step hbound) hrest

theorem recencyOp_of (host : Host T) (ns : String) (s : Sessions T) (ev : SessionEvent T) :
    s.recencyOp host ns ev = .skip ∨ s.ns ev.conn = ns ∧
      (s.recencyOp host ns ev).Of ns (s.session ev.conn).engine.maxEntries := by
  unfold recencyOp
  split_ifs with hns
  · subst hns
    split
    · exact Or.inr ⟨rfl, Call.recencyOp_of _ _⟩
    · exact Or.inr ⟨rfl, Ongoing.recencyOp_of _ _⟩
    · exact Or.inl rfl
  · exact Or.inl rfl

/-- Nothing that an event deletes is the entry of `path`. -/
def Spares (host : Host T) (ns path : String) (s : Sessions T) (ev : SessionEvent T) : Prop :=
  ∀ gone, s.recencyOp host ns ev = .drop gone →
    ∀ a ∈ s.db.entries ns, a.path = path → gone a = false

/-- Every engine of the namespace keeps at least `m` entries. -/
def Holds (ns : String) (m : ℕ) (s : Sessions T) : Prop :=
  ∀ conn, s.ns conn = ns → ∀ bound, (s.session conn).engine.maxEntries = some bound → m ≤ bound

theorem Holds.step {m : ℕ} (h : s.Holds ns m) : (s.step host ev).Holds ns m := by
  intro conn hns bound hbound
  obtain ⟨key, hkey⟩ := engine_step host s ev conn
  rw [ns_step] at hns
  rw [hkey] at hbound
  exact h conn hns bound hbound

theorem Spares.keeps {path : String} {m : ℕ} (h : s.Spares host ns path ev) (hholds : s.Holds ns m) :
    (s.recencyOp host ns ev).Keeps CachedEntry.path path m (s.db.entries ns) := by
  rcases recencyOp_of host ns s ev with heq | ⟨hns, hof⟩
  · rw [heq]
    trivial
  · generalize heq : s.recencyOp host ns ev = op at hof ⊢
    cases hof with
    | skip => trivial
    | store as =>
      cases hbound : (s.session ev.conn).engine.maxEntries with
      | none => trivial
      | some bound => exact hholds ev.conn hns bound hbound
    | use used => trivial
    | drop gone => exact h gone heq
    | revise db => exact fun a => rfl

theorem keeps_of_spares {path : String} {m : ℕ} : ∀ {s : Sessions T} {events : List (SessionEvent T)},
    s.OwnIds → (∀ conn, (s.session conn).engine.Bounded) → s.Holds ns m →
      Along (step host) (NoImport ns) s events → Along (step host) (Spares host ns path) s events →
        Along (RecencyOp.run CachedEntry.path) (fun l op => op.Keeps CachedEntry.path path m l)
          (s.db.entries ns) (recencyOps host ns s events)
  | _, [], _, _, _, _, _ => trivial
  | s, ev :: events, h, hbound, hholds, ⟨himport, hrest⟩, ⟨hspares, hspared⟩ => by
    refine ⟨hspares.keeps hholds, ?_⟩
    rw [← entries_step h hbound himport]
    exact keeps_of_spares (h.step host ev) (bounded_step hbound) hholds.step hrest hspared

/-- In a run without imports into a namespace, its entries are those of the run of operations on
recency lists, and a lookup finds the entry of its path. -/
theorem entries_of_run {engines : ℕ → Engine} {db₀ : Db} (hv : db₀.Valid)
    (hbound : ∀ conn, (engines conn).Bounded) (events : List (SessionEvent T))
    (himport : Along (step host) (NoImport ns) (init engines db₀) events) :
    (runFrom (step host) (init engines db₀) events).db.entries ns =
        runFrom (RecencyOp.run CachedEntry.path) (db₀.entries ns)
          (recencyOps host ns (init engines db₀) events) ∧
      ∀ path, ((runFrom (step host) (init engines db₀) events).db.find? ns path).map
          (runFrom (step host) (init engines db₀) events).db.entry =
        (runFrom (RecencyOp.run CachedEntry.path) (db₀.entries ns)
          (recencyOps host ns (init engines db₀) events)).find? fun a => a.path = path := by
  have hrun := entries_run (ownIds_init (T := T) engines hv) hbound himport
  have hown : (runFrom (step host) (init engines db₀) events).OwnIds :=
    runFrom_induction (fun s ev h => h.step host ev) events (ownIds_init engines hv)
  refine ⟨hrun, fun path => ?_⟩
  rw [Db.entry_find? hown.valid, hrun]
  rfl

/-- An entry used last stays cached until as many others as every engine keeps were written or
used, unless something deletes it. -/
theorem cached_of_run {engines : ℕ → Engine} {db₀ : Db} (hv : db₀.Valid)
    (hbound : ∀ conn, (engines conn).Bounded) {path : String} {m : ℕ} {s : Sessions T}
    (hs : Reached host engines db₀ s)
    (hholds : ∀ conn, (engines conn).ns = ns → ∀ bound, (engines conn).maxEntries = some bound →
      m ≤ bound)
    (hlast : ((s.db.entries ns).getLast?).map CachedEntry.path = some path)
    (events : List (SessionEvent T)) (himport : Along (step host) (NoImport ns) s events)
    (hspares : Along (step host) (Spares host ns path) s events)
    (hfew : (((recencyOps host ns s events).flatMap
      (RecencyOp.keys CachedEntry.path)).toFinset.erase path).card < m) :
    ∃ r ∈ (runFrom (step host) s events).db.files, Db.HasKey ns path r := by
  obtain ⟨earlier, rfl⟩ := hs
  obtain ⟨hown, hbounds, hholds'⟩ : (runFrom (step host) (init engines db₀) earlier).OwnIds ∧
      (∀ conn, ((runFrom (step host) (init engines db₀) earlier).session conn).engine.Bounded) ∧
        (runFrom (step host) (init engines db₀) earlier).Holds ns m :=
    runFrom_induction (I := fun s : Sessions T => s.OwnIds ∧
      (∀ conn, (s.session conn).engine.Bounded) ∧ s.Holds ns m)
      (fun s ev h => ⟨h.1.step host ev, bounded_step h.2.1, h.2.2.step⟩) earlier
      ⟨ownIds_init engines hv, hbound, hholds⟩
  have hmem := mem_of_survives (recencyOps host ns _ events) (behind_of_getLast? hlast)
    (hown.valid.nodup_entries_path ns) (keeps_of_spares hown hbounds hholds' himport hspares)
    (by rwa [Finset.empty_union])
  rw [← entries_run hown hbounds himport] at hmem
  obtain ⟨a, ha, hpath⟩ := List.mem_map.mp hmem
  obtain ⟨r, hr, rfl⟩ := List.mem_map.mp ha
  obtain ⟨hfile, hns⟩ := Db.mem_byUse.mp hr
  exact ⟨r, hfile, hns, hpath⟩

theorem along_noImport : ∀ {s : Sessions T} {events : List (SessionEvent T)},
    (∀ ev ∈ events, ev.imports = false) → Along (step host) (NoImport ns) s events
  | _, [], _ => trivial
  | s, ev :: _, h => ⟨fun _ => h ev List.mem_cons_self,
      along_noImport (s := s.step host ev) fun ev' hev' => h ev' (List.mem_cons_of_mem _ hev')⟩

theorem along_spares {path : String} : ∀ {s : Sessions T} {events : List (SessionEvent T)},
    (∀ op ∈ recencyOps host ns s events, op.isDrop = false) →
      Along (step host) (Spares host ns path) s events
  | _, [], _ => trivial
  | s, ev :: _, h => by
    refine ⟨fun gone hop => ?_, along_spares (s := s.step host ev) fun op hop =>
      h op (List.mem_cons_of_mem _ hop)⟩
    have hdrop := h _ List.mem_cons_self
    rw [hop] at hdrop
    exact absurd hdrop (by simp [RecencyOp.isDrop])

end Sessions

/-! ## A bounded cache of two entries -/

section Samples

/-- Every engine works in `n` and keeps two entries. -/
def twoEntries : ℕ → Engine := fun _ => .plain "n" (some 2)

/-- `/a` and `/b` are stored, `/a` is read, and `/c` is stored. -/
def readBetweenWrites : List (SessionEvent (List UInt8)) :=
  [bytesEvent 1 1 (.invoke (.write (.set (.bytes 1) [47, 97] [1]))),
    bytesEvent 1 1 (.invoke (.write (.set (.bytes 1) [47, 98] [2]))),
    bytesEvent 1 0 (.invoke (.get [47, 97])), bytesEvent 1 0 .resume, bytesEvent 1 0 .resume,
    bytesEvent 1 1 (.invoke (.write (.set (.bytes 1) [47, 99] [3])))]

/-- The read saves `/a` : `/b` is forgotten. -/
theorem Sessions.entries_of_run_sample :
    let s := runFrom (Sessions.step Host.bytes) (Sessions.init twoEntries Db.empty) readBetweenWrites
    (s.db.entries "n").map CachedEntry.path = ["/a", "/c"] ∧
      s.db.entries "n" = runFrom (RecencyOp.run CachedEntry.path) (Db.empty.entries "n")
        (recencyOps Host.bytes "n" (Sessions.init twoEntries Db.empty) readBetweenWrites) := by
  refine ⟨by decide +kernel, (Sessions.entries_of_run Db.valid_empty (fun _ => ?_) readBetweenWrites
    (Sessions.along_noImport ?_)).1⟩
  · simp [Engine.Bounded, twoEntries, Engine.plain]
  · decide

theorem Sessions.cached_of_run_sample : ∃ r ∈ (runFrom (Sessions.step Host.bytes)
    (runFrom (Sessions.step Host.bytes) (Sessions.init twoEntries Db.empty)
      (readBetweenWrites.take 5)) (readBetweenWrites.drop 5)).db.files, Db.HasKey "n" "/a" r := by
  refine Sessions.cached_of_run (m := 2) Db.valid_empty (fun _ => ?_) ⟨_, rfl⟩ (fun _ _ bound h => ?_)
    (by decide +kernel) _ (Sessions.along_noImport (by decide)) (Sessions.along_spares ?_)
    (by decide +kernel)
  · simp [Engine.Bounded, twoEntries, Engine.plain]
  · rw [← Option.some.inj h]
  · decide +kernel

end Samples

end LocalCache
