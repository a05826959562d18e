import LocalCache.Recency
import LocalCache.Keyset
import LocalCache.Working
import LocalCache.Writes

/-!
# A batch is a sequence of sets

`Db.entries` is what a namespace holds, in the order of eviction : each entry's path, metadata,
payload version and payload, without its row id and its use value. A write uses its entry
(`refresh`), and the eviction after it keeps the newest (`keepNewest`). A batch keeps them
once, after all its writes; a sequence of sets keeps them after every write. By
`foldl_newest_refresh` both leave the same entries in the same order.

A batch of which no item prepares still enforces the bound, which no set of such an item does.
So the two agree when some item prepares, or the namespace is within the bound
(`batchSet_eq_setAll`), and not otherwise (`emptyBatch_evicts`).
-/

namespace LocalCache

/-! ## What a namespace holds, by use -/

/-- An entry without its row id and its use value. -/
structure CachedEntry where
  path : String
  metadata : FileMetadata
  payloadVersion : UInt32
  payload : Option (List UInt8 × String)
  deriving DecidableEq, Repr

namespace Db

def entry (db : Db) (r : FileRow) : CachedEntry :=
  ⟨r.path, r.metadata, r.payloadVersion, (db.payload? r.id).map fun p => (p.content, p.encoding)⟩

/-- The rows of a namespace, the oldest use first. -/
def byUse (db : Db) (ns : String) : List FileRow := sortBy Sql.useKey (db.inNamespace ns)

/-- The entries of a namespace in the order of eviction. -/
def entries (db : Db) (ns : String) : List CachedEntry := (db.byUse ns).map db.entry

end Db

/-- Keep the newest, as many as the bound. -/
def keepNewest {α : Type} (bound : Option ℕ) (l : List α) : List α :=
  match bound with
  | none => l
  | some m => newest m l

section ByUse

variable {db db' : Db} {ns path : String}

@[simp] theorem Db.mem_byUse {r : FileRow} : r ∈ db.byUse ns ↔ r ∈ db.files ∧ r.ns = ns := by
  simp [byUse]

theorem Db.length_byUse (db : Db) (ns : String) :
    (db.byUse ns).length = (db.inNamespace ns).length :=
  length_sortBy _ _

/-- The ids are distinct, so the order is strict. -/
theorem Db.Valid.pairwise_byUse (hv : db.Valid) (ns : String) :
    (db.byUse ns).Pairwise fun r r' => Sql.useKey r < Sql.useKey r' := by
  refine pairwise_sortBy_lt _ (List.Nodup.map_on (fun a ha b hb hab => ?_)
    (hv.nodup.sublist List.filter_sublist))
  exact hv.eq_of_id (Db.mem_inNamespace.mp ha).1 (Db.mem_inNamespace.mp hb).1
    (congrArg (fun k => (ofLex k).2) hab)

theorem Db.Valid.nodup_byUse (hv : db.Valid) (ns : String) : (db.byUse ns).Nodup :=
  (sortBy_perm _ _).nodup_iff.mpr (hv.nodup.sublist List.filter_sublist)

theorem Db.Valid.nodup_byUse_path (hv : db.Valid) (ns : String) :
    ((db.byUse ns).map FileRow.path).Nodup := by
  refine List.Nodup.map_on (fun a ha b hb hab => ?_) (hv.nodup_byUse ns)
  rw [Db.mem_byUse] at ha hb
  exact hv.eq_of_hasKey ha.1 hb.1 ⟨ha.2, rfl⟩ ⟨hb.2, hab.symm⟩

theorem Db.Valid.nodup_entries_path (hv : db.Valid) (ns : String) :
    ((db.entries ns).map CachedEntry.path).Nodup := by
  rw [Db.entries, List.map_map]
  exact hv.nodup_byUse_path ns

/-- A write of the newest use value moves its row to the end. -/
theorem Upserted.byUse {row : FileRow} (h : Upserted ns path row db db') (hv : db.Valid)
    (hnew : ∀ r ∈ db.files, r.ns = ns → r.lastUsedUs < row.lastUsedUs) :
    db'.byUse ns = refresh FileRow.path (db.byUse ns) row := by
  refine eq_of_pairwise_lt Sql.useKey (h.valid.pairwise_byUse ns) ?_ fun r => ?_
  · refine List.pairwise_append.mpr ⟨(hv.pairwise_byUse ns).sublist List.filter_sublist,
      List.pairwise_singleton _ _, fun a ha b hb => ?_⟩
    rw [List.mem_singleton.mp hb]
    obtain ⟨hmem, hns⟩ := Db.mem_byUse.mp (List.mem_of_mem_filter ha)
    exact Prod.Lex.toLex_lt_toLex.mpr (Or.inl (hnew a hmem hns))
  · rw [Db.mem_byUse, h.mem r, refresh, List.mem_append, List.mem_filter, Db.mem_byUse,
      List.mem_singleton]
    constructor
    · rintro ⟨rfl | ⟨hr, hk⟩, hns⟩
      · exact Or.inr rfl
      · refine Or.inl ⟨⟨hr, hns⟩, ?_⟩
        simpa [h.hasKey.2] using fun hpath => hk ⟨hns, hpath⟩
    · rintro (⟨⟨hr, hns⟩, hpath⟩ | rfl)
      · refine ⟨Or.inr ⟨hr, fun hk => ?_⟩, hns⟩
        simp [h.hasKey.2, hk.2] at hpath
      · exact ⟨Or.inl rfl, h.hasKey.1⟩

/-- A write uses its entry. -/
theorem Stored.entries {row : FileRow} {content : List UInt8} {encoding : String}
    (h : Stored ns path row content encoding db db') (hv : db.Valid)
    (hnew : ∀ r ∈ db.files, r.ns = ns → r.lastUsedUs < row.lastUsedUs) :
    db'.entries ns = refresh CachedEntry.path (db.entries ns)
      ⟨path, row.metadata, row.payloadVersion, some (content, encoding)⟩ := by
  have hrow : db'.entry row = ⟨path, row.metadata, row.payloadVersion, some (content, encoding)⟩ := by
    rw [Db.entry, h.payload, h.upserted.hasKey.2]
    rfl
  rw [Db.entries, h.upserted.byUse hv hnew, refresh, refresh, List.map_append, List.map_singleton,
    hrow, Db.entries, List.filter_map, h.upserted.hasKey.2]
  congr 1
  refine List.map_congr_left fun r hr => ?_
  obtain ⟨hmem, hpath⟩ := List.mem_filter.mp hr
  have hmem' : r ∈ db'.files := (h.upserted.mem r).mpr
    (Or.inr ⟨(Db.mem_byUse.mp hmem).1, fun hk => by simp [hk.2] at hpath⟩)
  have hid : r.id ≠ row.id := by
    intro hid
    rw [h.upserted.valid.eq_of_id hmem' ((h.upserted.mem row).mpr (Or.inl rfl)) hid] at hpath
    simp [h.upserted.hasKey.2] at hpath
  rw [Db.entry, Db.entry, h.others r.id hid]

/-- An eviction that protects the rows at the end takes its victims from the front. -/
theorem Evicted.byUse {n : ℕ} {protectedIds : List ℕ} {victims old used : List FileRow}
    (h : Evicted ns n protectedIds victims db db') (hv : db.Valid) (hsplit : db.byUse ns = old ++ used)
    (hold : ∀ r ∈ old, r.id ∉ protectedIds) (hused : ∀ r ∈ used, r.id ∈ protectedIds)
    (hn : n ≤ old.length) : db'.byUse ns = (db.byUse ns).drop n := by
  have hunprotected : (db.byUse ns).filter (fun r => decide (r.id ∉ protectedIds)) = old := by
    rw [hsplit, List.filter_append, List.filter_eq_self.mpr (by simpa using hold),
      List.filter_eq_nil_iff.mpr (by simpa using hused), List.append_nil]
  have hpairwise := hv.pairwise_byUse ns
  have hvictims : victims = (db.byUse ns).take n := by
    refine h.least.unique ?_
    have hleast := least_take (hpairwise.sublist List.filter_sublist)
      ((sortBy_perm Sql.useKey (db.inNamespace ns)).filter
        fun r => decide (r.id ∉ protectedIds)) n
    have htake : old.take n = (db.byUse ns).take n := by
      rw [hsplit, List.take_append_of_le_length hn]
    rwa [hunprotected, htake] at hleast
  refine eq_of_pairwise_lt Sql.useKey (h.valid.pairwise_byUse ns)
    (hpairwise.sublist (List.drop_sublist _ _)) fun r => ?_
  have hnodup := hv.nodup_byUse ns
  rw [← List.take_append_drop n (db.byUse ns), List.nodup_append] at hnodup
  have hmem : r ∈ db.byUse ns ↔ r ∈ (db.byUse ns).take n ∨ r ∈ (db.byUse ns).drop n := by
    rw [← List.mem_append, List.take_append_drop]
  rw [Db.mem_byUse] at hmem
  rw [Db.mem_byUse, h.mem r, hvictims]
  constructor
  · rintro ⟨⟨hr, hnot⟩, hns⟩
    exact (hmem.mp ⟨hr, hns⟩).resolve_left hnot
  · intro hr
    obtain ⟨hfile, hns⟩ := hmem.mpr (Or.inr hr)
    exact ⟨⟨hfile, fun htake => hnodup.2.2 _ htake _ hr rfl⟩, hns⟩

theorem Shrunk.entries (h : Shrunk db db') (ns : String) :
    db'.entries ns = (db'.byUse ns).map db.entry := by
  refine List.map_congr_left fun r hr => ?_
  rw [Db.entry, Db.entry, h.payload r (Db.mem_byUse.mp hr).1]

end ByUse

/-! ## Preparation -/

section Prepare

variable {T : Type} (e : Engine) (src : Sources T)

/-- Both passes over one item. An error comes with the path a report names. -/
def prepare (path : Path) (payload : T) : Except (Path × Error) Prepared :=
  match occupy src path with
  | .error err => .error err
  | .ok (canonical, pathStr, metadata) =>
    match src.encode pathStr payload with
    | .error err => .error (canonical, err)
    | .ok encoded => .ok ⟨pathStr, metadata, encoded⟩

/-- A `set` stores its prepared item. -/
theorem set_eq (w : World) (path : Path) (payload : T) (db : Db) (hro : e.readOnly = false) :
    set e src w path payload db =
      match prepare src path payload with
      | .error (_, err) => .ofError err db
      | .ok item => boundedWrite e w (do
          let id ← upsertPrepared e w item
          pure ((), [id])) db := by
  unfold set prepare
  rw [if_neg (by simp [hro])]
  rcases occupy src path with _ | ⟨canonical, pathStr, metadata⟩
  · rfl
  · dsimp only
    cases src.encode pathStr payload <;> rfl

variable {src}

theorem batchPrepared_eq (items : List (Path × T)) :
    batchPrepared src items = items.filterMap fun item => (prepare src item.1 item.2).toOption := by
  unfold batchPrepared batchOccupying
  have h : ∀ (k : ℕ) (items : List (Path × T)),
      (((((items.zipIdx k).map (occupyItem src)).filterMap Sum.getRight?).map
        (encodeItem src)).filterMap Sum.getRight?) =
          items.filterMap fun item => (prepare src item.1 item.2).toOption := by
    intro k items
    induction items generalizing k with
    | nil => rfl
    | cons item items ih =>
      rw [List.zipIdx_cons, List.map_cons, List.filterMap_cons, List.filterMap_cons, ← ih (k + 1)]
      unfold occupyItem prepare
      rcases occupy src item.1 with _ | ⟨canonical, pathStr, metadata⟩
      · rfl
      · dsimp only [Sum.getRight?]
        rw [List.map_cons, List.filterMap_cons]
        unfold encodeItem
        dsimp only
        cases src.encode pathStr item.2 <;> rfl
  exact h 0 items

/-- The failure of an item, under its index. -/
def failure (src : Sources T) (item : (Path × T) × ℕ) : Option FailedItem :=
  match prepare src item.1.1 item.1.2 with
  | .error (path, err) => some ⟨item.2, path, err⟩
  | .ok _ => none

/-- The failures of both passes, sorted, are the failures in the items' order. -/
theorem batchFailed_eq (items : List (Path × T)) :
    batchFailed src items = items.zipIdx.filterMap (failure src) := by
  have hperm : ∀ (items : List ((Path × T) × ℕ)), (items.filterMap (failure src)).Perm
      ((items.map (occupyItem src)).filterMap Sum.getLeft? ++
        (((items.map (occupyItem src)).filterMap Sum.getRight?).map
          (encodeItem src)).filterMap Sum.getLeft?) := by
    intro items
    induction items with
    | nil => exact List.Perm.refl _
    | cons item items ih =>
      rw [List.filterMap_cons, List.map_cons, List.filterMap_cons, List.filterMap_cons]
      unfold occupyItem failure prepare
      rcases occupy src item.1.1 with _ | ⟨canonical, pathStr, metadata⟩
      · exact ih.cons _
      · dsimp only [Sum.getLeft?, Sum.getRight?]
        rw [List.map_cons, List.filterMap_cons]
        unfold encodeItem
        dsimp only
        cases src.encode pathStr item.1.2 with
        | error err => exact (ih.cons _).trans List.perm_middle.symm
        | ok encoded => exact ih
  refine sortBy_eq_of_perm ?_ (hperm items.zipIdx)
  have hindex : items.zipIdx.Pairwise fun a b => a.2 < b.2 := by
    rw [← List.pairwise_map, List.zipIdx_map_snd]
    exact List.pairwise_lt_range'
  refine List.pairwise_filterMap.mpr (hindex.imp fun hlt b hb c hc => ?_)
  have index_eq : ∀ {item : (Path × T) × ℕ} {f : FailedItem}, failure src item = some f →
      f.index = item.2 := by
    intro item f hf
    unfold failure at hf
    split at hf
    · rw [← Option.some.inj hf]
    · exact absurd hf (by simp)
  rw [index_eq hb, index_eq hc]
  exact hlt

end Prepare

/-! ## The writes and their eviction -/

/-- The entry a prepared item becomes. -/
def Prepared.entry (payloadVersion : UInt32) (item : Prepared) : CachedEntry :=
  ⟨item.path, item.metadata, payloadVersion, some (item.payload.bytes, item.payload.tag)⟩

section Writes

variable {T : Type} {e : Engine} {src : Sources T} {w : World} {db : Db} {t t' : Tx}

/-- One upsert uses its entry. -/
theorem upsertPrepared_entries {item : Prepared} {id : ℕ} (hv : t.db.Valid)
    (h : upsertPrepared e w item t = .ok (id, t')) :
    t'.db.entries e.ns = refresh CachedEntry.path (t.db.entries e.ns) (item.entry e.payloadVersion) ∧
      ∃ row : FileRow, row.path = item.path ∧
        t'.db.byUse e.ns = refresh FileRow.path (t.db.byUse e.ns) row := by
  obtain ⟨hs, -⟩ := upsertInTx_stored hv h
  have hnew : ∀ r ∈ t.db.files, r.ns = e.ns →
      r.lastUsedUs < Sql.nextUse (w.nowUs t.readings) t.db e.ns := by
    intro r hr hns
    rw [← hns]
    exact Sql.lt_nextUse hr
  exact ⟨hs.entries hv hnew, _, rfl, hs.upserted.byUse hv hnew⟩

/-- The loop of a batch uses its entries, one after another. -/
theorem upsertAll_entries {items : List Prepared} {ids : List ℕ} (hv : t.db.Valid)
    (h : StateExcept.forEach (upsertPrepared e w) items t = .ok (ids, t')) :
    ids.length = items.length ∧
      t'.db.entries e.ns =
        (items.map (Prepared.entry e.payloadVersion)).foldl (refresh CachedEntry.path)
          (t.db.entries e.ns) ∧
      ∃ rows : List FileRow, rows.map FileRow.path = items.map Prepared.path ∧
        t'.db.byUse e.ns = rows.foldl (refresh FileRow.path) (t.db.byUse e.ns) := by
  refine (StateExcept.forEach_ok (fun done ids s => s.db.Valid ∧ ids.length = done.length ∧
    s.db.entries e.ns = (done.map (Prepared.entry e.payloadVersion)).foldl (refresh CachedEntry.path)
      (t.db.entries e.ns) ∧
    ∃ rows : List FileRow, rows.map FileRow.path = done.map Prepared.path ∧
      s.db.byUse e.ns = rows.foldl (refresh FileRow.path) (t.db.byUse e.ns)) ?_ items [] [] ids t t'
      ⟨hv, rfl, rfl, [], rfl, rfl⟩ h).2
  rintro done ids item id s s' ⟨hs, hlen, hentries, rows, hrows, hbyUse⟩ hstep
  obtain ⟨hentry, row, hpath, hrow⟩ := upsertPrepared_entries hs hstep
  obtain ⟨_, hu, -⟩ := upsertInTx_ok hs hstep
  refine ⟨hu.valid, by simp [hlen], ?_, rows ++ [row], by simp [hrows, hpath], ?_⟩
  · rw [hentry, hentries, List.map_append, List.foldl_append]
    rfl
  · rw [hrow, hbyUse, List.foldl_append]
    rfl

/-- The eviction after a write keeps the newest, if the paths written fit in the bound. -/
theorem enforceMaxEntries_entries {P : Db → FileRow → Prop} {paths : List String} {ids : List ℕ}
    {rows : List FileRow} {evicted : List String} (hv : db.Valid)
    (hu : Upserts e.ns P paths ids db t.db) (hrows : rows.map FileRow.path = paths)
    (hbyUse : t.db.byUse e.ns = rows.foldl (refresh FileRow.path) (db.byUse e.ns))
    (hdistinct : ∀ m, e.maxEntries = some m → distinctCount paths ≤ m)
    (h : enforceMaxEntries e w ids t = .ok (evicted, t')) :
    t'.db.Valid ∧ t'.db.entries e.ns = keepNewest e.maxEntries (t.db.entries e.ns) := by
  have hv' := hu.valid hv
  obtain ⟨used, hsplit, hused⟩ : ∃ used, rows.foldl (refresh FileRow.path) (db.byUse e.ns) =
      (db.byUse e.ns).filter (fun b => b.path ∉ rows.map FileRow.path) ++ used ∧
        ∀ b ∈ used, b.path ∈ rows.map FileRow.path := foldl_refresh_split (db.byUse e.ns) rows
  rw [← hbyUse, hrows] at hsplit
  rw [hrows] at hused
  obtain ⟨victims, hevicted, -⟩ := enforceMaxEntries_ok hv' h
  have hmem : ∀ r ∈ t.db.byUse e.ns, r.id ∈ ids ↔ r.path ∈ paths := by
    intro r hr
    rw [Db.mem_byUse] at hr
    rw [hu.mem_ids_iff hv hr.1]
    exact and_iff_right hr.2
  have husedLength : used.length ≤ distinctCount paths := by
    have hsub : used.Sublist (t.db.byUse e.ns) := hsplit ▸ List.sublist_append_right _ _
    have hnodup := (hv'.nodup_byUse_path e.ns).sublist (hsub.map FileRow.path)
    rw [← List.length_map FileRow.path]
    refine (List.subperm_of_subset hnodup fun path hpath => ?_).length_le
    obtain ⟨r, hr, rfl⟩ := List.mem_map.mp hpath
    exact List.mem_dedup.mpr (hused r hr)
  have hcount : excess e t.db + used.length ≤ (t.db.byUse e.ns).length := by
    have hlen : used.length ≤ (t.db.byUse e.ns).length := by
      rw [hsplit, List.length_append]
      omega
    unfold excess
    cases hmax : e.maxEntries with
    | none => simpa using hlen
    | some m =>
      have := hdistinct m hmax
      rw [← Db.length_byUse]
      dsimp only
      omega
  have hdrop := hevicted.byUse hv' hsplit
    (fun r hr hid => by
      have := (hmem r (hsplit ▸ List.mem_append_left _ hr)).mp hid
      simp [this] at hr)
    (fun r hr => (hmem r (hsplit ▸ List.mem_append_right _ hr)).mpr (hused r hr))
    (by
      rw [hsplit, List.length_append] at hcount
      omega)
  refine ⟨hevicted.valid, ?_⟩
  rw [(enforceMaxEntries_shrunk hv' h).entries, hdrop, List.map_drop]
  unfold keepNewest excess
  cases e.maxEntries with
  | none => rfl
  | some m =>
    dsimp only [newest]
    rw [Db.entries, List.length_map, Db.length_byUse]

/-- The upsert of a `set` succeeds on a working database. -/
theorem upsertPrepared_of_works (item : Prepared) (hv : db.Valid) (hworks : Works w 1 db)
    (huse : Sql.nextUse (w.nowUs 0) db e.ns < useValueLimit) :
    ∃ id t, upsertPrepared e w item ⟨db, 1, 0⟩ = .ok (id, t) := by
  obtain ⟨id, t, hrun, -⟩ := storeRow_of_lt e.ns item.path useError
    (fun db => ⟨item.metadata, w.nowSecs 0, e.payloadVersion, Sql.nextUse (w.nowUs 0) db e.ns⟩)
    item.payload.bytes item.payload.tag (t := ⟨db, 1, 1⟩) hworks.fault ⟨hv, hworks.ids⟩ huse
  exact ⟨id, t, hrun⟩

/-- A `set` of an item that prepares, on a working database, uses its entry and keeps the
newest. -/
theorem set_of_prepare {path : Path} {payload : T} {item : Prepared} (hv : db.Valid)
    (hro : e.readOnly = false) (hbound : e.maxEntries ≠ some 0) (hworks : Works w 1 db)
    (huse : Sql.nextUse (w.nowUs 0) db e.ns < useValueLimit)
    (hprepare : prepare src path payload = .ok item) :
    (set e src w path payload db).result = .ok () ∧ (set e src w path payload db).db.Valid ∧
      (set e src w path payload db).db.entries e.ns = keepNewest e.maxEntries
        (refresh CachedEntry.path (db.entries e.ns) (item.entry e.payloadVersion)) := by
  obtain ⟨id, t, hupsert⟩ := upsertPrepared_of_works item hv hworks huse
  obtain ⟨evicted, t', hevict, heq⟩ := boundedWrite_of_ok e hworks.fault
    (show (do
      let id ← upsertPrepared e w item
      pure ((), [id]) : TxM (Unit × List ℕ)) ⟨db, 1, 0⟩ = .ok (((), [id]), t) from
        StateExcept.bind_of_ok hupsert)
  obtain ⟨row₀, hu, rfl, hlt, hvalue, -⟩ := upsertInTx_ok hv hupsert
  obtain ⟨hentries, row, hpath, hbyUse⟩ := upsertPrepared_entries hv hupsert
  have hdistinct : ∀ m, e.maxEntries = some m → distinctCount [item.path] ≤ m := by
    intro m hm
    have : m ≠ 0 := fun h => hbound (h ▸ hm)
    show 1 ≤ m
    omega
  obtain ⟨hv', hkept⟩ := enforceMaxEntries_entries hv
    ((Upserts.nil db).snoc hu (show Newest e.ns db row₀ from ⟨hlt, _, hvalue⟩)) (by simp [hpath])
    (show t.db.byUse e.ns = [row].foldl (refresh FileRow.path) (db.byUse e.ns) from hbyUse)
    hdistinct hevict
  rw [set_eq e src w path payload db hro, hprepare]
  dsimp only
  rw [heq]
  exact ⟨rfl, hv', hkept.trans (by rw [hentries])⟩

/-- A `batch_set` that succeeded used the entries of the items that prepare and kept the
newest. -/
theorem batchSet_of_ok {items : List (Path × T)} {report : BatchSetReport} (hv : db.Valid)
    (h : (batchSet e src w items db).result = .ok report) :
    e.readOnly = false ∧ report.succeeded = (batchPrepared src items).length ∧
      report.failed = (batchFailed src items).map (fun item => (item.path, item.error)) ∧
        (batchSet e src w items db).db.entries e.ns = keepNewest e.maxEntries
          (((batchPrepared src items).map (Prepared.entry e.payloadVersion)).foldl
            (refresh CachedEntry.path) (db.entries e.ns)) := by
  unfold batchSet at h ⊢
  by_cases hro : e.readOnly
  · rw [if_pos hro] at h
    exact absurd h (by simp [Outcome.ofError])
  rw [if_neg hro] at h ⊢
  cases hcheck : checkDistinct e "items" "paths"
      ((batchOccupying src items).map Occupying.pathStr) with
  | error err =>
    rw [hcheck] at h
    exact absurd h (by simp [Outcome.ofError])
  | ok _ =>
    rw [hcheck] at h
    dsimp only at h ⊢
    rcases boundedWrite_inv (e := e) (w := w) (do
        let ids ← StateExcept.forEach (upsertPrepared e w) (batchPrepared src items)
        pure ((⟨ids.length, (batchFailed src items).map fun item => (item.path, item.error)⟩ :
          BatchSetReport), ids)) db with
      ⟨a, ids, t₀, t, evicted, t', rfl, hwrite, hevict, heq⟩ | ⟨err, heq⟩ <;> rw [heq] at h ⊢
    · obtain ⟨ids', hall, hpair⟩ := StateExcept.map_eq_ok hwrite
      obtain ⟨rfl, rfl⟩ := Prod.mk.inj hpair
      obtain rfl := Except.ok.inj h
      obtain ⟨hlen, hentries, rows, hrows, hbyUse⟩ := upsertAll_entries hv hall
      have hdistinct : ∀ m, e.maxEntries = some m →
          distinctCount ((batchPrepared src items).map Prepared.path) ≤ m := by
        intro m hm
        refine (distinctCount_le_of_subset fun path hpath => ?_).trans (checkDistinct_ok hcheck hm)
        obtain ⟨item, hitem, rfl⟩ := List.mem_map.mp hpath
        exact pathStr_of_mem_batchPrepared hitem
      obtain ⟨-, hkept⟩ := enforceMaxEntries_entries hv (upsertAll_ok hv hall) hrows hbyUse
        hdistinct hevict
      exact ⟨by simpa using hro, hlen, rfl, hkept.trans (by rw [hentries])⟩
    · exact absurd h (by simp [Outcome.ofError])

end Writes

/-! ## A batch and the sets of its items -/

section Sequence

variable {T : Type} (e : Engine) (src : Sources T)

/-- `set` on the items one after another, each in its own world. -/
def setAll : List (World × Path × T) → Db → List (Except Error Unit) × Db
  | [], db => ([], db)
  | (w, path, payload) :: calls, db =>
    let o := set e src w path payload db
    let rest := setAll calls o.db
    (o.result :: rest.1, rest.2)

/-- The database works for each of the sets, and the use order is not exhausted. -/
def SetsWork : List (World × Path × T) → Db → Prop
  | [], _ => True
  | (w, path, payload) :: calls, db =>
    Works w 1 db ∧ Sql.nextUse (w.nowUs 0) db e.ns < useValueLimit ∧
      SetsWork calls (set e src w path payload db).db

/-- The path a report names for an item that failed : its own, or the canonical one if it has
one. -/
def reportedPath (path : Path) : Path :=
  match occupy src path with
  | .error (path, _) => path
  | .ok (canonical, _, _) => canonical

/-- The items for which `set` returned an error, in order, as a report lists them. -/
def failedSets (calls : List (World × Path × T)) (results : List (Except Error Unit)) :
    List (Path × Error) :=
  (calls.zip results).filterMap fun call =>
    match call.2 with
    | .error err => some (reportedPath src call.1.2.1, err)
    | .ok () => none

variable {e src} {db : Db}

theorem reportedPath_of_prepare {path reported : Path} {payload : T} {err : Error}
    (h : prepare src path payload = .error (reported, err)) : reportedPath src path = reported := by
  unfold prepare at h
  unfold reportedPath
  rcases hocc : occupy src path with ⟨p, err'⟩ | ⟨canonical, pathStr, metadata⟩ <;> rw [hocc] at h
  · exact congrArg Prod.fst (Except.error.inj h)
  · dsimp only at h ⊢
    cases henc : src.encode pathStr payload with
    | error err' =>
      rw [henc] at h
      exact congrArg Prod.fst (Except.error.inj h)
    | ok encoded =>
      rw [henc] at h
      exact absurd h (by simp)

/-- Sets on a working database : each uses its entry and keeps the newest, or its item does not
prepare and it returns that error. -/
theorem setAll_of_setsWork (hro : e.readOnly = false) (hbound : e.maxEntries ≠ some 0) :
    ∀ (calls : List (World × Path × T)) {db : Db}, db.Valid → SetsWork e src calls db →
      failedSets src calls (setAll e src calls db).1 =
          (calls.filterMap fun call => match prepare src call.2.1 call.2.2 with
            | .error failed => some failed
            | .ok _ => none) ∧
        (setAll e src calls db).2.entries e.ns =
          ((calls.filterMap fun call => (prepare src call.2.1 call.2.2).toOption).map
            (Prepared.entry e.payloadVersion)).foldl
              (fun l a => keepNewest e.maxEntries (refresh CachedEntry.path l a)) (db.entries e.ns)
  | [], _, _, _ => ⟨rfl, rfl⟩
  | (w, path, payload) :: calls, db, hv, ⟨hworks, huse, hrest⟩ => by
    cases hprepare : prepare src path payload with
    | error failed =>
      obtain ⟨reported, err⟩ := failed
      have hset : set e src w path payload db = .ofError err db := by
        rw [set_eq e src w path payload db hro, hprepare]
      rw [hset] at hrest
      obtain ⟨hfailed, hentries⟩ := setAll_of_setsWork hro hbound calls hv hrest
      rw [failedSets] at hfailed
      refine ⟨?_, ?_⟩
      · simp only [failedSets, setAll, hset, Outcome.ofError, List.zip_cons_cons,
          List.filterMap_cons, hprepare, reportedPath_of_prepare hprepare, hfailed]
      · simp only [setAll, hset, Outcome.ofError, List.filterMap_cons, hprepare, Except.toOption]
        exact hentries
    | ok item =>
      obtain ⟨hok, hv', hset⟩ := set_of_prepare hv hro hbound hworks huse hprepare
      obtain ⟨hfailed, hentries⟩ := setAll_of_setsWork hro hbound calls hv' hrest
      rw [failedSets] at hfailed
      refine ⟨?_, ?_⟩
      · simp only [failedSets, setAll, hok, List.zip_cons_cons, List.filterMap_cons, hprepare,
          hfailed]
      · simp only [setAll, List.filterMap_cons, hprepare, Except.toOption, List.map_cons,
          List.foldl_cons, ← hset]
        exact hentries

/-- Each item prepares or fails. -/
theorem length_batchPrepared_add (items : List (Path × T)) :
    (batchPrepared src items).length + (batchFailed src items).length = items.length := by
  rw [batchPrepared_eq, batchFailed_eq]
  have h : ∀ (k : ℕ) (items : List (Path × T)),
      (items.filterMap fun item => (prepare src item.1 item.2).toOption).length +
        ((items.zipIdx k).filterMap (failure src)).length = items.length := by
    intro k items
    induction items generalizing k with
    | nil => rfl
    | cons item items ih =>
      rw [List.zipIdx_cons, List.filterMap_cons, List.filterMap_cons, failure]
      have := ih (k + 1)
      dsimp only
      cases prepare src item.1 item.2 with
      | error failed => exact congrArg Nat.succ this
      | ok prepared => exact (Nat.succ_add _ _).trans (congrArg Nat.succ this)
  exact h 0 items

/-- The failures a report lists, in the items' order. -/
theorem map_batchFailed (items : List (Path × T)) :
    (batchFailed src items).map (fun item => (item.path, item.error)) =
      items.filterMap fun item => match prepare src item.1 item.2 with
        | .error failed => some failed
        | .ok _ => none := by
  rw [batchFailed_eq]
  have h : ∀ (k : ℕ) (items : List (Path × T)),
      ((items.zipIdx k).filterMap (failure src)).map (fun item => (item.path, item.error)) =
        items.filterMap fun item => match prepare src item.1 item.2 with
          | .error failed => some failed
          | .ok _ => none := by
    intro k items
    induction items generalizing k with
    | nil => rfl
    | cons item items ih =>
      rw [List.zipIdx_cons, List.filterMap_cons, List.filterMap_cons, ← ih (k + 1), failure]
      dsimp only
      cases prepare src item.1 item.2 <;> rfl
  exact h 0 items

/-- Keeping the newest after every use, or once at the end, if something is used or the list is
within the bound. -/
theorem foldl_keepNewest {bound : Option ℕ} {l : List CachedEntry} (as : List CachedEntry)
    (hl : (l.map CachedEntry.path).Nodup)
    (h : as ≠ [] ∨ ∀ m, bound = some m → l.length ≤ m) :
    as.foldl (fun l a => keepNewest bound (refresh CachedEntry.path l a)) l =
      keepNewest bound (as.foldl (refresh CachedEntry.path) l) := by
  cases bound with
  | none => rfl
  | some m =>
    dsimp only [keepNewest]
    cases as with
    | nil => exact (newest_of_length_le (h.resolve_left (by simp) m rfl)).symm
    | cons a as =>
      rw [List.foldl_cons, List.foldl_cons]
      exact foldl_newest_refresh m as (nodup_refresh hl a)

/-- A batch that succeeds does what the sets of its items do one after another : it lists the
failures of those sets, and leaves the same entries in the same order of eviction, if some item
prepares or the namespace is within the bound. -/
theorem batchSet_eq_setAll {w : World} {calls : List (World × Path × T)} {report : BatchSetReport}
    (hv : db.Valid) (hbound : e.maxEntries ≠ some 0)
    (hok : (batchSet e src w (calls.map Prod.snd) db).result = .ok report)
    (hworks : SetsWork e src calls db)
    (hsome : batchPrepared src (calls.map Prod.snd) ≠ [] ∨
      ∀ m, e.maxEntries = some m → (db.inNamespace e.ns).length ≤ m) :
    report.succeeded + report.failed.length = calls.length ∧
      report.failed = failedSets src calls (setAll e src calls db).1 ∧
      (batchSet e src w (calls.map Prod.snd) db).db.entries e.ns =
        (setAll e src calls db).2.entries e.ns := by
  obtain ⟨hro, hsucceeded, hfailed, hentries⟩ := batchSet_of_ok hv hok
  obtain ⟨hsets, hsetEntries⟩ := setAll_of_setsWork hro hbound calls hv hworks
  refine ⟨?_, ?_, ?_⟩
  · rw [hsucceeded, hfailed, List.length_map, length_batchPrepared_add, List.length_map]
  · rw [hfailed, hsets, map_batchFailed, List.filterMap_map]
    rfl
  · have hprepared : batchPrepared src (calls.map Prod.snd) =
        calls.filterMap fun call => (prepare src call.2.1 call.2.2).toOption := by
      rw [batchPrepared_eq, List.filterMap_map]
      rfl
    rw [hentries, hsetEntries, ← hprepared, foldl_keepNewest _ (hv.nodup_entries_path e.ns)]
    refine hsome.imp (fun h => by simpa using h) fun h m hm => ?_
    rw [Db.entries, List.length_map, Db.length_byUse]
    exact h m hm

/-- Two rows of "n", written without a bound. -/
def twoRows : Db where
  files := [⟨1, "n", "/a", ⟨0, 0, none⟩, 0, 0, 1⟩, ⟨2, "n", "/b", ⟨0, 0, none⟩, 0, 0, 2⟩]
  payloads := [⟨1, [], "bin"⟩, ⟨2, [], "bin"⟩]
  seq := 2

theorem valid_twoRows : twoRows.Valid :=
  ⟨by decide, by decide, by decide, by decide, by decide⟩

/-- On the way the sets evict the row of `/a`, which the second item rewrites. -/
theorem batchSet_eq_setAll_sample :
    let e := Engine.plain "n" (some 2)
    let calls : List (World × Path × Unit) := [(.quiet, [47, 99], ()), (.quiet, [47, 97], ())]
    ((set e .quiet .quiet [47, 99] () twoRows).db.entries "n").map CachedEntry.path = ["/b", "/c"] ∧
      ((setAll e .quiet calls twoRows).2.entries "n").map CachedEntry.path = ["/c", "/a"] ∧
      (batchSet e .quiet .quiet (calls.map Prod.snd) twoRows).db.entries "n" =
        (setAll e .quiet calls twoRows).2.entries "n" := by
  intro e calls
  have hok : (batchSet e .quiet .quiet (calls.map Prod.snd) twoRows).result.toBool = true := by
    decide +kernel
  have hworks : SetsWork e .quiet calls twoRows :=
    ⟨⟨fun _ => rfl, by decide⟩, by decide +kernel, ⟨fun _ => rfl, by decide +kernel⟩,
      by decide +kernel, trivial⟩
  refine ⟨by decide +kernel, by decide +kernel, ?_⟩
  cases hreport : (batchSet e .quiet .quiet (calls.map Prod.snd) twoRows).result with
  | error err => exact absurd (hreport ▸ hok) (by simp [Except.toBool])
  | ok report =>
    exact (batchSet_eq_setAll valid_twoRows (by decide) hreport hworks
      (Or.inl (by decide +kernel))).2.2

/-- A batch without items evicts what no sequence of sets does. -/
theorem emptyBatch_evicts :
    let e := Engine.plain "n" (some 1)
    (∃ report, (batchSet e .quiet .quiet ([] : List (Path × Unit)) twoRows).result = .ok report) ∧
      (batchSet e .quiet .quiet ([] : List (Path × Unit)) twoRows).db.entries "n" ≠
        (setAll e .quiet [] twoRows).2.entries "n" :=
  ⟨⟨_, rfl⟩, by decide⟩

end Sequence

end LocalCache
