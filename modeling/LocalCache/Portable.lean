import LocalCache.BatchSequence
import LocalCache.ImportContract
import LocalCache.Listing

/-!
# Export and import

An export lists a namespace in the order of eviction, with its use values cut to seconds, and
an import turns the seconds back into use values. Entries used within one second then have equal
use values, but the ids of their new rows grow in the order of the records, and ids decide among
equal uses. So an import into an empty namespace restores the entries in the order of the source
(`exported_restored`).
-/

namespace LocalCache

/-! ## Entries as records have them -/

section FullRows

variable {ns : String} {db db' : Db}

/-- A row with its payload, its use value in seconds. -/
def Db.fullRow (db : Db) (r : FileRow) : Option FullRow :=
  (db.payload? r.id).map fun p => ⟨r.path, p.content, p.encoding, r.metadata, r.payloadVersion,
    r.updatedAt, r.lastUsedUs.tdiv 1000000⟩

theorem Sql.loadAllFull_eq (ns : String) (db : Db) :
    Sql.loadAllFull ns db = (db.byUse ns).filterMap db.fullRow := by
  rw [Sql.loadAllFull, Sql.joinRows, List.map_filterMap]
  refine List.filterMap_congr fun r _ => ?_
  rw [Db.fullRow]
  cases db.payload? r.id with
  | none => rfl
  | some p => simp only [Option.map_some, castSize_eq, castVersion_eq]

theorem filterMap_of_map_eq {α β : Type} {f : α → Option β} {l : List α} {bs : List β}
    (h : l.map f = bs.map some) : l.filterMap f = bs := by
  have hid : l.filterMap f = (l.map f).filterMap id := by rw [List.filterMap_map]; rfl
  rw [hid, h, List.filterMap_map]
  exact List.filterMap_some

/-- Of whole tables, the entries are one for each row. -/
theorem Db.Whole.map_fullRow (hw : db.Whole) (ns : String) :
    (db.byUse ns).map db.fullRow = (Sql.loadAllFull ns db).map some := by
  rw [Sql.loadAllFull_eq, List.map_filterMap]
  symm
  refine List.filterMap_eq_map_iff_forall_eq_some.mpr fun r hr => ?_
  obtain ⟨p, hp⟩ := hw.payload r (Db.mem_byUse.mp hr).1
  rw [Db.fullRow, hp]
  rfl

end FullRows

/-! ## Records that an import restores -/

/-- Records under distinct paths, used at positive seconds that are in range, the oldest use
first. -/
structure Restorable (rows : List FullRow) : Prop where
  paths : (rows.map FullRow.path).Nodup
  sorted : rows.Pairwise fun row row' => row.lastAccessedAt ≤ row'.lastAccessedAt
  positive : ∀ row ∈ rows, 0 < row.lastAccessedAt
  range : ∀ row ∈ rows, row.lastAccessedAt * 1000000 < useValueLimit

theorem useValueOfRecord_of_pos {seconds updatedAt : ℤ} (hpos : 0 < seconds)
    (hrange : seconds * 1000000 < useValueLimit) :
    useValueOfRecord seconds updatedAt = some (seconds * 1000000) := by
  unfold useValueOfRecord checkedMul
  unfold useValueLimit at hrange ⊢
  simp only [gt_iff_lt, hpos, if_true]
  rw [if_neg (by omega), if_pos (by omega), Option.filter_some, if_pos (by simpa using hrange)]

/-- The records that a namespace of whole tables exports, if no use is within the first second. -/
theorem Db.Whole.restorable {db : Db} (hw : db.Whole) (hrange : ∀ r ∈ db.files, r.InRange) {ns : String}
    (huse : ∀ r ∈ db.inNamespace ns, 1000000 ≤ r.lastUsedUs) :
    Restorable (Sql.loadAllFull ns db) := by
  have hfull : ∀ r ∈ db.byUse ns, ∀ row, db.fullRow r = some row →
      row.path = r.path ∧ row.lastAccessedAt = r.lastUsedUs / 1000000 ∧
        1000000 ≤ r.lastUsedUs ∧ r.lastUsedUs < useValueLimit := by
    intro r hr row hrow
    obtain ⟨p, -, rfl⟩ := Option.map_eq_some_iff.mp hrow
    have hmem := Db.mem_byUse.mp hr
    have hlow := huse r (Db.mem_inNamespace.mpr hmem)
    exact ⟨rfl, Int.tdiv_eq_ediv_of_nonneg (by omega), hlow, (hrange r hmem.1).2⟩
  rw [Sql.loadAllFull_eq]
  refine ⟨?_, ?_, fun row hrow => ?_, fun row hrow => ?_⟩
  · exact (hw.valid.nodup_byUse_path ns).sublist
      (sublist_filterMap_map fun r hr row hrow => (hfull r hr row hrow).1)
  · refine List.pairwise_filterMap.mpr ((hw.valid.pairwise_byUse ns).imp_of_mem ?_)
    intro r r' hr hr' hlt row hrow row' hrow'
    rw [(hfull r hr row hrow).2.1, (hfull r' hr' row' hrow').2.1]
    have hle : r.lastUsedUs ≤ r'.lastUsedUs := by
      rcases Prod.Lex.toLex_lt_toLex.mp hlt with hlt | ⟨heq, -⟩
      · exact hlt.le
      · exact heq.le
    exact Int.ediv_le_ediv (by omega) hle
  · obtain ⟨r, hr, hrow⟩ := List.mem_filterMap.mp hrow
    obtain ⟨-, hsec, hlow, -⟩ := hfull r hr row hrow
    omega
  · obtain ⟨r, hr, hrow⟩ := List.mem_filterMap.mp hrow
    obtain ⟨-, hsec, hlow, hhigh⟩ := hfull r hr row hrow
    omega

/-! ## The import -/

section Import

variable {ns : String} {w : World} {t t' : Tx} {db : Db} {rows done : List FullRow} {row : FullRow}
  {ids : List ℕ} {id : ℕ}

/-- The namespace holds these entries, in the order of eviction, used at whole seconds. -/
structure Restored (ns : String) (rows : List FullRow) (db : Db) : Prop where
  valid : db.Valid
  entries : (db.byUse ns).map db.fullRow = rows.map some
  seconds : ∀ r ∈ db.byUse ns, r.lastUsedUs.tdiv 1000000 * 1000000 = r.lastUsedUs

theorem restored_nil (hv : db.Valid) (hempty : db.inNamespace ns = []) : Restored ns [] db := by
  have hnil : db.byUse ns = [] := by rw [Db.byUse, hempty]; rfl
  exact ⟨hv, by rw [hnil]; rfl, fun r hr => absurd hr (by rw [hnil]; exact List.not_mem_nil)⟩

/-- Every row is one of the records. -/
theorem Restored.exists_row (h : Restored ns done db) {r : FileRow} (hr : r ∈ db.byUse ns) :
    ∃ row ∈ done, row.path = r.path ∧ row.lastAccessedAt = r.lastUsedUs.tdiv 1000000 := by
  have hmem : db.fullRow r ∈ done.map some := h.entries ▸ List.mem_map_of_mem hr
  obtain ⟨row, hrow, heq⟩ := List.mem_map.mp hmem
  obtain ⟨p, -, rfl⟩ := Option.map_eq_some_iff.mp heq.symm
  exact ⟨_, hrow, rfl, rfl⟩

/-- The next record comes after all others, by its second or by its id. -/
theorem Restored.snoc (h : Restored ns done t.db) (hrows : Restorable (done ++ [row]))
    (hrun : importRowInTx w ns row t = .ok (id, t')) : Restored ns (done ++ [row]) t'.db := by
  have hlast : row ∈ done ++ [row] := List.mem_append_right _ List.mem_cons_self
  obtain ⟨useValue, hvalue, hs⟩ := importRowInTx_stored h.valid hrun
  obtain rfl : row.lastAccessedAt * 1000000 = useValue := Option.some.inj
    ((useValueOfRecord_of_pos (hrows.positive row hlast) (hrows.range row hlast)).symm.trans hvalue)
  generalize hstored : Sql.FileColumns.toRow _ id ns row.path = stored at hs
  have huse : stored.lastUsedUs = row.lastAccessedAt * 1000000 := by rw [← hstored]; rfl
  have hv' := hs.upserted.valid
  -- no row has the path yet, so the row is new
  have hnew : ∀ r ∈ t.db.files, ¬Db.HasKey ns row.path r := by
    intro r hr hk
    obtain ⟨row', hrow', hpath, -⟩ := h.exists_row (Db.mem_byUse.mpr ⟨hr, hk.1⟩)
    have hnodup := hrows.paths
    rw [List.map_append, List.nodup_append] at hnodup
    exact hnodup.2.2 _ (List.mem_map_of_mem hrow') _ List.mem_cons_self (hpath.trans hk.2)
  have hid : t.db.seq < stored.id := by
    rcases hs.upserted.id with ⟨old, hold, hk, -⟩ | ⟨hlt, -⟩
    · exact absurd hk (hnew old hold)
    · exact hlt
  have hbyUse : t'.db.byUse ns = t.db.byUse ns ++ [stored] := by
    refine eq_of_pairwise_lt Sql.useKey (hv'.pairwise_byUse ns) ?_ fun r => ?_
    · refine List.pairwise_append.mpr ⟨h.valid.pairwise_byUse ns, List.pairwise_singleton _ _,
        fun r hr r' hr' => ?_⟩
      rw [List.mem_singleton.mp hr']
      obtain ⟨row', hrow', -, hsec⟩ := h.exists_row hr
      have hle : row'.lastAccessedAt ≤ row.lastAccessedAt :=
        (List.pairwise_append.mp hrows.sorted).2.2 row' hrow' row List.mem_cons_self
      have hwhole := h.seconds r hr
      have hseq := h.valid.seq r (Db.mem_byUse.mp hr).1
      refine Prod.Lex.toLex_lt_toLex.mpr ?_
      rw [huse]
      rcases hle.lt_or_eq with hlt | heq
      · exact Or.inl (by omega)
      · exact Or.inr ⟨by omega, by omega⟩
    · rw [Db.mem_byUse, hs.upserted.mem r, List.mem_append, Db.mem_byUse, List.mem_singleton]
      constructor
      · rintro ⟨rfl | ⟨hr, -⟩, hns⟩
        · exact Or.inr rfl
        · exact Or.inl ⟨hr, hns⟩
      · rintro (⟨hr, hns⟩ | rfl)
        · exact ⟨Or.inr ⟨hr, hnew r hr⟩, hns⟩
        · exact ⟨Or.inl rfl, hs.upserted.hasKey.1⟩
  refine ⟨hv', ?_, fun r hr => ?_⟩
  · rw [hbyUse, List.map_append, List.map_append, List.map_singleton, List.map_singleton, ← h.entries]
    congr 1
    · refine List.map_congr_left fun r hr => ?_
      have hne : r.id ≠ stored.id :=
        ((h.valid.seq r (Db.mem_byUse.mp hr).1).trans_lt hid).ne
      rw [Db.fullRow, Db.fullRow, hs.others r.id hne]
    · rw [Db.fullRow, hs.payload, huse, Int.mul_tdiv_cancel _ (by decide), ← hstored]
      rfl
  · rw [hbyUse] at hr
    rcases List.mem_append.mp hr with hr | hr
    · exact h.seconds r hr
    · rw [List.mem_singleton.mp hr, huse, Int.mul_tdiv_cancel _ (by decide)]

theorem Restorable.of_append (h : Restorable (done ++ rows)) : Restorable done where
  paths := h.paths.sublist ((List.sublist_append_left done rows).map _)
  sorted := h.sorted.sublist (List.sublist_append_left done rows)
  positive row hrow := h.positive row (List.mem_append_left _ hrow)
  range row hrow := h.range row (List.mem_append_left _ hrow)

/-- An import into an empty namespace restores its records. -/
theorem restored_importRowsInTx (hv : t.db.Valid) (hempty : t.db.inNamespace ns = [])
    (hrows : Restorable rows) (h : importRowsInTx w ns rows t = .ok (ids, t')) :
    Restored ns rows t'.db := by
  refine StateExcept.forEach_ok (fun done _ (s : Tx) => Restorable done → Restored ns done s.db) ?_
    rows [] [] ids t t' (fun _ => restored_nil hv hempty) h hrows
  intro done ids row id s s' hs hstep hdone
  exact (hs hdone.of_append).snoc hdone hstep

/-- An eviction within the bound changes nothing. -/
theorem Restored.enforceMaxEntries {e : Engine} {evicted : List String} (h : Restored e.ns rows t.db)
    (hmax : ∀ m, e.maxEntries = some m → rows.length ≤ m)
    (hrun : enforceMaxEntries e w ids t = .ok (evicted, t')) : Restored e.ns rows t'.db := by
  obtain ⟨victims, hevicted, -⟩ := enforceMaxEntries_ok h.valid hrun
  have hshrunk := enforceMaxEntries_shrunk h.valid hrun
  have hlen : (t.db.inNamespace e.ns).length = rows.length := by
    rw [← Db.length_byUse, ← List.length_map (f := t.db.fullRow), h.entries, List.length_map]
  have hexcess : excess e t.db = 0 := by
    unfold excess
    cases hm : e.maxEntries with
    | none => rfl
    | some m =>
      dsimp only
      rw [hlen]
      exact Nat.sub_eq_zero_of_le (hmax m hm)
  have hnil : victims = [] := by
    have hzero := hevicted.least.length_eq
    rw [hexcess, Nat.zero_min] at hzero
    exact List.length_eq_zero_iff.mp hzero
  have hbyUse : t'.db.byUse e.ns = t.db.byUse e.ns := by
    refine eq_of_pairwise_lt Sql.useKey (hevicted.valid.pairwise_byUse _) (h.valid.pairwise_byUse _)
      fun r => ?_
    rw [Db.mem_byUse, Db.mem_byUse, hevicted.mem r, hnil]
    simp
  refine ⟨hevicted.valid, ?_, fun r hr => h.seconds r (hbyUse ▸ hr)⟩
  rw [hbyUse, ← h.entries]
  refine List.map_congr_left fun r hr => ?_
  rw [Db.fullRow, Db.fullRow, hshrunk.payload r (Db.mem_byUse.mp (hbyUse.symm ▸ hr)).1]

theorem distinctCount_le (paths : List String) : distinctCount paths ≤ paths.length :=
  (List.dedup_sublist paths).length_le

/-- An import of restorable rows into an empty namespace, on a database that works. -/
theorem importBounded_restores {e : Engine} (hv : db.Valid) (hempty : db.inNamespace e.ns = [])
    (hrows : Restorable rows) (hworks : Works w rows.length db)
    (hkey : e.encryptionKey.isSome = true → ∀ row ∈ rows, sealState row.encoding = .bound)
    (hmax : ∀ m, e.maxEntries = some m → rows.length ≤ m) :
    (importBounded e w rows db).result = .ok rows.length ∧
      Restored e.ns rows (importBounded e w rows db).db := by
  unfold importBounded
  by_cases hnil : rows = []
  · subst hnil
    exact ⟨rfl, restored_nil hv hempty⟩
  rw [if_neg (by simpa using hnil)]
  have huse : ∀ row ∈ rows, (useValueOfRecord row.lastAccessedAt row.updatedAt).isSome := by
    intro row hrow
    rw [useValueOfRecord_of_pos (hrows.positive row hrow) (hrows.range row hrow)]
    rfl
  have hdistinct : ∀ m, e.maxEntries = some m → distinctCount (rows.map FullRow.path) ≤ m :=
    fun m hm => ((distinctCount_le _).trans_eq (List.length_map _)).trans (hmax m hm)
  have hcheck : (do
      checkBound e rows
      checkRecency rows
      checkDistinct e "records" "entries" (rows.map FullRow.path)) = Except.ok () :=
    (checksFor_bound.andThen (checksFor_recency.andThen checksFor_distinct)).1
      ⟨hkey, huse, hdistinct⟩
  rw [hcheck]
  have htotal : StateExcept.Total (Roomy w rows.length) (do
      let ids ← importRowsInTx w e.ns rows
      pure (rows.length, ids)) fun q _ => q.1 = rows.length :=
    (total_importRowsInTx hworks.fault huse).bind fun _ => StateExcept.Total.pure fun _ _ => rfl
  obtain ⟨n, ids, t, evicted, t', hwrite, rfl, hevict, ho⟩ :=
    boundedWrite_of_total (e := e) hworks hv htotal
  obtain ⟨ids', hloop, heq⟩ := StateExcept.map_eq_ok hwrite
  obtain ⟨-, rfl⟩ := Prod.mk.inj heq
  dsimp only
  rw [ho]
  exact ⟨rfl, (restored_importRowsInTx hv hempty hrows hloop).enforceMaxEntries hmax hevict⟩

end Import

/-! ## Every source reached -/

section Exported

variable {T : Type} {src : Sources T} {encodeBase64 : List UInt8 → String}

/-- Decoding an export gives the rows back. -/
theorem mapM_toFullRow_toExportRecord
    (hbase64 : ∀ content, src.decodeBase64 (encodeBase64 content) = .ok content) (rows : List FullRow) :
    (rows.map (FullRow.toExportRecord encodeBase64)).mapM (ExportRecord.toFullRow src) = .ok rows := by
  have hrow : ∀ row : FullRow, ExportRecord.toFullRow src (row.toExportRecord encodeBase64) = .ok row := by
    intro row
    rw [ExportRecord.toFullRow, FullRow.toExportRecord]
    dsimp only
    rw [hbase64]
  induction rows with
  | nil => rfl
  | cons row rows ih =>
    rw [List.map_cons, List.mapM_cons, hrow, ih]
    rfl

/-- An import from an engine stores what an import of its export does. -/
theorem importFrom_eq_importEntries (e : Engine) (w : World)
    (hbase64 : ∀ content, src.decodeBase64 (encodeBase64 content) = .ok content) (rows : List FullRow)
    (db : Db) : importFrom e w (.ok rows) db =
      importEntries e src w (rows.map (FullRow.toExportRecord encodeBase64)) db := by
  rw [importFrom, importEntries, mapM_toFullRow_toExportRecord hbase64]

/-- The two namespaces hold the same entries : paths, payloads, tags, metadata, versions, times
of writing and seconds of use, in the same order of eviction. -/
structure SameEntries (ns : String) (db : Db) (ns' : String) (db' : Db) : Prop where
  entries : (db'.byUse ns').map db'.fullRow = (db.byUse ns).map db.fullRow
  whole : ∀ r ∈ db'.byUse ns', (db'.fullRow r).isSome
  evicts : ∀ limit, (Sql.evictionCandidates ns' limit db').map FileRow.path =
    (Sql.evictionCandidates ns limit db).map FileRow.path

theorem map_path_of_fullRow {db : Db} {rows : List FileRow} (h : ∀ r ∈ rows, (db.fullRow r).isSome) :
    rows.map FileRow.path =
      (rows.map db.fullRow).map fun row => (row.map FullRow.path).getD "" := by
  rw [List.map_map]
  refine List.map_congr_left fun r hr => ?_
  obtain ⟨row, hrow⟩ := Option.isSome_iff_exists.mp (h r hr)
  obtain ⟨p, -, rfl⟩ := Option.map_eq_some_iff.mp hrow
  rw [Function.comp_apply, hrow]
  rfl

theorem Restored.sameEntries {db dest : Db} {ns ns' : String} (hw : db.Whole)
    (h : Restored ns' (Sql.loadAllFull ns db) dest) : SameEntries ns db ns' dest := by
  have hsome : ∀ {l : List FileRow} {db : Db} {rows : List FullRow}, l.map db.fullRow = rows.map some →
      ∀ r ∈ l, (db.fullRow r).isSome := by
    intro l db rows heq r hr
    obtain ⟨row, -, hrow⟩ := List.mem_map.mp (heq ▸ List.mem_map_of_mem hr)
    rw [← hrow]
    rfl
  have hentries : (dest.byUse ns').map dest.fullRow = (db.byUse ns).map db.fullRow :=
    h.entries.trans (hw.map_fullRow ns).symm
  have hpaths : (dest.byUse ns').map FileRow.path = (db.byUse ns).map FileRow.path := by
    rw [map_path_of_fullRow (hsome h.entries), map_path_of_fullRow (hsome (hw.map_fullRow ns)), hentries]
  refine ⟨hentries, hsome h.entries, fun limit => ?_⟩
  rw [Sql.evictionCandidates, Sql.evictionCandidates, ← Sql.limitRows_map, ← Sql.limitRows_map]
  exact congrArg (Sql.limitRows limit) hpaths

namespace Sessions

/-- An export of a namespace that sessions reached, with no use within the first second, is
restored by an import into an empty namespace, on a database that works. -/
theorem exported_restored {U : Type} {host : Host U} {engines : ℕ → Engine} {s : Sessions U}
    (hs : Reached host engines Db.empty s) {source dest : Engine}
    (huse : ∀ r ∈ s.db.inNamespace source.ns, 1000000 ≤ r.lastUsedUs) {db : Db} (hv : db.Valid)
    (hempty : db.inNamespace dest.ns = []) (hwritable : dest.readOnly = false)
    (hkey : dest.encryptionKey.isSome = true → ∀ r ∈ s.db.inNamespace source.ns,
      ∀ p, s.db.payload? r.id = some p → sealState p.encoding = .bound)
    (hmax : ∀ m, dest.maxEntries = some m → (s.db.inNamespace source.ns).length ≤ m)
    (hbase64 : ∀ content, src.decodeBase64 (encodeBase64 content) = .ok content) {w w' : World}
    (hworks : Works w (s.db.inNamespace source.ns).length db) (hfault : ∀ k, w'.fault k = none) :
    ∃ records, exportEntries source w' s.db encodeBase64 = .ok records ∧
      (importEntries dest src w records db).result = .ok records.length ∧
      SameEntries source.ns s.db dest.ns (importEntries dest src w records db).db ∧
      exportEntries dest w' (importEntries dest src w records db).db encodeBase64 = .ok records ∧
      importFrom dest w (loadAllFull source w' s.db) db = importEntries dest src w records db := by
  obtain ⟨hw, hrange⟩ := Reached.whole hs
  have hread : ∀ (e : Engine) (db : Db), loadAllFull e w' db = .ok (Sql.loadAllFull e.ns db) :=
    fun e db => autocommit_select hfault _
  have hexport : ∀ (e : Engine) (db : Db), exportEntries e w' db encodeBase64 =
      .ok ((Sql.loadAllFull e.ns db).map (FullRow.toExportRecord encodeBase64)) := by
    intro e db
    rw [exportEntries, hread]
    rfl
  have hlen : (Sql.loadAllFull source.ns s.db).length = (s.db.inNamespace source.ns).length := by
    rw [← Db.length_byUse, ← List.length_map (f := some), ← hw.map_fullRow, List.length_map]
  have hsealed : dest.encryptionKey.isSome = true → ∀ row ∈ Sql.loadAllFull source.ns s.db,
      sealState row.encoding = .bound := by
    intro hsome row hrow
    rw [Sql.loadAllFull_eq] at hrow
    obtain ⟨r, hr, hfull⟩ := List.mem_filterMap.mp hrow
    obtain ⟨p, hp, rfl⟩ := Option.map_eq_some_iff.mp hfull
    exact hkey hsome r (Db.mem_inNamespace.mpr (Db.mem_byUse.mp hr)) p hp
  obtain ⟨hresult, hrestored⟩ := importBounded_restores hv hempty (hw.restorable hrange huse)
    (hlen ▸ hworks) hsealed (fun m hm => hlen.trans_le (hmax m hm))
  have himport : importEntries dest src w ((Sql.loadAllFull source.ns s.db).map
      (FullRow.toExportRecord encodeBase64)) db =
        importBounded dest w (Sql.loadAllFull source.ns s.db) db := by
    rw [importEntries, if_neg (by simp [hwritable]), mapM_toFullRow_toExportRecord hbase64]
  refine ⟨_, hexport source s.db, ?_, ?_, ?_, ?_⟩
  · rw [himport, hresult, List.length_map]
  · rw [himport]
    exact hrestored.sameEntries hw
  · rw [himport, hexport, Sql.loadAllFull_eq dest.ns, filterMap_of_map_eq hrestored.entries]
  · rw [hread]
    exact importFrom_eq_importEntries dest w hbase64 _ db

end Sessions

end Exported

/-! ## Two entries used within one second -/

section Samples

/-- The clock of uses stands at this microsecond. -/
def World.atUs (now : Fin (2 ^ 63)) : World := { World.quiet with nowUs _ := now }

/-- The numerals of the clock. -/
local instance neZero_clock : NeZero (2 ^ 63) := ⟨by decide⟩

def setAtUs (now : Fin (2 ^ 63)) (path : Path) : SessionEvent Unit :=
  ⟨0, ⟨.atUs now, .quiet, fun _ => false⟩, .invoke (.write (.set .quiet path ()))⟩

/-- `/a` and `/b` are stored, and `/a` again, all within one second. -/
def withinOneSecond : List (SessionEvent Unit) :=
  [setAtUs 1000000 [47, 97], setAtUs 1000001 [47, 98], setAtUs 1000002 [47, 97]]

/-- Each byte as a character. It stands for Base64, and agrees with it on the empty payload. -/
def encodeChars (content : List UInt8) : String :=
  String.ofList (content.map fun b => Char.ofNat b.toNat)

def Sources.chars : Sources Unit :=
  { Sources.quiet with decodeBase64 := fun s => .ok (s.toList.map fun c => UInt8.ofNat c.toNat) }

theorem decodeBase64_encodeChars (content : List UInt8) :
    Sources.chars.decodeBase64 (encodeChars content) = .ok content := by
  have hchar : ∀ n < 256, (Char.ofNat n).toNat = n := by decide +kernel
  have hbyte : ∀ b : UInt8, UInt8.ofNat (Char.ofNat b.toNat).toNat = b := fun b => by
    rw [hchar b.toNat b.toNat_lt, UInt8.ofNat_toNat]
  simp [Sources.chars, encodeChars, List.map_map, Function.comp_def, hbyte]

theorem Sessions.exported_restored_sample :
    let db := (runFrom (Sessions.step Host.quiet) (Sessions.init (fun _ => .plain "n" none) Db.empty)
      withinOneSecond).db
    let source := Engine.plain "n" none
    let dest := Engine.plain "m" (some 2)
    ∃ records, exportEntries source .quiet db encodeChars = .ok records ∧
      (importEntries dest Sources.chars .quiet records db).result = .ok records.length ∧
      SameEntries "n" db "m" (importEntries dest Sources.chars .quiet records db).db ∧
      exportEntries dest .quiet (importEntries dest Sources.chars .quiet records db).db encodeChars =
        .ok records ∧
      importFrom dest .quiet (loadAllFull source .quiet db) db =
        importEntries dest Sources.chars .quiet records db := by
  intro db source dest
  have hs : Sessions.Reached Host.quiet (fun _ => .plain "n" none) Db.empty (runFrom
    (Sessions.step Host.quiet) (Sessions.init (fun _ => .plain "n" none) Db.empty) withinOneSecond) :=
      ⟨withinOneSecond, rfl⟩
  have hlen : (db.inNamespace source.ns).length = 2 := by decide +kernel
  refine Sessions.exported_restored hs (by decide +kernel)
    (Sessions.Reached.whole hs).1.valid (by decide +kernel) rfl (fun h => absurd h (by simp [dest, Engine.plain]))
    (fun m hm => ?_) decodeBase64_encodeChars ⟨fun _ => rfl, ?_⟩ fun _ => rfl
  · rw [← Option.some.inj hm]
    exact hlen.le
  · rw [hlen]
    decide +kernel

end Samples

end LocalCache
