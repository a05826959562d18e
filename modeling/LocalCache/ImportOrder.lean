import LocalCache.ImportContract
import LocalCache.Paging

/-!
# The order of imported entries

The documentation of `import_entries` orders the entries of one second by the order of the records.
The tie is decided by the row ids : a path that is new takes an id above all before, in the order of
the records, and a path that is there keeps its own. So the records of one second keep their order
exactly when, of any two, the later one's path was there before only if the earlier one's was, under
a smaller id (`importEntries_ordered_iff`).
-/

namespace LocalCache

/-! ## The ids of upserts -/

namespace Upserts

variable {ns : String} {P : Db → FileRow → Prop} {paths : List String} {ids : List ℕ} {db db' : Db}

theorem seq_le (h : Upserts ns P paths ids db db') : db.seq ≤ db'.seq := by
  induction h with
  | nil => exact le_rfl
  | snoc _ last _ ih => exact ih.trans last.seq

/-- No key is lost. -/
theorem exists_of_old (h : Upserts ns P paths ids db db') {path : String} {old : FileRow}
    (hold : old ∈ db.files) (hkey : Db.HasKey ns path old) :
    ∃ r ∈ db'.files, Db.HasKey ns path r := by
  by_cases hpath : path ∈ paths
  · obtain ⟨r, hr, hk, -⟩ := h.exists_row hpath
    exact ⟨r, hr, hk⟩
  · exact ⟨old, (h.mem_of_notMem fun hin => hpath (hkey.2 ▸ hin.2)).mpr hold, hkey⟩

/-- A path that is there keeps its id. -/
theorem id_of_old (h : Upserts ns P paths ids db db') (hv : db.Valid) {path : String}
    {old r : FileRow} (hold : old ∈ db.files) (hkey : Db.HasKey ns path old) (hr : r ∈ db'.files)
    (hk : Db.HasKey ns path r) : r.id = old.id := by
  induction h generalizing r with
  | nil => rw [hv.eq_of_hasKey hr hold hk hkey]
  | @snoc paths ids db₀ db₁ db₂ last row init hlast _ ih =>
    rcases (hlast.mem r).mp hr with rfl | ⟨hmem, -⟩
    · obtain rfl : last = path := hlast.hasKey.2.symm.trans hk.2
      rcases hlast.id with ⟨before, hbefore, hkbefore, hid⟩ | ⟨-, hnone⟩
      · rw [← hid]
        exact ih hv hold hbefore hkbefore
      · obtain ⟨before, hbefore, hkbefore⟩ := init.exists_of_old hold hkey
        exact absurd hkbefore (hnone before hbefore)
    · exact ih hv hold hmem hk

/-- A path that is new takes an id above all before. -/
theorem lt_id_of_new (h : Upserts ns P paths ids db db') {path : String} {r : FileRow}
    (hnew : ∀ r ∈ db.files, ¬Db.HasKey ns path r) (hr : r ∈ db'.files)
    (hk : Db.HasKey ns path r) : db.seq < r.id := by
  induction h generalizing r with
  | nil => exact absurd hk (hnew r hr)
  | @snoc paths ids db₀ db₁ db₂ last row init hlast _ ih =>
    rcases (hlast.mem r).mp hr with rfl | ⟨hmem, -⟩
    · obtain rfl : last = path := hlast.hasKey.2.symm.trans hk.2
      rcases hlast.id with ⟨before, hbefore, hkbefore, hid⟩ | ⟨hlt, -⟩
      · rw [← hid]
        exact ih hnew hbefore hkbefore
      · exact init.seq_le.trans_lt hlt
    · exact ih hnew hmem hk

/-- Of two paths the later one has the larger id, if it is new. -/
theorem pairwise_new (h : Upserts ns P paths ids db db') (hv : db.Valid) (hnodup : paths.Nodup) :
    paths.Pairwise fun p q => (∀ r ∈ db.files, ¬Db.HasKey ns q r) → ∀ rp ∈ db'.files,
      ∀ rq ∈ db'.files, Db.HasKey ns p rp → Db.HasKey ns q rq → rp.id < rq.id := by
  induction h with
  | nil => exact List.Pairwise.nil
  | @snoc paths ids db₀ db₁ db₂ last row init hlast _ ih =>
    obtain ⟨hinit, -, hdisjoint⟩ := List.nodup_append.mp hnodup
    have hne : ∀ p ∈ paths, p ≠ last := fun p hp => hdisjoint p hp last (List.mem_singleton_self last)
    have hback : ∀ p ∈ paths, ∀ r ∈ db₂.files, Db.HasKey ns p r → r ∈ db₁.files := by
      intro p hp r hr hk
      rcases (hlast.mem r).mp hr with rfl | ⟨hmem, -⟩
      · exact absurd (hk.2.symm.trans hlast.hasKey.2) (hne p hp)
      · exact hmem
    refine List.pairwise_append.mpr ⟨?_, List.pairwise_singleton _ _, ?_⟩
    · refine (ih hv hinit).imp_of_mem fun {p q} hp hq hlt hnew rp hrp rq hrq hkp hkq => ?_
      exact hlt hnew rp (hback p hp rp hrp hkp) rq (hback q hq rq hrq hkq) hkp hkq
    · intro p hp q hq hnew rp hrp rq hrq hkp hkq
      obtain rfl := List.mem_singleton.mp hq
      have hmem := hback p hp rp hrp hkp
      rcases (hlast.mem rq).mp hrq with rfl | ⟨hmem', hnot⟩
      · rcases hlast.id with ⟨before, hbefore, hkbefore, -⟩ | ⟨hlt, -⟩
        · have hold := (init.mem_of_notMem fun hin => hne q (hkbefore.2 ▸ hin.2) rfl).mp hbefore
          exact absurd hkbefore (hnew before hold)
        · exact ((init.valid hv).seq rp hmem).trans_lt hlt
      · exact absurd hkq hnot

end Upserts

/-! ## The order of the records -/

/-- The second a record was last used in. -/
def ExportRecord.useSecond (r : ExportRecord) : ℤ :=
  if r.lastAccessedAt > 0 then r.lastAccessedAt else r.updatedAt

/-- Of two records of one second the earlier comes first in the order of eviction. -/
def OrderedByRecords (ns : String) (records : List ExportRecord) (db : Db) : Prop :=
  records.Pairwise fun a b => a.useSecond = b.useSecond → ∃ ra ∈ db.files, ∃ rb ∈ db.files,
    Db.HasKey ns a.path ra ∧ Db.HasKey ns b.path rb ∧ Sql.useKey ra < Sql.useKey rb

/-- Of two records of one second the later one's path has a row only if the earlier one's has, under a
smaller id. -/
def IdsAllowOrder (ns : String) (records : List ExportRecord) (db : Db) : Prop :=
  records.Pairwise fun a b => a.useSecond = b.useSecond → ∀ rb ∈ db.files,
    Db.HasKey ns b.path rb → ∃ ra ∈ db.files, Db.HasKey ns a.path ra ∧ ra.id < rb.id

theorem useValueOfRecord_eq_some {lastAccessedAt updatedAt v : ℤ}
    (h : useValueOfRecord lastAccessedAt updatedAt = some v) :
    v = (if lastAccessedAt > 0 then lastAccessedAt else updatedAt) * 1000000 := by
  unfold useValueOfRecord checkedMul at h
  simp only at h
  generalize (if lastAccessedAt > 0 then lastAccessedAt else updatedAt) = seconds at h ⊢
  split_ifs at h with hneg hmul
  · obtain ⟨hvalue, -⟩ := Option.filter_eq_some_iff.mp h
    exact (Option.some.inj hvalue).symm
  · exact absurd h (by simp)

/-- Of two rows with one use value the one with the smaller id comes first. -/
theorem useKey_lt_iff {ra rb : FileRow} (h : ra.lastUsedUs = rb.lastUsedUs) :
    Sql.useKey ra < Sql.useKey rb ↔ ra.id < rb.id := by
  rw [Sql.useKey, Sql.useKey, Prod.Lex.toLex_lt_toLex, h]
  simp

section Import

variable {T : Type} {e : Engine} {src : Sources T} {w : World} {records : List ExportRecord}
  {db : Db} {n : ℕ}

/-- What an import without a bound does : its upserts, with the use value of each record. -/
theorem importEntries_upserts (hv : db.Valid) (hmax : e.maxEntries = none)
    (hpaths : (records.map ExportRecord.path).Nodup)
    (hok : (importEntries e src w records db).result = .ok n) :
    ∃ ids, Upserts e.ns Imported (records.map ExportRecord.path) ids db
        (importEntries e src w records db).db ∧
      ∀ r ∈ records, ∃ f ∈ (importEntries e src w records db).db.files,
        Db.HasKey e.ns r.path f ∧ f.lastUsedUs = r.useSecond * 1000000 := by
  unfold importEntries at hok ⊢
  split_ifs at hok ⊢ with hro
  · exact absurd hok (by simp [Outcome.ofError])
  rcases mapM_cases (ExportRecord.toFullRow src) records with
    ⟨rows, hmap, hrows⟩ | ⟨r, -, err, -, hmap⟩
  swap
  · rw [hmap] at hok
    exact absurd hok (by simp [Outcome.ofError])
  simp only [hmap, importBounded] at hok ⊢
  split_ifs at hok ⊢ with hnil
  · obtain rfl := List.isEmpty_iff.mp hnil
    obtain rfl := List.forall₂_nil_right_iff.mp hrows
    exact ⟨[], .nil db, fun r hr => absurd hr List.not_mem_nil⟩
  split at hok
  · exact absurd hok (by simp [Outcome.ofError])
  rcases boundedWrite_inv (e := e) (w := w) (do
      let ids ← importRowsInTx w e.ns rows
      pure (rows.length, ids)) db with
    ⟨count, ids, t₀, t, evicted, t', rfl, hwrite, hevict, ho⟩ | ⟨err, ho⟩
  · obtain ⟨ids', hloop, heq⟩ := StateExcept.map_eq_ok hwrite
    obtain ⟨-, rfl⟩ := Prod.mk.inj heq
    rw [enforceMaxEntries, hmax] at hevict
    obtain ⟨-, rfl⟩ := StateExcept.pure_eq_ok hevict
    rw [ho, ← Decoded.paths hrows]
    refine ⟨_, importRowsInTx_ok hv hloop, fun r hr => ?_⟩
    obtain ⟨-, hstored⟩ := lastStored_importRowsInTx hv hloop
    obtain ⟨pre, post, rfl⟩ := List.append_of_mem hr
    obtain ⟨pre', row, post', rfl, hrow, hpost⟩ := exists_of_forall₂_append hrows
    rw [List.map_append, List.map_cons] at hpaths
    have hlast : ∀ r' ∈ post, r'.path ≠ r.path := fun r' hr' heq' =>
      (List.nodup_cons.mp (List.nodup_append.mp hpaths).2.1).1
        (List.mem_map.mpr ⟨r', hr', heq'⟩)
    obtain ⟨content, -, rfl⟩ := toFullRow_eq_ok.mp hrow
    obtain ⟨f, hf, -, hk, -, -, -, huse, -⟩ := hstored pre' _ post' rfl fun row' hrow' =>
      (Decoded.forall_iff hpost (p := fun r' => r'.path ≠ r.path) (q := fun row' => row'.path ≠ r.path)
        fun r' row'' hr' => by
          obtain ⟨c, -, rfl⟩ := toFullRow_eq_ok.mp hr'
          rfl).mp hlast row' hrow'
    exact ⟨f, hf, hk, useValueOfRecord_eq_some huse⟩
  · rw [ho] at hok
    exact absurd hok (by simp [Outcome.ofError])

/-- The records of one second are in their order exactly when the ids of the rows that were there
allow it. -/
theorem importEntries_ordered_iff (hv : db.Valid) (hmax : e.maxEntries = none)
    (hpaths : (records.map ExportRecord.path).Nodup)
    (hok : (importEntries e src w records db).result = .ok n) :
    OrderedByRecords e.ns records (importEntries e src w records db).db ↔
      IdsAllowOrder e.ns records db := by
  obtain ⟨ids, hu, hrows⟩ := importEntries_upserts hv hmax hpaths hok
  generalize (importEntries e src w records db).db = db' at hu hrows ⊢
  have hv' := hu.valid hv
  have hpair : records.Pairwise fun a b =>
      ((a.useSecond = b.useSecond → ∃ ra ∈ db'.files, ∃ rb ∈ db'.files, Db.HasKey e.ns a.path ra ∧
        Db.HasKey e.ns b.path rb ∧ Sql.useKey ra < Sql.useKey rb) ↔
      (a.useSecond = b.useSecond → ∀ rb ∈ db.files, Db.HasKey e.ns b.path rb →
        ∃ ra ∈ db.files, Db.HasKey e.ns a.path ra ∧ ra.id < rb.id)) := by
    refine (List.pairwise_map.mp (hu.pairwise_new hv hpaths)).imp_of_mem fun {a b} ha hb hnew => ?_
    refine imp_congr_right fun hsecond => ?_
    obtain ⟨ra, hra, hka, husea⟩ := hrows a ha
    obtain ⟨rb, hrb, hkb, huseb⟩ := hrows b hb
    have hkey := useKey_lt_iff (husea.trans (hsecond ▸ huseb.symm))
    constructor
    · rintro ⟨ra', hra', rb', hrb', hka', hkb', hlt⟩ old hold hkold
      rw [hv'.eq_of_hasKey hra' hra hka' hka, hv'.eq_of_hasKey hrb' hrb hkb' hkb, hkey,
        hu.id_of_old hv hold hkold hrb hkb] at hlt
      by_contra hnone
      -- the earlier path was not there, so its id is above that of the later one
      by_cases hexists : ∃ before ∈ db.files, Db.HasKey e.ns a.path before
      · obtain ⟨before, hbefore, hkbefore⟩ := hexists
        rw [hu.id_of_old hv hbefore hkbefore hra hka] at hlt
        exact hnone ⟨before, hbefore, hkbefore, hlt⟩
      · have habove := hu.lt_id_of_new (fun r hr hk => hexists ⟨r, hr, hk⟩) hra hka
        exact absurd (hv.seq old hold) (not_le.mpr (habove.trans hlt))
    · intro hallow
      refine ⟨ra, hra, rb, hrb, hka, hkb, hkey.mpr ?_⟩
      by_cases hexists : ∃ old ∈ db.files, Db.HasKey e.ns b.path old
      · obtain ⟨old, hold, hkold⟩ := hexists
        obtain ⟨before, hbefore, hkbefore, hlt⟩ := hallow old hold hkold
        rwa [hu.id_of_old hv hold hkold hrb hkb, hu.id_of_old hv hbefore hkbefore hra hka]
      · exact hnew (fun r hr hk => hexists ⟨r, hr, hk⟩) ra hra rb hrb hka hkb
  constructor
  · exact fun h => hpair.imp₂ (fun a b hiff => hiff.mp) h
  · exact fun h => hpair.imp₂ (fun a b hiff => hiff.mpr) h

end Import

section Samples

/-- Two new paths of one second keep the order of their records. -/
theorem importEntries_ordered_iff_sample :
    OrderedByRecords "n" [plainRecord "/b", plainRecord "/a"]
      (importEntries (.plain "n" none) .rooted .quiet [plainRecord "/b", plainRecord "/a"]
        Db.empty).db :=
  (importEntries_ordered_iff (n := 2) Db.valid_empty rfl (by decide) (by decide)).mpr
    (List.Pairwise.cons (fun _ _ _ _ h => absurd h List.not_mem_nil) (List.pairwise_singleton _ _))

/-- `/b` is imported, then `/a` and `/b` : `/b` keeps the smaller id, and comes first. -/
theorem keptId_ordersLast :
    let db := ((System.init Db.empty : System Unit).run
      [.write (.plain "n" none) .quiet (.importEntries .rooted [plainRecord "/b"])]).db
    (importEntries (.plain "n" none) .rooted .quiet [plainRecord "/a", plainRecord "/b"] db).result =
        .ok 2 ∧
      ¬OrderedByRecords "n" [plainRecord "/a", plainRecord "/b"]
        (importEntries (.plain "n" none) .rooted .quiet [plainRecord "/a", plainRecord "/b"] db).db := by
  intro db
  refine ⟨by decide, fun h => ?_⟩
  have hfiles : (importEntries (.plain "n" none) .rooted .quiet
      [plainRecord "/a", plainRecord "/b"] db).db.files =
        [⟨1, "n", "/b", ⟨0, 0, none⟩, 0, 0, 0⟩, ⟨2, "n", "/a", ⟨0, 0, none⟩, 0, 0, 0⟩] := by decide
  rw [OrderedByRecords, hfiles] at h
  have hfirst := List.rel_of_pairwise_cons h (List.mem_singleton_self _) rfl
  revert hfirst
  decide

end Samples

end LocalCache
