import LocalCache.Changes

/-!
# Eviction : the bound, the protection, the exact victims

After any run of any engines, a write that succeeds on an engine with a bound leaves its
namespace within it, keeps every path it wrote, and removes exactly the least recently used
of the other rows (`System.evictsExactly_run`). The rows it did not write are the same before
and after its loop, so the victims are stated on the database before the call.
-/

namespace LocalCache

/-- The rows of a namespace that a write of `paths` does not write. -/
def unwritten (ns : String) (paths : List String) (db : Db) : List FileRow :=
  (db.inNamespace ns).filter fun r => r.path ∉ paths

/-- A write of `paths` under the bound `m`. Its loop leaves the unwritten rows and one row for
each distinct path; `victims` are the rows over the bound. -/
structure EvictsExactly (ns : String) (m : ℕ) (paths : List String) (db : Db)
    (victims : List FileRow) (o : Outcome Unit) : Prop where
  bound : (o.db.inNamespace ns).length ≤ m
  present : ∀ path ∈ paths, ∃ r ∈ o.db.files, Db.HasKey ns path r
  length : victims.length = (unwritten ns paths db).length + distinctCount paths - m
  least : Least Sql.useKey victims.length (unwritten ns paths db) victims
  removed : ∀ r, ¬(r.ns = ns ∧ r.path ∈ paths) → (r ∈ o.db.files ↔ r ∈ db.files ∧ r ∉ victims)
  callback : o.evicted = victims.map FileRow.path

section Loop

variable {ns : String} {P : Db → FileRow → Prop} {paths : List String} {ids : List ℕ} {db db' : Db}

theorem nodup_inNamespace (hv : db.Valid) (ns : String) : (db.inNamespace ns).Nodup :=
  hv.nodup.filter _

/-- The rows a loop does not protect are the rows it does not write. -/
theorem Upserts.perm_unwritten (h : Upserts ns P paths ids db db') (hv : db.Valid) :
    ((db'.inNamespace ns).filter fun r => decide (r.id ∉ ids)).Perm (unwritten ns paths db) := by
  refine (List.perm_ext_iff_of_nodup ((nodup_inNamespace (h.valid hv) ns).filter _)
    ((nodup_inNamespace hv ns).filter _)).mpr fun r => ?_
  simp only [List.mem_filter, Db.mem_inNamespace, decide_eq_true_eq]
  constructor
  · rintro ⟨⟨hr, hns⟩, hid⟩
    have hnot : ¬(r.ns = ns ∧ r.path ∈ paths) := mt (h.mem_ids_iff hv hr).mpr hid
    exact ⟨⟨(h.mem_of_notMem hnot).mp hr, hns⟩, fun hpath => hnot ⟨hns, hpath⟩⟩
  · rintro ⟨⟨hr, hns⟩, hpath⟩
    have hnot : ¬(r.ns = ns ∧ r.path ∈ paths) := fun h => hpath h.2
    have hr' := (h.mem_of_notMem hnot).mpr hr
    exact ⟨⟨hr', hns⟩, mt (h.mem_ids_iff hv hr').mp hnot⟩

/-- The written rows are one for each distinct path. -/
theorem Upserts.length_written (h : Upserts ns P paths ids db db') (hv : db.Valid) :
    ((db'.inNamespace ns).filter fun r => decide (r.id ∈ ids)).length = distinctCount paths := by
  have hv' := h.valid hv
  have hnodup : (((db'.inNamespace ns).filter fun r => decide (r.id ∈ ids)).map
      FileRow.path).Nodup := by
    refine List.Nodup.map_on (fun r hr q hq hpath => ?_) ((nodup_inNamespace hv' ns).filter _)
    simp only [List.mem_filter, Db.mem_inNamespace] at hr hq
    exact hv'.eq_of_hasKey hr.1.1 hq.1.1 ⟨hr.1.2, rfl⟩ ⟨hq.1.2, hpath.symm⟩
  have hperm := (List.perm_ext_iff_of_nodup hnodup (List.nodup_dedup paths)).mpr fun path => by
    simp only [List.mem_map, List.mem_filter, Db.mem_inNamespace, decide_eq_true_eq,
      List.mem_dedup]
    constructor
    · rintro ⟨r, ⟨⟨hr, -⟩, hid⟩, rfl⟩
      exact ((h.mem_ids_iff hv hr).mp hid).2
    · intro hpath
      obtain ⟨r, hr, hk, hid⟩ := h.exists_row hpath
      exact ⟨r, ⟨⟨hr, hk.1⟩, hid⟩, hk.2⟩
  rw [← List.length_map FileRow.path, hperm.length_eq, distinctCount]

/-- The loop leaves the unwritten rows and one row for each distinct path. -/
theorem Upserts.length_inNamespace (h : Upserts ns P paths ids db db') (hv : db.Valid) :
    (db'.inNamespace ns).length = (unwritten ns paths db).length + distinctCount paths := by
  have hsplit := List.length_eq_length_filter_add (l := db'.inNamespace ns)
    fun r => decide (r.id ∈ ids)
  have hrest := (h.perm_unwritten hv).length_eq
  simp only [decide_not] at hrest
  rw [hsplit, h.length_written hv, hrest, Nat.add_comm]

/-- What an eviction leaves of its namespace, with its victims, is what there was. -/
theorem Evicted.length_inNamespace {n : ℕ} {victims : List FileRow}
    (h : Evicted ns n ids victims db db') (hv : db.Valid) :
    (db'.inNamespace ns).length + victims.length = (db.inNamespace ns).length := by
  have hsub : ∀ r ∈ victims, r ∈ db.inNamespace ns := fun r hr =>
    List.mem_of_mem_filter (h.least.subset r hr)
  have hdisjoint : (db'.inNamespace ns).Disjoint victims := fun r hr hvictim =>
    ((h.mem r).mp (Db.mem_inNamespace.mp hr).1).2 hvictim
  rw [← List.length_append]
  refine ((List.perm_ext_iff_of_nodup ((nodup_inNamespace h.valid ns).append h.least.nodup
    hdisjoint) (nodup_inNamespace hv ns)).mpr fun r => ?_).length_eq
  rw [List.mem_append, Db.mem_inNamespace, Db.mem_inNamespace, h.mem r]
  constructor
  · rintro (⟨⟨hr, -⟩, hns⟩ | hr)
    · exact ⟨hr, hns⟩
    · exact Db.mem_inNamespace.mp (hsub r hr)
  · rintro ⟨hr, hns⟩
    by_cases hvictim : r ∈ victims
    · exact Or.inr hvictim
    · exact Or.inl ⟨⟨hr, hvictim⟩, hns⟩

end Loop

section Writes

variable {T : Type} {e : Engine} {paths : List String} {db written : Db}
  {P : Db → FileRow → Prop} {victims : List FileRow} {o : Outcome Unit}

/-- With no more distinct paths than the bound there are always enough victims. -/
theorem Wrote.evictsExactly (h : Wrote e P paths db written victims o) (hv : db.Valid) {m : ℕ}
    (hm : e.maxEntries = some m) (hdistinct : distinctCount paths ≤ m) :
    EvictsExactly e.ns m paths db victims o := by
  have hv' := h.upserts.valid hv
  have hexcess : excess e written = (unwritten e.ns paths db).length + distinctCount paths - m := by
    rw [excess, hm, ← h.upserts.length_inNamespace hv]
  have hleast := h.evicted.least.perm (h.upserts.perm_unwritten hv)
  have hlength : victims.length = excess e written := by
    rw [hleast.length_eq, hexcess]
    omega
  have htotal := h.evicted.length_inNamespace hv'
  rw [h.upserts.length_inNamespace hv] at htotal
  refine ⟨by omega, fun path hpath => ?_, hlength.trans hexcess, hlength ▸ hleast,
    fun r hr => ?_, h.callback⟩
  · obtain ⟨r, hr, hk, hid⟩ := h.upserts.exists_row hpath
    refine ⟨r, (h.evicted.mem r).mpr ⟨hr, fun hvictim => ?_⟩, hk⟩
    exact absurd hid (by simpa using (List.mem_filter.mp (h.evicted.least.subset r hvictim)).2)
  · rw [h.evicted.mem r, h.upserts.mem_of_notMem hr]

end Writes

/-! ## Over runs -/

/-- A call that fails leaves every table as it was and calls no callback. -/
def FailsClean {α : Type} (db : Db) (o : Outcome α) : Prop :=
  ∀ err, o.result = .error err → o.db = db ∧ o.evicted = []

section Runs

variable {T : Type} {db₀ : Db} {s : System T}

theorem Write.Did.failsClean {write : Write T} {e : Engine} {db : Db} {o : Outcome Unit}
    (h : write.Did e db o) : FailsClean db o := by
  intro err herr
  cases h with
  | wrote written victims hok _ _ =>
    rw [hok] at herr
    exact absurd herr (by simp)
  | empty _ _ ho =>
    rw [ho] at herr
    exact absurd herr (by simp)
  | failed err' ho =>
    rw [ho]
    exact ⟨rfl, rfl⟩

theorem failsClean_remove (e : Engine) (src : Sources T) (w : World) (path : Path) (db : Db) :
    FailsClean db (remove e src w path db) := by
  intro err herr
  rcases remove_cases e src w path db with ⟨key, b, ho⟩ | ⟨err', ho⟩
  · rw [ho] at herr
    exact absurd herr (by simp)
  · rw [ho]
    exact ⟨rfl, rfl⟩

theorem failsClean_finishTouch (e : Engine) (w : World) (row : FileRow) (db : Db) :
    FailsClean db (finishTouch e w row db) := by
  intro err herr
  unfold finishTouch at herr ⊢
  rcases autocommit_cases (recordUse w e.ns row.id) db with ⟨_, t, hrun, -⟩ | ⟨err', hrun, -⟩
  · rw [hrun] at herr
    exact absurd herr (by simp)
  · rw [hrun]
    exact ⟨rfl, rfl⟩

theorem failsClean_finishRead (e : Engine) (w : World) (row : FileRow) (entry : CacheEntry T)
    (db : Db) : FailsClean db (finishRead e w row entry db) := by
  intro err herr
  unfold finishRead at herr
  by_cases hro : e.readOnly
  · rw [if_pos hro] at herr
    exact absurd herr (by simp)
  · rw [if_neg hro] at herr
    split at herr <;> exact absurd herr (by simp)

/-- After any run, by any engines : a write that succeeds under a bound evicts exactly, one
with more distinct paths than the bound fails, and a call that fails leaves every table as it
was and calls no callback. Of the imports, those with a record evict. -/
theorem evictsExactly_of_reached (hs : s.Reached db₀) (hv : db₀.Valid) (e : Engine)
    (w : World) :
    (∀ (write : Write T) (m : ℕ), e.maxEntries = some m → 1 ≤ m →
      (write.isImport = true → write.paths ≠ []) → (write.run e w s.db).result = .ok () →
        ∃ victims, EvictsExactly e.ns m write.paths s.db victims (write.run e w s.db)) ∧
      (∀ (write : Write T) (m : ℕ), e.maxEntries = some m → 1 ≤ m →
        m < distinctCount write.occupies → ∃ err, (write.run e w s.db).result = .error err) ∧
      (∀ write : Write T, FailsClean s.db (write.run e w s.db)) ∧
      (∀ (src : Sources T) (path : Path), FailsClean s.db (remove e src w path s.db)) ∧
      (∀ (row : FileRow) (entry : CacheEntry T), FailsClean s.db (finishRead e w row entry s.db)) ∧
      ∀ row : FileRow, FailsClean s.db (finishTouch e w row s.db) := by
  have hvs : s.db.Valid := hs.valid hv
  refine ⟨fun write m hm hpos hne hok => ?_, fun write m hm hpos hlt => ?_,
    fun write => (write.run_cases hvs).failsClean, fun src path => failsClean_remove e src w path _,
    fun row entry => failsClean_finishRead e w row entry _,
    fun row => failsClean_finishTouch e w row _⟩
  · rcases write.run_cases (e := e) (w := w) hvs with
      ⟨written, victims, -, hwrote, hdistinct⟩ | ⟨hi, hp, -⟩ | ⟨err, ho⟩
    · have hle := (distinctCount_le_of_subset write.paths_subset_occupies).trans
        (hdistinct m hm hpos)
      exact ⟨victims, hwrote.evictsExactly hvs hm hle⟩
    · exact absurd hp (hne hi)
    · rw [ho] at hok
      exact absurd hok (by simp [Outcome.ofError])
  · rcases write.run_cases (e := e) (w := w) hvs with
      ⟨written, victims, -, hwrote, hdistinct⟩ | ⟨hi, hp, -⟩ | ⟨err, ho⟩
    · exact absurd (hdistinct m hm hpos) (not_le.mpr hlt)
    · rw [Write.occupies_of_isImport hi, hp] at hlt
      exact absurd hlt (by simp [distinctCount])
    · exact ⟨err, by rw [ho]; rfl⟩

/-- One engine without a bound writes `a`; the next, with a bound of 1, writes `b` and evicts
it. -/
theorem evictsExactly_of_reached_sample :
    let s : System Unit := (System.init Db.empty).run
      [.write (.plain "n" none) .quiet (.set .quiet [97] ())]
    let o := (Write.set .quiet [98] ()).run (.plain "n" (some 1)) .quiet s.db
    o.evicted = ["a"] ∧ ∃ victims, EvictsExactly "n" 1 ["b"] s.db victims o :=
  ⟨by decide, (evictsExactly_of_reached (T := Unit) ⟨_, rfl⟩ Db.valid_empty
    (.plain "n" (some 1)) .quiet).1 (.set .quiet [98] ()) 1 rfl le_rfl (by simp [Write.isImport])
      (by rfl)⟩

end Runs

end LocalCache
