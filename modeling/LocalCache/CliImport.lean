import LocalCache.Addressing
import LocalCache.Effects
import LocalCache.ImportContract
import LocalCache.Listing

/-!
# Importing without overwriting

The `import` command reads the keys of the namespace first and then imports, in another
transaction, the records whose path was not among them. Between the two other writers may have
stored, used and deleted what they like, so what the command keeps is said of two databases : the
one `listed` when the keys were read, and the one `db` that the import found.

Nothing listed is overwritten, every other record is stored, and each record is counted once
(`cmdImport_absent`). Run again at once the command finds every record and changes nothing
(`cmdImport_again`).
-/

namespace LocalCache

section Command

variable {T : Type} (e : Engine) (src : Sources T) (lib : QueryLib T) (wListing w : World)

/-- `cmd_import` on the parsed records : how many were imported, and how many skipped. `listed` is
the database when the keys are read. -/
def cmdImport (overwrite : Bool) (records : List ExportRecord) (listed db : Db) : Outcome (ℕ × ℕ) :=
  if overwrite then (importEntries e src w records db).map fun imported => (imported, 0)
  else
    match keys e wListing listed lib none with
    | .error err => .ofError err db
    | .ok existing =>
      let (toImport, skipped) := records.partition fun r => !existing.contains r.path
      (importEntries e src w toImport db).map fun imported => (imported, skipped.length)

end Command

variable {T : Type} {e : Engine} {src : Sources T} {lib : QueryLib T} {wListing w : World}
  {records : List ExportRecord} {listed db : Db}

/-- The paths of records that were not listed. -/
def NewPath (e : Engine) (records : List ExportRecord) (listed : Db) (path : String) : Prop :=
  ¬listed.HasPath e.ns path ∧ path ∈ records.map ExportRecord.path

/-- What an import without overwriting does. -/
structure ImportsAbsent (e : Engine) (src : Sources T) (records : List ExportRecord)
    (listed db : Db) (o : Outcome (ℕ × ℕ)) : Prop where
  /-- Rows of other keys are those of before. -/
  old : ∀ r ∈ o.db.files, ¬(r.ns = e.ns ∧ NewPath e records listed r.path) →
    r ∈ db.files ∧ o.db.payload? r.id = db.payload? r.id
  /-- Such a row is lost only to the bound. -/
  kept : ∀ r ∈ db.files, ¬(r.ns = e.ns ∧ NewPath e records listed r.path) →
    r ∈ o.db.files ∨ r.ns = e.ns ∧ r.path ∈ o.evicted
  stored : ∀ pre r post, records = pre ++ r :: post → (∀ r' ∈ post, r'.path ≠ r.path) →
    ¬listed.HasPath e.ns r.path → ∃ row, ExportRecord.toFullRow src r = .ok row ∧ Holds e.ns row o.db

/-! ## The keys -/

theorem keys_ok {existing : List String} (h : keys e wListing listed lib none = .ok existing)
    (path : String) : path ∈ existing ↔ listed.HasPath e.ns path := by
  rcases autocommit_cases (select wListing fun db => Sql.keys e.ns db lib none) listed with
    ⟨found, t, hrun, hbody⟩ | ⟨err, hrun, -⟩
  · obtain ⟨rfl, -, -⟩ := select_ok hbody
    rw [keys, hrun] at h
    rw [← Except.ok.inj h, Sql.keys, Sql.filteredRows, List.mem_map]
    constructor
    · rintro ⟨r, hr, rfl⟩
      rw [mem_sortBy, List.mem_filter, Db.mem_inNamespace] at hr
      exact ⟨r, hr.1.1, hr.1.2, rfl⟩
    · rintro ⟨r, hr, hns, rfl⟩
      refine ⟨r, ?_, rfl⟩
      rw [mem_sortBy, List.mem_filter, Db.mem_inNamespace]
      exact ⟨⟨hr, hns⟩, by simp [PreparedPathFilters.matches]⟩
  · rw [keys, hrun] at h
    exact absurd h (by simp)

/-! ## An import that succeeded -/

/-- An import that succeeded stored the last record of every path. -/
theorem importEntries_lastStored {n : ℕ} (hv : db.Valid)
    (h : (importEntries e src w records db).result = .ok n) :
    n = records.length ∧ StoresLast e src records (importEntries e src w records db).db := by
  unfold importEntries at h ⊢
  split_ifs at h ⊢ with hro
  · exact absurd h (by simp [Outcome.ofError])
  cases hmap : records.mapM (ExportRecord.toFullRow src) with
  | error err =>
    rw [hmap] at h
    exact absurd h (by simp [Outcome.ofError])
  | ok rows =>
    rw [hmap] at h
    have hrows : Decoded src records rows := forall₂_of_mapM hmap
    dsimp only at h ⊢
    unfold importBounded at h ⊢
    split_ifs at h ⊢ with hnil
    · obtain rfl := List.isEmpty_iff.mp hnil
      obtain rfl := List.forall₂_nil_right_iff.mp hrows
      exact ⟨(Except.ok.inj h).symm, fun pre r post heq => absurd heq (by simp)⟩
    split at h
    · exact absurd h (by simp [Outcome.ofError])
    · rcases boundedWrite_inv (e := e) (w := w) (do
        let ids ← importRowsInTx w e.ns rows
        pure (rows.length, ids)) db with
        ⟨a, ids, t₀, t, evicted, t', rfl, hwrite, hevict, heq⟩ | ⟨err, heq⟩
      · rw [heq] at h ⊢
        obtain ⟨ids', hloop, hpair⟩ := StateExcept.map_eq_ok hwrite
        obtain ⟨rfl, rfl⟩ := Prod.mk.inj hpair
        obtain ⟨hv', hstored⟩ := lastStored_importRowsInTx hv hloop
        refine ⟨(Except.ok.inj h).symm.trans hrows.length_eq.symm, fun pre r post hsplit hlast => ?_⟩
        subst hsplit
        obtain ⟨pre', row, post', rfl, hrow, hpost⟩ := exists_of_forall₂_append hrows
        refine ⟨row, hrow, ?_⟩
        obtain ⟨content, -, rfl⟩ := toFullRow_eq_ok.mp hrow
        obtain ⟨f, hf, -, hrest⟩ := hstored.evicted hv' hevict pre' _ post' rfl fun row' hrow' => by
          exact (Decoded.forall_iff hpost (p := fun r' => r'.path ≠ r.path)
            (q := fun row' => row'.path ≠ r.path) fun r' row'' hr' => by
              obtain ⟨c, -, rfl⟩ := toFullRow_eq_ok.mp hr'
              rfl).mp hlast row' hrow'
        exact ⟨f, hf, hrest⟩
      · rw [heq] at h
        exact absurd h (by simp [Outcome.ofError])

/-- Rows under other keys than the records' are as they were, but for those that the bound took. -/
theorem importEntries_others {n : ℕ} (hv : db.Valid)
    (h : (importEntries e src w records db).result = .ok n) :
    (∀ r ∈ (importEntries e src w records db).db.files,
      ¬(r.ns = e.ns ∧ r.path ∈ records.map ExportRecord.path) →
        r ∈ db.files ∧ (importEntries e src w records db).db.payload? r.id = db.payload? r.id) ∧
    ∀ r ∈ db.files, ¬(r.ns = e.ns ∧ r.path ∈ records.map ExportRecord.path) →
      r ∈ (importEntries e src w records db).db.files ∨
        r.ns = e.ns ∧ r.path ∈ (importEntries e src w records db).evicted := by
  have heffect : Effect e.ns (records.map ExportRecord.path) (importEntries e src w records db).used db
      (importEntries e src w records db).db := importEntries_effect src records hv
  have hdid : (Write.importEntries src records).Did e db
      ((importEntries e src w records db).map fun _ => ()) := Write.run_cases (.importEntries src records) hv
  generalize importEntries e src w records db = o at h heffect hdid
  cases hdid with
  | wrote written victims _ hwrote _ =>
    obtain ⟨hupserts, hevicted, hcallback⟩ := hwrote
    have hupserts : Upserts e.ns _ (records.map ExportRecord.path) o.used db written := hupserts
    have hevicted : Evicted e.ns (excess e written) o.used victims written o.db := hevicted
    have hcallback : o.evicted = victims.map FileRow.path := hcallback
    refine ⟨fun r hr hother => ?_, fun r hr hother => ?_⟩
    · have hold : r ∈ db.files :=
        (hupserts.mem_of_notMem hother).mp ((hevicted.mem r).mp hr).1
      refine ⟨hold, heffect.payload r hr fun hid => hother ?_⟩
      exact (hupserts.mem_ids_iff hv ((hevicted.mem r).mp hr).1).mp hid
    · have hwritten : r ∈ written.files := (hupserts.mem_of_notMem hother).mpr hr
      by_cases hvictim : r ∈ victims
      · have hns := (List.mem_filter.mp (hevicted.least.subset r hvictim)).1
        refine Or.inr ⟨(Db.mem_inNamespace.mp hns).2, ?_⟩
        rw [hcallback]
        exact List.mem_map_of_mem hvictim
      · exact Or.inl ((hevicted.mem r).mpr ⟨hwritten, hvictim⟩)
  | empty _ _ heq =>
    have hdb : o.db = db := congrArg Outcome.db heq
    rw [hdb]
    exact ⟨fun r hr _ => ⟨hr, rfl⟩, fun r hr _ => Or.inl hr⟩
  | failed err heq =>
    have hresult : o.result.map (fun _ => ()) = .error err := congrArg Outcome.result heq
    rw [h] at hresult
    cases hresult

theorem importEntries_of_error {err : Error} (hv : db.Valid)
    (h : (importEntries e src w records db).result = .error err) :
    importEntries e src w records db = .ofError err db := by
  have hdid : (Write.importEntries src records).Did e db
      ((importEntries e src w records db).map fun _ => ()) := Write.run_cases (.importEntries src records) hv
  generalize importEntries e src w records db = o at h hdid ⊢
  obtain ⟨result, db', evicted, used⟩ := o
  obtain rfl : result = .error err := h
  cases hdid with
  | wrote _ _ hok _ _ => cases hok
  | empty _ _ heq => cases congrArg Outcome.result heq
  | failed err' heq =>
    obtain ⟨-, hdb, hevicted, hused⟩ := Outcome.mk.inj heq
    dsimp only at hdb hevicted hused
    rw [Outcome.ofError, hdb, hevicted, hused]

/-! ## The command -/

instance (db : Db) (ns path : String) : Decidable (db.HasPath ns path) :=
  inferInstanceAs (Decidable (∃ r ∈ db.files, Db.HasKey ns path r))

/-- The records that are not skipped. -/
def absentRecords (e : Engine) (records : List ExportRecord) (listed : Db) : List ExportRecord :=
  records.filter fun r => decide ¬listed.HasPath e.ns r.path

theorem mem_paths_absentRecords {path : String} :
    path ∈ (absentRecords e records listed).map ExportRecord.path ↔ NewPath e records listed path := by
  simp only [absentRecords, NewPath, List.mem_map, List.mem_filter, decide_eq_true_eq]
  constructor
  · rintro ⟨r, ⟨hr, hnew⟩, rfl⟩
    exact ⟨hnew, r, hr, rfl⟩
  · rintro ⟨hnew, r, hr, rfl⟩
    exact ⟨r, ⟨hr, hnew⟩, rfl⟩

/-- Without overwriting, the command reads the keys and imports the records that they leave. -/
theorem cmdImport_eq : cmdImport e src lib wListing w false records listed db =
    match keys e wListing listed lib none with
    | .error err => .ofError err db
    | .ok _ => (importEntries e src w (absentRecords e records listed) db).map fun imported =>
        (imported, records.countP fun r => decide (listed.HasPath e.ns r.path)) := by
  unfold cmdImport
  rw [if_neg (by simp)]
  cases hkeys : keys e wListing listed lib none with
  | error err => rfl
  | ok existing =>
    have hlisted : ∀ r : ExportRecord, (!existing.contains r.path) =
        decide ¬listed.HasPath e.ns r.path := by
      intro r
      rw [decide_not]
      refine congrArg Bool.not ?_
      rw [Bool.eq_iff_iff, List.contains_iff_mem, decide_eq_true_eq]
      exact keys_ok hkeys r.path
    have habsent : records.filter (fun r => !existing.contains r.path) =
        absentRecords e records listed := List.filter_congr fun r _ => hlisted r
    have hskipped : (records.filter (not ∘ fun r => !existing.contains r.path)).length =
        records.countP fun r => decide (listed.HasPath e.ns r.path) := by
      rw [← List.countP_eq_length_filter]
      refine List.countP_congr fun r _ => ?_
      rw [Function.comp_apply, hlisted, decide_not, Bool.not_not]
    dsimp only
    rw [List.partition_eq_filter_filter]
    dsimp only
    rw [habsent, hskipped]

theorem length_absentRecords : (absentRecords e records listed).length +
    records.countP (fun r => decide (listed.HasPath e.ns r.path)) = records.length := by
  rw [absentRecords, ← List.countP_eq_length_filter, Nat.add_comm,
    List.length_eq_countP_add_countP fun r : ExportRecord => decide (listed.HasPath e.ns r.path)]
  congr 2
  funext r
  simp

/-- An import without overwriting fails and changes nothing, or it counts every record once,
changes no row that was listed or that no record names, and stores the other records. -/
theorem cmdImport_absent (hv : db.Valid) (records : List ExportRecord) (listed : Db) :
    (∃ err, cmdImport e src lib wListing w false records listed db = .ofError err db) ∨
      ∃ imported skipped,
        (cmdImport e src lib wListing w false records listed db).result = .ok (imported, skipped) ∧
        skipped = records.countP (fun r => decide (listed.HasPath e.ns r.path)) ∧
        imported + skipped = records.length ∧
        ImportsAbsent e src records listed db
          (cmdImport e src lib wListing w false records listed db) := by
  rw [cmdImport_eq]
  cases keys e wListing listed lib none with
  | error err => exact Or.inl ⟨err, rfl⟩
  | ok _ =>
    dsimp only
    cases hresult : (importEntries e src w (absentRecords e records listed) db).result with
    | error err =>
      rw [importEntries_of_error hv hresult]
      exact Or.inl ⟨err, rfl⟩
    | ok n =>
      obtain ⟨hn, hlast⟩ := importEntries_lastStored hv hresult
      obtain ⟨hold, hkept⟩ := importEntries_others hv hresult
      have hnew : ∀ r : FileRow, ¬(r.ns = e.ns ∧ NewPath e records listed r.path) →
          ¬(r.ns = e.ns ∧ r.path ∈ (absentRecords e records listed).map ExportRecord.path) := by
        rintro r hother ⟨hns, hpath⟩
        exact hother ⟨hns, mem_paths_absentRecords.mp hpath⟩
      refine Or.inr ⟨n, _, ?_, rfl, ?_, ?_, ?_, ?_⟩
      · exact congrArg (Except.map _) hresult
      · rw [hn]
        exact length_absentRecords
      · exact fun r hr hother => hold r hr (hnew r hother)
      · exact fun r hr hother => hkept r hr (hnew r hother)
      · rintro pre r post rfl hlastOf habsent
        refine hlast (absentRecords e pre listed) r (absentRecords e post listed) ?_
          (fun r' hr' => hlastOf r' (List.mem_filter.mp hr').1)
        rw [absentRecords, List.filter_append, List.filter_cons_of_pos (by simpa using habsent)]
        rfl

/-! ## The command again -/

/-- The last element of a list with a value. -/
theorem exists_last_of_mem {α β : Type*} (f : α → β) {b : β} : ∀ {l : List α}, b ∈ l.map f →
    ∃ pre a post, l = pre ++ a :: post ∧ f a = b ∧ ∀ a' ∈ post, f a' ≠ b
  | x :: xs, h => by
    by_cases hrest : b ∈ xs.map f
    · obtain ⟨pre, a, post, rfl, ha, hlast⟩ := exists_last_of_mem f hrest
      exact ⟨x :: pre, a, post, rfl, ha, hlast⟩
    · have hx : f x = b := ((List.mem_cons.mp h).resolve_right hrest).symm
      exact ⟨[], x, xs, rfl, hx, fun a' ha' heq => hrest (List.mem_map.mpr ⟨a', ha', heq⟩)⟩

/-- After an import without overwriting that evicted nothing, every record's path has its row. -/
theorem hasPath_of_importEntries {n : ℕ} (hv : db.Valid)
    (h : (importEntries e src w (absentRecords e records db) db).result = .ok n)
    (hevicted : (importEntries e src w (absentRecords e records db) db).evicted = []) :
    ∀ r ∈ records, (importEntries e src w (absentRecords e records db) db).db.HasPath e.ns r.path := by
  intro r hr
  by_cases hold : db.HasPath e.ns r.path
  · obtain ⟨row, hrow, hkey⟩ := hold
    have hother : ¬(row.ns = e.ns ∧
        row.path ∈ (absentRecords e records db).map ExportRecord.path) := by
      rintro ⟨-, hpath⟩
      exact (mem_paths_absentRecords.mp hpath).1 ⟨row, hrow, hkey.1, rfl⟩
    rcases (importEntries_others hv h).2 row hrow hother with hkept | ⟨-, hgone⟩
    · exact ⟨row, hkept, hkey⟩
    · rw [hevicted] at hgone
      exact absurd hgone List.not_mem_nil
  · have hpath : r.path ∈ (absentRecords e records db).map ExportRecord.path :=
      mem_paths_absentRecords.mpr ⟨hold, List.mem_map_of_mem hr⟩
    obtain ⟨pre, last, post, hsplit, hlastpath, hlast⟩ := exists_last_of_mem ExportRecord.path hpath
    obtain ⟨row, hrow, f, hf, hkey, -⟩ := (importEntries_lastStored hv h).2 pre last post hsplit
      (hlastpath ▸ hlast)
    obtain ⟨content, -, rfl⟩ := toFullRow_eq_ok.mp hrow
    exact ⟨f, hf, hlastpath ▸ hkey⟩

/-- Where every path is there, the command does nothing. -/
theorem cmdImport_of_hasPath (hro : e.readOnly = false) (hfault : ∀ k, wListing.fault k = none)
    (hall : ∀ r ∈ records, db.HasPath e.ns r.path) :
    cmdImport e src lib wListing w false records db db = ⟨.ok (0, records.length), db, [], []⟩ := by
  have hkeys : keys e wListing db lib none = .ok (Sql.keys e.ns db lib none) :=
    autocommit_select hfault _
  have hnone : absentRecords e records db = [] :=
    List.filter_eq_nil_iff.mpr fun r hr => by simpa using hall r hr
  have hcount : records.countP (fun r => decide (db.HasPath e.ns r.path)) = records.length :=
    List.countP_eq_length.mpr fun r hr => decide_eq_true (hall r hr)
  rw [cmdImport_eq, hkeys, hnone, hcount, importEntries, if_neg (by simp [hro])]
  rfl

/-- Run again at once, after a first time whose bound evicted nothing, the command skips every
record and changes nothing. -/
theorem cmdImport_again (hv : db.Valid) {counts : ℕ × ℕ} {wListing' w' : World}
    (hfirst : (cmdImport e src lib wListing w false records db db).result = .ok counts)
    (hevicted : (cmdImport e src lib wListing w false records db db).evicted = [])
    (hfault : ∀ k, wListing'.fault k = none) :
    cmdImport e src lib wListing' w' false records
        (cmdImport e src lib wListing w false records db db).db
        (cmdImport e src lib wListing w false records db db).db =
      ⟨.ok (0, records.length), (cmdImport e src lib wListing w false records db db).db, [], []⟩ := by
  have hrun := @cmdImport_eq _ e src lib wListing w records db db
  cases hkeys : keys e wListing db lib none with
  | error err =>
    rw [hrun, hkeys] at hfirst
    exact absurd hfirst (by simp [Outcome.ofError])
  | ok existing =>
    rw [hkeys] at hrun
    rw [hrun] at hfirst hevicted ⊢
    dsimp only [Outcome.map] at hfirst hevicted ⊢
    have hro : e.readOnly = false := by
      by_contra hro
      rw [importEntries, if_pos (by simpa using hro)] at hfirst
      exact absurd hfirst (by simp [Outcome.ofError, Except.map])
    cases hresult : (importEntries e src w (absentRecords e records db) db).result with
    | error err =>
      rw [hresult] at hfirst
      cases hfirst
    | ok n => exact cmdImport_of_hasPath hro hfault (hasPath_of_importEntries hv hresult hevicted)

/-- Two records of one path : the second is stored, then both are skipped. -/
def twoRecords : List ExportRecord := [sampleRecord 1 0, sampleRecord 2 0]

theorem cmdImport_absent_sample :
    ImportsAbsent (.plain "n" none) Sources.quiet twoRecords Db.empty Db.empty
      (cmdImport (.plain "n" none) Sources.quiet Host.quiet.query .quiet .quiet false twoRecords
        Db.empty Db.empty) := by
  have hok : (cmdImport (.plain "n" none) Sources.quiet Host.quiet.query .quiet .quiet false
      twoRecords Db.empty Db.empty).result = .ok (2, 0) := by rfl
  rcases @cmdImport_absent Unit (.plain "n" none) Sources.quiet Host.quiet.query .quiet .quiet
    Db.empty Db.valid_empty twoRecords Db.empty with ⟨err, herr⟩ | ⟨_, _, _, _, _, himports⟩
  · rw [herr] at hok
    cases hok
  · exact himports

theorem cmdImport_again_sample :
    (cmdImport (.plain "n" none) Sources.quiet Host.quiet.query .quiet .quiet false twoRecords
      (cmdImport (.plain "n" none) Sources.quiet Host.quiet.query .quiet .quiet false twoRecords
        Db.empty Db.empty).db
      (cmdImport (.plain "n" none) Sources.quiet Host.quiet.query .quiet .quiet false twoRecords
        Db.empty Db.empty).db).result = .ok (0, 2) :=
  congrArg Outcome.result (@cmdImport_again Unit (.plain "n" none) Sources.quiet Host.quiet.query .quiet
    .quiet twoRecords Db.empty Db.valid_empty (2, 0) .quiet .quiet (by rfl) (by rfl) fun _ => rfl)

end LocalCache
