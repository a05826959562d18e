import LocalCache.Working
import LocalCache.Writes

/-!
# What an import refuses

The documentation of `import_entries` names what it refuses : a payload that is not Base64, too
many distinct paths, an unbound record on an engine with a key, and a `last_accessed_at` or an
`updated_at` that is out of range (`Refuses`). The code reads one of the two times of a record
and never the other (`useValueOfRecord`), so it accepts a record whose unread time is out of
range. On a working database it does what the documentation says exactly when no unread time
is out of range, or something else refuses the import (`importEntries_meetsContract_iff`).
-/

namespace LocalCache

/-- The order of two lists' elements related one by one, cut at an element of the first. -/
theorem exists_of_forall₂_append {α β : Type*} {R : α → β → Prop} {a : α} {post : List α} :
    ∀ {pre : List α} {bs : List β}, List.Forall₂ R (pre ++ a :: post) bs →
      ∃ pre' b post', bs = pre' ++ b :: post' ∧ R a b ∧ List.Forall₂ R post post'
  | [], _, .cons hab hpost => ⟨[], _, _, rfl, hab, hpost⟩
  | _ :: _, _, .cons (b := b) _ h => by
    obtain ⟨pre', b', post', rfl, hab, hpost⟩ := exists_of_forall₂_append h
    exact ⟨b :: pre', b', post', rfl, hab, hpost⟩

/-! ## The documented contract -/

/-- Seconds whose microseconds are use values. -/
def InRange (seconds : ℤ) : Prop := 0 ≤ seconds ∧ seconds * 1000000 < useValueLimit

instance (seconds : ℤ) : Decidable (InRange seconds) := inferInstanceAs (Decidable (_ ∧ _))

section Contract

variable {T : Type} (e : Engine) (src : Sources T) (records : List ExportRecord)

/-- Some payload is not valid Base64. -/
def RefusesPayload : Prop := ∃ r ∈ records, ∃ text, src.decodeBase64 r.payloadB64 = .error text

/-- The records name more distinct paths than `max_entries`. -/
def RefusesCount : Prop :=
  ∃ m, e.maxEntries = some m ∧ m < distinctCount (records.map ExportRecord.path)

/-- The engine has a key and some tag is not bound. -/
def RefusesSeal : Prop :=
  e.encryptionKey.isSome = true ∧ ∃ r ∈ records, sealState r.encoding ≠ .bound

/-- Some record's last use or last write is out of range. -/
def RefusesRecency : Prop := ∃ r ∈ records, ¬InRange r.lastAccessedAt ∨ ¬InRange r.updatedAt

/-- What the documentation of `import_entries` refuses. -/
def Refuses : Prop :=
  RefusesPayload src records ∨ RefusesCount e records ∨ RefusesSeal e records ∨
    RefusesRecency records

/-- The call returned `InvalidArgument { argument: records }` and wrote nothing. -/
structure Rejected (db : Db) (o : Outcome ℕ) : Prop where
  result : ∃ reason, o.result = .error (.invalidArgument "records" reason)
  db : o.db = db
  evicted : o.evicted = []

/-- The row of `ns` and its payload are as the record has them. -/
def Holds (ns : String) (row : FullRow) (db : Db) : Prop :=
  ∃ f ∈ db.files, Db.HasKey ns row.path f ∧ f.metadata = row.metadata ∧
    f.updatedAt = row.updatedAt ∧ f.payloadVersion = row.payloadVersion ∧
      useValueOfRecord row.lastAccessedAt row.updatedAt = some f.lastUsedUs ∧
        db.payload? f.id = some ⟨f.id, row.content, row.encoding⟩

/-- For each path, the stored row is the last record given for it. -/
def StoresLast (db : Db) : Prop :=
  ∀ pre r post, records = pre ++ r :: post → (∀ r' ∈ post, r'.path ≠ r.path) →
    ∃ row, ExportRecord.toFullRow src r = .ok row ∧ Holds e.ns row db

/-- The call did what the documentation says : it rejected exactly what it refuses, and in every
other case stored the records. -/
structure MeetsContract (db : Db) (o : Outcome ℕ) : Prop where
  rejected_iff : Rejected db o ↔ Refuses e src records
  stores : ¬Refuses e src records → o.result = .ok records.length ∧ StoresLast e src records o.db

/-- The time of a record that `use_value_of_record` does not read. -/
def unreadTime (r : ExportRecord) : ℤ := if r.lastAccessedAt > 0 then r.updatedAt else r.lastAccessedAt

/-- What the code itself refuses. -/
def CodeRefuses : Prop :=
  RefusesPayload src records ∨ RefusesCount e records ∨ RefusesSeal e records ∨
    ∃ r ∈ records, useValueOfRecord r.lastAccessedAt r.updatedAt = none

end Contract

/-! ## Recency -/

/-- The use value exists exactly when the time read is in range. -/
theorem useValueOfRecord_eq_none {lastAccessedAt updatedAt : ℤ} :
    useValueOfRecord lastAccessedAt updatedAt = none ↔
      ¬InRange (if lastAccessedAt > 0 then lastAccessedAt else updatedAt) := by
  unfold useValueOfRecord checkedMul InRange useValueLimit
  simp only
  generalize (if lastAccessedAt > 0 then lastAccessedAt else updatedAt) = seconds
  split_ifs with hneg hmul
  · simp only [true_iff, not_and_or]
    exact Or.inl (by omega)
  · simp only [Option.filter_some, decide_eq_true_eq]
    split_ifs with hlt
    · exact ⟨fun h => absurd h (by simp), fun h => absurd ⟨by omega, hlt⟩ h⟩
    · exact ⟨fun _ h => hlt h.2, fun _ => rfl⟩
  · simp only [Option.filter_none, true_iff]
    exact fun h => hmul ⟨by omega, by omega⟩

/-- With every time that is read in range, a time is out of range exactly when an unread one
is. -/
theorem refusesRecency_iff {records : List ExportRecord}
    (h : ∀ r ∈ records, useValueOfRecord r.lastAccessedAt r.updatedAt ≠ none) :
    RefusesRecency records ↔ ∃ r ∈ records, ¬InRange (unreadTime r) := by
  refine exists_congr fun r => and_congr_right fun hr => ?_
  have hread := not_not.mp (mt useValueOfRecord_eq_none.mpr (h r hr))
  unfold unreadTime
  split_ifs at hread ⊢ with hpos
  · exact ⟨fun hor => hor.resolve_left (not_not.mpr hread), Or.inr⟩
  · exact ⟨fun hor => hor.resolve_right (not_not.mpr hread), Or.inl⟩

theorem codeRefuses_refuses {T : Type} {e : Engine} {src : Sources T} {records : List ExportRecord}
    (h : CodeRefuses e src records) : Refuses e src records := by
  rcases h with h | h | h | ⟨r, hr, hnone⟩
  · exact Or.inl h
  · exact Or.inr (Or.inl h)
  · exact Or.inr (Or.inr (Or.inl h))
  · refine Or.inr (Or.inr (Or.inr ⟨r, hr, ?_⟩))
    have hread := useValueOfRecord_eq_none.mp hnone
    split_ifs at hread with hpos
    · exact Or.inl hread
    · exact Or.inr hread

/-! ## The checks -/

section Checks

variable {T : Type} {e : Engine} {src : Sources T} {r : ExportRecord} {row : FullRow}

theorem toFullRow_eq_ok : ExportRecord.toFullRow src r = .ok row ↔ ∃ content,
    src.decodeBase64 r.payloadB64 = .ok content ∧ row = ⟨r.path, content, r.encoding, r.metadata,
      r.payloadVersion, r.updatedAt, r.lastAccessedAt⟩ := by
  unfold ExportRecord.toFullRow
  cases src.decodeBase64 r.payloadB64 with
  | ok content => simp [eq_comm]
  | error text => simp

theorem toFullRow_eq_error {err : Error} (h : ExportRecord.toFullRow src r = .error err) :
    (∃ text, src.decodeBase64 r.payloadB64 = .error text) ∧
      ∃ reason, err = .invalidArgument "records" reason := by
  unfold ExportRecord.toFullRow at h
  cases hb : src.decodeBase64 r.payloadB64 with
  | ok content =>
    rw [hb] at h
    exact absurd h (by simp)
  | error text =>
    rw [hb] at h
    exact ⟨⟨text, rfl⟩, _, (Except.error.inj h).symm⟩

variable {rows : List FullRow}

/-- A check : it passes when `good`, and otherwise refuses the records. -/
def ChecksFor (good : Prop) (x : Except Error Unit) : Prop :=
  (good → x = .ok ()) ∧ (¬good → ∃ reason, x = .error (.invalidArgument "records" reason))

theorem ChecksFor.andThen {good good' : Prop} {x y : Except Error Unit} (hx : ChecksFor good x)
    (hy : ChecksFor good' y) : ChecksFor (good ∧ good') (x >>= fun _ => y) := by
  constructor
  · rintro ⟨hg, hg'⟩
    rw [hx.1 hg]
    exact hy.1 hg'
  · intro hnot
    by_cases hg : good
    · rw [hx.1 hg]
      exact hy.2 fun hg' => hnot ⟨hg, hg'⟩
    · obtain ⟨reason, h⟩ := hx.2 hg
      exact ⟨reason, by rw [h]; rfl⟩

theorem checksFor_bound : ChecksFor
    (e.encryptionKey.isSome = true → ∀ row ∈ rows, sealState row.encoding = .bound)
    (checkBound e rows) := by
  unfold checkBound
  simp only
  split_ifs with h
  · refine ⟨fun hall => absurd h.2 ?_, fun _ => ⟨_, rfl⟩⟩
    rw [List.filter_eq_nil_iff.mpr fun row hrow => by simpa using hall h.1 row hrow]
    simp
  · refine ⟨fun _ => rfl, fun hnot => absurd ?_ hnot⟩
    intro hkey row hrow
    by_contra hne
    have hmem : row ∈ rows.filter fun row => decide (sealState row.encoding ≠ .bound) :=
      List.mem_filter.mpr ⟨hrow, by simpa using hne⟩
    exact h ⟨hkey, List.length_pos_of_mem hmem⟩

theorem checksFor_recency : ChecksFor
    (∀ row ∈ rows, (useValueOfRecord row.lastAccessedAt row.updatedAt).isSome)
    (checkRecency rows) := by
  unfold checkRecency
  split_ifs with h
  · refine ⟨fun hall => ?_, fun _ => ⟨_, rfl⟩⟩
    obtain ⟨row, hrow, hnone⟩ := List.any_eq_true.mp h
    rw [Option.isNone_iff_eq_none] at hnone
    have hsome := hall row hrow
    rw [hnone] at hsome
    exact absurd hsome (by simp)
  · refine ⟨fun _ => rfl, fun hnot => absurd (fun row hrow => ?_) hnot⟩
    by_contra hnone
    exact h (List.any_eq_true.mpr ⟨row, hrow, by simpa using hnone⟩)

theorem checksFor_distinct {noun : String} {paths : List String} : ChecksFor
    (∀ m, e.maxEntries = some m → distinctCount paths ≤ m)
    (checkDistinct e "records" noun paths) := by
  unfold checkDistinct
  cases hm : e.maxEntries with
  | none => exact ⟨fun _ => rfl, fun hnot => absurd (fun m h => absurd h (by simp)) hnot⟩
  | some m =>
    simp only
    split_ifs with h
    · exact ⟨fun hall => absurd (hall m rfl) (not_le.mpr h), fun _ => ⟨_, rfl⟩⟩
    · refine ⟨fun _ => rfl, fun hnot => absurd (fun m' h' => ?_) hnot⟩
      obtain rfl := Option.some.inj h'
      exact not_lt.mp h

end Checks

/-! ## The loop -/

section Loop

variable {w : World} {ns : String} {t t' : Tx} {db db' : Db} {rows done : List FullRow}
  {ids : List ℕ}

/-- The rows stored so far : for each path, the last one given for it, under one of the
ids. -/
def LastStored (ns : String) (done : List FullRow) (ids : List ℕ) (db : Db) : Prop :=
  ∀ pre row post, done = pre ++ row :: post → (∀ row' ∈ post, row'.path ≠ row.path) →
    ∃ f ∈ db.files, f.id ∈ ids ∧ Db.HasKey ns row.path f ∧ f.metadata = row.metadata ∧
      f.updatedAt = row.updatedAt ∧ f.payloadVersion = row.payloadVersion ∧
        useValueOfRecord row.lastAccessedAt row.updatedAt = some f.lastUsedUs ∧
          db.payload? f.id = some ⟨f.id, row.content, row.encoding⟩

/-- One more row : it is the last of its path, and the rows of other paths are as they were. -/
theorem LastStored.snoc {row : FullRow} {id : ℕ} (h : LastStored ns done ids t.db) (hv : t.db.Valid)
    (hrun : importRowInTx w ns row t = .ok (id, t')) :
    LastStored ns (done ++ [row]) (ids ++ [id]) t'.db := by
  obtain ⟨useValue, huse, hs⟩ := importRowInTx_stored hv hrun
  have hmem := (hs.upserted.mem _).mpr (Or.inl rfl)
  intro pre row' post heq hlast
  rcases List.eq_nil_or_concat post with rfl | ⟨post, last, rfl⟩
  · obtain ⟨-, hrow⟩ := List.append_inj' heq rfl
    obtain rfl := List.singleton_inj.mp hrow
    exact ⟨_, hmem, by simp [Sql.FileColumns.toRow], ⟨rfl, rfl⟩, rfl, rfl, rfl, huse, hs.payload⟩
  · have heq' : done ++ [row] = (pre ++ row' :: post) ++ [last] := by simpa using heq
    obtain ⟨rfl, hrow⟩ := List.append_inj' heq' rfl
    obtain rfl := List.singleton_inj.mp hrow
    obtain ⟨f, hf, hid, hk, hmeta, hupd, hver, hval, hpay⟩ :=
      h pre row' post rfl fun r hr => hlast r (by simp [hr])
    have hne : ¬Db.HasKey ns row.path f := fun hk' =>
      hlast row (by simp) (hk'.2.symm.trans hk.2)
    have hf' := (hs.upserted.mem f).mpr (Or.inr ⟨hf, hne⟩)
    have hidne : f.id ≠ _ := fun heq => hne (hs.upserted.valid.eq_of_id hf' hmem heq ▸ hs.upserted.hasKey)
    exact ⟨f, hf', List.mem_append_left _ hid, hk, hmeta, hupd, hver, hval,
      (hs.others f.id hidne).trans hpay⟩

theorem lastStored_importRowsInTx (hv : t.db.Valid)
    (h : importRowsInTx w ns rows t = .ok (ids, t')) :
    t'.db.Valid ∧ LastStored ns rows ids t'.db := by
  refine StateExcept.forEach_ok (fun done ids s => s.db.Valid ∧ LastStored ns done ids s.db) ?_
    rows [] [] ids t t' ⟨hv, fun pre row post heq => absurd heq (by simp)⟩ h
  rintro done ids row id s s' ⟨hs, hlast⟩ hstep
  obtain ⟨r, hu, -⟩ := importRowInTx_ok hs hstep
  exact ⟨hu.valid, hlast.snoc hs hstep⟩

/-- The eviction of a write keeps the rows it stored. -/
theorem LastStored.evicted {e : Engine} {paths : List String} (h : LastStored ns rows ids t.db)
    (hv : t.db.Valid) (hrun : enforceMaxEntries e w ids t = .ok (paths, t')) :
    LastStored ns rows ids t'.db := by
  obtain ⟨victims, hevicted, -⟩ := enforceMaxEntries_ok hv hrun
  have hshrunk := enforceMaxEntries_shrunk hv hrun
  intro pre row post heq hlast
  obtain ⟨f, hf, hid, hk, hmeta, hupd, hver, hval, hpay⟩ := h pre row post heq hlast
  have hkept : f ∈ t'.db.files := by
    refine (hevicted.mem f).mpr ⟨hf, fun hvictim => ?_⟩
    have hprot := (List.mem_filter.mp (hevicted.least.subset f hvictim)).2
    exact absurd hid (by simpa using hprot)
  exact ⟨f, hkept, hid, hk, hmeta, hupd, hver, hval, (hshrunk.payload f hkept).trans hpay⟩

end Loop

/-! ## The import -/

section Import

variable {T : Type} {e : Engine} {src : Sources T} {w : World} {records : List ExportRecord} {db : Db}

/-- The rows of an import are its records, with their payloads decoded. -/
def Decoded (src : Sources T) (records : List ExportRecord) (rows : List FullRow) : Prop :=
  List.Forall₂ (fun r row => ExportRecord.toFullRow src r = .ok row) records rows

theorem Decoded.forall_iff {rows : List FullRow} (h : Decoded src records rows)
    {p : ExportRecord → Prop} {q : FullRow → Prop}
    (hpq : ∀ r row, ExportRecord.toFullRow src r = .ok row → (p r ↔ q row)) :
    (∀ r ∈ records, p r) ↔ ∀ row ∈ rows, q row := by
  induction h with
  | nil => simp
  | cons hr _ ih => simp only [List.forall_mem_cons, hpq _ _ hr, ih]

theorem Decoded.paths {rows : List FullRow} (h : Decoded src records rows) :
    rows.map FullRow.path = records.map ExportRecord.path := by
  induction h with
  | nil => rfl
  | cons hr _ ih =>
    obtain ⟨content, -, rfl⟩ := toFullRow_eq_ok.mp hr
    rw [List.map_cons, List.map_cons, ih]

/-- The checks of an import pass exactly when the code refuses no record. -/
theorem Decoded.checks {rows : List FullRow} (h : Decoded src records rows) :
    ChecksFor (¬CodeRefuses e src records) (do
      checkBound e rows
      checkRecency rows
      checkDistinct e "records" "entries" (rows.map FullRow.path)) := by
  have hiff : ¬CodeRefuses e src records ↔
      (e.encryptionKey.isSome = true → ∀ row ∈ rows, sealState row.encoding = .bound) ∧
        (∀ row ∈ rows, (useValueOfRecord row.lastAccessedAt row.updatedAt).isSome) ∧
          ∀ m, e.maxEntries = some m → distinctCount (rows.map FullRow.path) ≤ m := by
    have hpayload : ¬RefusesPayload src records := by
      rintro ⟨r, hr, text, htext⟩
      have hall := (h.forall_iff (p := fun r => ∃ content, src.decodeBase64 r.payloadB64 = .ok content)
        (q := fun _ => True) fun r row hrow => by
          obtain ⟨content, hc, -⟩ := toFullRow_eq_ok.mp hrow
          exact iff_of_true ⟨content, hc⟩ trivial).mpr (fun _ _ => trivial) r hr
      obtain ⟨content, hc⟩ := hall
      exact absurd (htext.symm.trans hc) (by simp)
    have hseal := h.forall_iff (p := fun r => sealState r.encoding = .bound)
      (q := fun row => sealState row.encoding = .bound) fun r row hrow => by
        obtain ⟨content, -, rfl⟩ := toFullRow_eq_ok.mp hrow
        rfl
    have hrecency := h.forall_iff
      (p := fun r => useValueOfRecord r.lastAccessedAt r.updatedAt ≠ none)
      (q := fun row => (useValueOfRecord row.lastAccessedAt row.updatedAt).isSome) fun r row hrow => by
        obtain ⟨content, -, rfl⟩ := toFullRow_eq_ok.mp hrow
        exact Option.isSome_iff_ne_none.symm
    rw [← hseal, ← hrecency, h.paths]
    simp only [CodeRefuses, hpayload, RefusesCount, RefusesSeal, false_or, not_or, not_exists,
      not_and, not_lt, not_not]
    tauto
  rw [hiff]
  exact checksFor_bound.andThen (checksFor_recency.andThen checksFor_distinct)

theorem rejected_ofError {reason : String} :
    Rejected db (.ofError (.invalidArgument "records" reason) db) := ⟨⟨reason, rfl⟩, rfl, rfl⟩

/-- What the code refuses is rejected before anything is written. -/
theorem importEntries_rejected (hro : e.readOnly = false) (h : CodeRefuses e src records) :
    Rejected db (importEntries e src w records db) := by
  unfold importEntries
  rw [if_neg (by simp [hro])]
  rcases mapM_cases (ExportRecord.toFullRow src) records with ⟨rows, hmap, hrows⟩ | ⟨r, hr, err, herr, hmap⟩
  · rw [hmap]
    obtain ⟨reason, hcheck⟩ := (Decoded.checks (e := e) hrows).2 (not_not.mpr h)
    have hne : ¬rows.isEmpty = true := by
      intro hnil
      obtain rfl := List.isEmpty_iff.mp hnil
      obtain rfl := List.forall₂_nil_right_iff.mp hrows
      rcases h with ⟨r, hr, -⟩ | ⟨m, -, hm⟩ | ⟨-, r, hr, -⟩ | ⟨r, hr, -⟩
      · exact absurd hr List.not_mem_nil
      · exact absurd hm (by simp [distinctCount])
      · exact absurd hr List.not_mem_nil
      · exact absurd hr List.not_mem_nil
    simp only [importBounded]
    rw [if_neg hne, hcheck]
    exact rejected_ofError
  · obtain ⟨-, reason, rfl⟩ := toFullRow_eq_error herr
    rw [hmap]
    exact rejected_ofError

/-- What the code does not refuse is stored, on a database that works. -/
theorem importEntries_stored (hro : e.readOnly = false) (hv : db.Valid)
    (hworks : Works w records.length db) (h : ¬CodeRefuses e src records) :
    (importEntries e src w records db).result = .ok records.length ∧
      StoresLast e src records (importEntries e src w records db).db := by
  unfold importEntries
  rw [if_neg (by simp [hro])]
  rcases mapM_cases (ExportRecord.toFullRow src) records with ⟨rows, hmap, hrows⟩ | ⟨r, hr, err, herr, hmap⟩
  · rw [hmap]
    have hcheck := (Decoded.checks (e := e) hrows).1 h
    have hlen : rows.length = records.length := hrows.length_eq.symm
    simp only [importBounded]
    split_ifs with hnil
    · obtain rfl := List.isEmpty_iff.mp hnil
      obtain rfl := List.forall₂_nil_right_iff.mp hrows
      exact ⟨rfl, fun pre r post heq => absurd heq (by simp)⟩
    rw [hcheck]
    have huse : ∀ row ∈ rows, (useValueOfRecord row.lastAccessedAt row.updatedAt).isSome := by
      intro row hrow
      by_contra hnone
      obtain ⟨reason, hfail⟩ := checksFor_recency.2 fun hall => hnone (hall row hrow)
      simp only [hfail, bind, Except.bind] at hcheck
      split at hcheck <;> exact absurd hcheck (by simp)
    have htotal : StateExcept.Total (Roomy w records.length) (do
        let ids ← importRowsInTx w e.ns rows
        pure (rows.length, ids)) fun q t => q.1 = rows.length := by
      refine (hlen ▸ total_importRowsInTx hworks.fault huse).bind fun ids => ?_
      exact StateExcept.Total.pure fun _ _ => rfl
    obtain ⟨n, ids, t, evicted, t', hwrite, hn, hevict, ho⟩ :=
      boundedWrite_of_total (e := e) hworks hv htotal
    obtain ⟨ids', hloop, heq⟩ := StateExcept.map_eq_ok hwrite
    obtain ⟨-, rfl⟩ := Prod.mk.inj heq
    obtain ⟨hv', hstored⟩ := lastStored_importRowsInTx hv hloop
    simp only [ho]
    refine ⟨by rw [← hlen]; exact congrArg Except.ok hn, fun pre r post heq hlast => ?_⟩
    subst heq
    obtain ⟨pre', row, post', rfl, hrow, hpost⟩ := exists_of_forall₂_append hrows
    refine ⟨row, hrow, ?_⟩
    obtain ⟨content, -, rfl⟩ := toFullRow_eq_ok.mp hrow
    obtain ⟨f, hf, -, hrest⟩ := hstored.evicted hv' hevict pre' _ post' rfl fun row' hrow' => by
      exact (Decoded.forall_iff hpost (p := fun r' => r'.path ≠ r.path)
        (q := fun row' => row'.path ≠ r.path) fun r' row'' hr' => by
          obtain ⟨c, -, rfl⟩ := toFullRow_eq_ok.mp hr'
          rfl).mp hlast row' hrow'
    exact ⟨f, hf, hrest⟩
  · obtain ⟨hbad, -⟩ := toFullRow_eq_error herr
    exact absurd (Or.inl ⟨r, hr, hbad⟩) h

/-- An import does what its documentation says exactly when no time of a record that it does not
read is out of range, or the code refuses the import for something else. -/
theorem importEntries_meetsContract_iff (hro : e.readOnly = false) (hv : db.Valid)
    (hworks : Works w records.length db) :
    MeetsContract e src records db (importEntries e src w records db) ↔
      (∀ r ∈ records, InRange (unreadTime r)) ∨ CodeRefuses e src records := by
  by_cases hcode : CodeRefuses e src records
  · have hrejected : Rejected db (importEntries e src w records db) :=
      importEntries_rejected hro hcode
    refine iff_of_true ⟨iff_of_true hrejected (codeRefuses_refuses hcode), fun hnot => ?_⟩ (Or.inr hcode)
    exact absurd (codeRefuses_refuses hcode) hnot
  · obtain ⟨hok, hlast⟩ := importEntries_stored hro hv hworks hcode
    have hnot : ¬Rejected db (importEntries e src w records db) := by
      rintro ⟨⟨reason, herr⟩, -, -⟩
      exact absurd (herr.symm.trans hok) (by simp)
    have hrefuses : Refuses e src records ↔ ∃ r ∈ records, ¬InRange (unreadTime r) := by
      rw [← refusesRecency_iff fun r hr hnone => hcode (Or.inr (Or.inr (Or.inr ⟨r, hr, hnone⟩)))]
      unfold CodeRefuses at hcode
      unfold Refuses
      tauto
    rw [or_iff_left hcode]
    constructor
    · intro hmeets r hr
      by_contra hout
      exact hnot (hmeets.rejected_iff.mpr (hrefuses.mpr ⟨r, hr, hout⟩))
    · intro hall
      have hnorefuse : ¬Refuses e src records := fun h => by
        obtain ⟨r, hr, hout⟩ := hrefuses.mp h
        exact hout (hall r hr)
      exact ⟨iff_of_false hnot hnorefuse, fun _ => ⟨hok, hlast⟩⟩

/-- A record of the path `a`, last used and last written at these times. -/
def sampleRecord (lastAccessedAt updatedAt : ℤ) : ExportRecord :=
  ⟨"a", "", "bin", ⟨0, 0, none⟩, 0, updatedAt, lastAccessedAt⟩

theorem works_quiet_empty : Works .quiet 1 Db.empty :=
  ⟨fun _ => rfl, by decide⟩

theorem importEntries_meetsContract_iff_sample :
    MeetsContract (.plain "n" none) Sources.quiet [sampleRecord 1 0] Db.empty
      (importEntries (.plain "n" none) Sources.quiet .quiet [sampleRecord 1 0] Db.empty) :=
  (importEntries_meetsContract_iff rfl Db.valid_empty works_quiet_empty).mpr (Or.inl (by decide))

/-- A negative `last_accessed_at` beside an `updated_at` in range is not read, so the record is
stored. -/
theorem negativeRecency_stored :
    ¬MeetsContract (.plain "n" none) Sources.quiet [sampleRecord (-1) 0] Db.empty
      (importEntries (.plain "n" none) Sources.quiet .quiet [sampleRecord (-1) 0] Db.empty) := by
  intro h
  have hrefuses : Refuses (.plain "n" none) Sources.quiet [sampleRecord (-1) 0] :=
    Or.inr (Or.inr (Or.inr ⟨_, List.mem_singleton.mpr rfl, Or.inl (by decide)⟩))
  obtain ⟨reason, herr⟩ := (h.rejected_iff.mpr hrefuses).result
  have hok : (importEntries (.plain "n" none) Sources.quiet .quiet [sampleRecord (-1) 0]
      Db.empty).result = .ok 1 := by rfl
  exact absurd (herr.symm.trans hok) (by simp)

end Import

end LocalCache
