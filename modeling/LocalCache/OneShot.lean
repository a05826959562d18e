import LocalCache.Paging
import LocalCache.Working

/-!
# A paged cleanup is one delete

`cleanupMissingFiles` and `cleanupExpired` delete from the table they page over. With nothing else
writing, the outcome is that of one `DELETE` of every row that is gone (`deleteGone`), whatever the
page size (`cleanup_eq_deleteGone`).
-/

namespace LocalCache

/-! ## Deleting in parts -/

section Deleting

variable {db db₁ db₂ : Db} {ns path : String}

theorem Sql.deleteFiles_congr {gone gone' : FileRow → Bool} (h : ∀ r ∈ db.files, gone r = gone' r) :
    Sql.deleteFiles gone db = Sql.deleteFiles gone' db := by
  have hrows : db.files.filter (fun r => !gone r) = db.files.filter fun r => !gone' r :=
    List.filter_congr fun r hr => by rw [h r hr]
  have hpayloads : ∀ p : PayloadRow, (db.files.any fun r => gone r && r.id = p.fileId) =
      db.files.any fun r => gone' r && r.id = p.fileId := by
    intro p
    rw [Bool.eq_iff_iff, List.any_eq_true, List.any_eq_true]
    exact exists_congr fun r => and_congr_right fun hr => by rw [h r hr]
  unfold Sql.deleteFiles
  simp only [hrows, hpayloads]

theorem Sql.deleteFiles_deleteFiles (gone gone' : FileRow → Bool) :
    Sql.deleteFiles gone' (Sql.deleteFiles gone db) =
      Sql.deleteFiles (fun r => gone r || gone' r) db := by
  have hpayloads : ∀ p : PayloadRow,
      (!((db.files.filter fun r => !gone r).any fun r => gone' r && r.id = p.fileId) &&
        !(db.files.any fun r => gone r && r.id = p.fileId)) =
      !db.files.any fun r => (gone r || gone' r) && r.id = p.fileId := by
    intro p
    rw [Bool.eq_iff_iff]
    simp only [List.any_filter, Bool.and_eq_true, Bool.not_eq_true', Bool.or_eq_true, List.any_eq_false,
      decide_eq_true_eq]
    constructor
    · rintro ⟨hrest, hgone⟩ r hr ⟨h, hid⟩
      cases hr' : gone r with
      | false => exact hrest r hr ⟨hr', h.resolve_left (by simp [hr']), hid⟩
      | true => exact hgone r hr ⟨hr', hid⟩
    · intro h
      exact ⟨fun r hr hr' => h r hr ⟨.inr hr'.2.1, hr'.2.2⟩, fun r hr hr' => h r hr ⟨.inl hr'.1, hr'.2⟩⟩
  unfold Sql.deleteFiles
  simp only [List.filter_filter, hpayloads]
  congr 2
  funext r
  cases gone r <;> simp

theorem Sql.deleteFiles_false (db : Db) : Sql.deleteFiles (fun _ => false) db = db := by
  have hnone : ∀ p : PayloadRow, (db.files.any fun r => false && r.id = p.fileId) = false := by simp
  simp only [Sql.deleteFiles, hnone, Bool.not_false, List.filter_true]

/-- `db₂` is `db₁` after `k` rows were deleted. -/
def Deletes (db₁ db₂ : Db) (k : ℕ) : Prop :=
  ∃ gone, db₂ = Sql.deleteFiles gone db₁ ∧ k + db₂.files.length = db₁.files.length

theorem Deletes.refl (db : Db) : Deletes db db 0 :=
  ⟨fun _ => false, (Sql.deleteFiles_false db).symm, Nat.zero_add _⟩

theorem Deletes.trans {db₃ : Db} {k k' : ℕ} (h : Deletes db₁ db₂ k) (h' : Deletes db₂ db₃ k') :
    Deletes db₁ db₃ (k + k') := by
  obtain ⟨gone, rfl, hlen⟩ := h
  obtain ⟨gone', rfl, hlen'⟩ := h'
  exact ⟨_, Sql.deleteFiles_deleteFiles gone gone', by omega⟩

theorem length_filter_hasKey (hv : db.Valid) :
    (db.files.filter fun r => decide (Db.HasKey ns path r)).length =
      if (db.find? ns path).isSome then 1 else 0 := by
  cases hfind : db.find? ns path with
  | none =>
    have hnone := Db.find?_eq_none.mp hfind
    rw [List.filter_eq_nil_iff.mpr fun r hr => by simpa using hnone r hr]
    rfl
  | some r =>
    obtain ⟨hr, hk⟩ := hv.find?_eq_some.mp hfind
    have hcount : db.files.countP (fun q => decide (Db.HasKey ns path q)) = db.files.count r := by
      refine List.countP_congr fun q hq => ?_
      rw [decide_eq_true_eq, beq_iff_eq]
      exact ⟨fun hq' => hv.eq_of_hasKey hq hr hq' hk, fun hq' => hq' ▸ hk⟩
    rw [← List.countP_eq_length_filter, hcount, List.count_eq_one_of_mem hv.nodup hr]
    rfl

theorem deletes_hasKey (hv : db.Valid) :
    Deletes db (Sql.deleteFiles (fun r => decide (Db.HasKey ns path r)) db)
      (if (db.find? ns path).isSome then 1 else 0) := by
  refine ⟨_, rfl, ?_⟩
  rw [← length_filter_hasKey hv]
  exact (List.length_eq_length_filter_add _).symm

/-! ## A page -/

variable {w : World}

/-- The deletion of a page's rows goes through, and returns their number. -/
theorem total_deletePathsInTx (hfault : ∀ k, w.fault k = none) (hv : db.Valid) (paths : List String) :
    StateExcept.Total (fun t => t.db = db) (deletePathsInTx w ns paths)
      fun k t => Deletes db t.db k := by
  have hloop : StateExcept.Total (fun t => t.db = db)
      (StateExcept.forEach (deleteByPath w ns) paths) fun removed t =>
        t.db.Valid ∧ Deletes db t.db (removed.count true) := by
    refine (StateExcept.Total.forEach (I := fun _ _ removed t =>
      t.db.Valid ∧ Deletes db t.db (removed.count true)) ?_ paths [] []).weaken
        (fun t ht => ⟨ht ▸ hv, ht ▸ Deletes.refl _⟩) fun _ _ h => h
    rintro done removed path rest t ⟨ht, hdeletes⟩
    refine ⟨_, _, statement_of_ok (hfault _) rfl, Sql.valid_deleteFiles ht _, ?_⟩
    rw [List.count_append, List.count_singleton]
    convert hdeletes.trans (deletes_hasKey ht) using 2
    cases (t.db.find? ns path).isSome <;> rfl
  exact hloop.bind fun removed => .pure fun _ h => h.2

theorem deletePage_deletes (ns : String) (hfault : ∀ k, w.fault k = none) (hv : db.Valid)
    (paths : List String) :
    ∃ k db', (if paths.isEmpty then (.ok 0, db)
      else transaction w (deletePathsInTx w ns paths) db) = (.ok k, db') ∧ db'.Valid ∧
        Deletes db db' k := by
  split_ifs with hnil
  · exact ⟨0, db, rfl, hv, Deletes.refl db⟩
  · obtain ⟨k, t, hrun, hdeletes⟩ : ∃ k t, deletePathsInTx w ns paths ⟨db, 1, 0⟩ = .ok (k, t) ∧
        Deletes db t.db k := total_deletePathsInTx hfault hv paths ⟨db, 1, 0⟩ rfl
    have hvalid : t.db.Valid := (deletePathsInTx_ok (t := ⟨db, 1, 0⟩) hv hrun).1
    exact ⟨k, t.db, transaction_of_ok hfault hrun, hvalid, hdeletes⟩

/-! ## The loop -/

variable {e : Engine} {ws : ℕ → World}

/-- A cleanup with nothing in its way returns the number of rows it deleted. -/
theorem cleanupPages_deletes (hfault : ∀ n k, (ws n).fault k = none) {size : ℕ}
    {gone : FileRow → Bool} :
    ∀ {fuel n : ℕ} {cursor : String} {removed : ℕ} {examined : List FileRow} {db : Db}
      {o : CleanupOutcome}, db.Valid →
        cleanupPages e ws size gone fuel n cursor removed examined db = some o →
          ∃ k, o.result = .ok (removed + k) ∧ Deletes db o.db k
  | 0, _, _, _, _, _, _, _, h => absurd h (by simp [cleanupPages])
  | fuel + 1, n, cursor, removed, examined, db, o, hv, h => by
    have hread : (autocommit (select (ws (2 * n)) (Sql.pathsAfter e.ns cursor size)) db).1 =
        .ok (Sql.pathsAfter e.ns cursor size db) := by
      rw [autocommit, select_of_fault (hfault _ _)]
    rw [cleanupPages, hread] at h
    cases hlast : (Sql.pathsAfter e.ns cursor size db).getLast? with
    | none =>
      simp only [hlast] at h
      obtain rfl := Option.some.inj h
      exact ⟨0, rfl, Deletes.refl db⟩
    | some last =>
      obtain ⟨k, db', hpage, hv', hdeletes⟩ := deletePage_deletes e.ns (hfault (2 * n + 1)) hv
        (((Sql.pathsAfter e.ns cursor size db).filter gone).map FileRow.path)
      simp only [hlast, hpage] at h
      split_ifs at h
      · obtain rfl := Option.some.inj h
        exact ⟨k, rfl, hdeletes⟩
      · obtain ⟨k', hresult, hrest⟩ := cleanupPages_deletes hfault hv' h
        exact ⟨k + k', by rw [hresult, Nat.add_assoc], hdeletes.trans hrest⟩

/-! ## The whole delete -/

/-- One `DELETE` of the engine's rows that are gone, and their number. -/
def deleteGone (e : Engine) (gone : FileRow → Bool) (db : Db) : Except Error ℕ × Db :=
  if e.readOnly then (.error .readOnly, db)
  else (.ok ((db.inNamespace e.ns).filter gone).length,
    Sql.deleteFiles (fun r => decide (r.ns = e.ns) && gone r) db)

/-- A row that is gone and that a page can list. -/
def listedGone (gone : FileRow → Bool) (r : FileRow) : Bool := gone r && decide (r.path ≠ "")

theorem path_ne_of_mem_pathsAfter {after : String} {size : ℕ} {r : FileRow}
    (h : r ∈ Sql.pathsAfter ns after size db) : r.path ≠ "" := by
  have hmem := (Sql.limitRows_isPrefix size _).subset h
  rw [mem_sortBy, List.mem_filter, decide_eq_true_eq] at hmem
  intro hpath
  rw [hpath] at hmem
  exact List.not_lt_nil _ hmem.2

/-- No page lists a row with the empty path, so the loop does not delete it. -/
theorem cleanupPages_listedGone {size : ℕ} (gone : FileRow → Bool) :
    ∀ (fuel n : ℕ) (cursor : String) (removed : ℕ) (examined : List FileRow) (db : Db),
      cleanupPages e ws size gone fuel n cursor removed examined db =
        cleanupPages e ws size (listedGone gone) fuel n cursor removed examined db
  | 0, _, _, _, _, _ => rfl
  | fuel + 1, n, cursor, removed, examined, db => by
    have hread : ∀ page, (autocommit (select (ws (2 * n)) (Sql.pathsAfter e.ns cursor size)) db).1 =
        .ok page → page.filter gone = page.filter (listedGone gone) := by
      intro page hpage
      refine List.filter_congr fun r hr => ?_
      rcases autocommit_cases (select (ws (2 * n)) (Sql.pathsAfter e.ns cursor size)) db with
        ⟨a, t, hrun, hbody⟩ | ⟨err, hrun, -⟩
      · rw [hrun] at hpage
        rw [← Except.ok.inj hpage, (select_ok hbody).1] at hr
        rw [listedGone, decide_eq_true (path_ne_of_mem_pathsAfter hr), Bool.and_true]
      · rw [hrun] at hpage
        exact absurd hpage (by simp)
    rw [cleanupPages, cleanupPages]
    cases hpage : (autocommit (select (ws (2 * n)) (Sql.pathsAfter e.ns cursor size)) db).1 with
    | error err => rfl
    | ok page => simp only [hread page hpage, cleanupPages_listedGone gone fuel]

/-- The history does not change what the loop does. -/
theorem cleanupPages_examined {size : ℕ} {gone : FileRow → Bool} :
    ∀ (fuel n : ℕ) (cursor : String) (removed : ℕ) (examined examined' : List FileRow) (db : Db),
      (cleanupPages e ws size gone fuel n cursor removed examined db).map (fun o => (o.result, o.db)) =
        (cleanupPages e ws size gone fuel n cursor removed examined' db).map
          fun o => (o.result, o.db)
  | 0, _, _, _, _, _, _ => rfl
  | fuel + 1, n, cursor, removed, examined, examined', db => by
    rw [cleanupPages, cleanupPages]
    cases (autocommit (select (ws (2 * n)) (Sql.pathsAfter e.ns cursor size)) db).1 with
    | error err => rfl
    | ok page =>
      cases hlast : page.getLast? with
      | none => simp only [hlast, Option.map_some]
      | some last =>
        simp only [hlast]
        split
        · rfl
        · by_cases hshort : page.length < size
          · rw [if_pos hshort, if_pos hshort]
            rfl
          · rw [if_neg hshort, if_neg hshort]
            exact cleanupPages_examined fuel _ _ _ _ _ _

/-- The loop is one delete of the rows that are gone and that its pages can list. -/
theorem cleanupPages_eq_deleteListed (hv : db.Valid) (hfault : ∀ n k, (ws n).fault k = none)
    (hwritable : e.readOnly = false) {size fuel : ℕ} (hsize : 1 ≤ size)
    (hfuel : (db.inNamespace e.ns).length < fuel) (gone : FileRow → Bool) :
    (cleanupPages e ws size gone fuel 0 "" 0 [] db).map (fun o => (o.result, o.db)) =
      some (deleteGone e (listedGone gone) db) := by
  -- the row with the empty path counts as done from the start
  obtain ⟨done, rest, hcut⟩ : ∃ done rest, Cut (fun r => textKey r.path) (rowsByPath e.ns db)
      (textKey "") done rest := ⟨_, _, Cut.of_pairwise (pairwise_rowsByPath hv) _⟩
  have hstart : CleanedUpTo e.ns (listedGone gone) db "" done rest db := by
    refine ⟨hv, hcut, fun r => (and_iff_left ?_).symm⟩
    rintro ⟨hdone, hgone⟩
    rw [listedGone, Bool.and_eq_true, decide_eq_true_eq] at hgone
    exact not_lt.mpr (hcut.le r hdone) (textKey_empty_lt hgone.2)
  have hrest : rest.length < fuel := by
    refine lt_of_le_of_lt ?_ (length_rowsByPath.trans_lt hfuel)
    rw [hcut.eq, List.length_append]
    omega
  obtain ⟨o, ho, hclean⟩ : ∃ o, cleanupPages e ws size (listedGone gone) fuel 0 "" 0 done db = some o ∧
      ∀ k, o.result = .ok k → CleanedUp e.ns (listedGone gone) db o :=
    cleanupPages_ok hv hsize hstart hrest
  obtain ⟨k, hresult, gone', hdb, hlen⟩ := cleanupPages_deletes hfault hv ho
  have hgone : ∀ r ∈ db.files, gone' r = (decide (r.ns = e.ns) && listedGone gone r) := by
    intro r hr
    have hmem := (hclean _ hresult).mem r
    rw [hdb, Sql.mem_deleteFiles, and_iff_right hr, and_iff_right hr] at hmem
    rw [Bool.eq_iff_iff, Bool.and_eq_true, decide_eq_true_eq, ← not_iff_not, Bool.not_eq_true]
    exact hmem
  rw [Sql.deleteFiles_congr hgone] at hdb
  have hcount : k = ((db.inNamespace e.ns).filter (listedGone gone)).length := by
    have hsplit := List.length_eq_length_filter_add (l := db.files)
      fun r => decide (r.ns = e.ns) && listedGone gone r
    have hfilter : (db.inNamespace e.ns).filter (listedGone gone) =
        db.files.filter fun r => decide (r.ns = e.ns) && listedGone gone r := by
      rw [Db.inNamespace, List.filter_filter]
      exact List.filter_congr fun r _ => Bool.and_comm _ _
    rw [hdb] at hlen
    rw [hfilter]
    simp only [Sql.deleteFiles] at hlen
    omega
  rw [cleanupPages_listedGone, cleanupPages_examined _ _ _ _ _ _ _, ho, deleteGone, hwritable,
    if_neg (by simp), ← hcount, ← hdb]
  show some (o.result, o.db) = _
  rw [hresult, Nat.zero_add]

/-- Without an empty path it is the delete of every row that is gone. -/
theorem deleteGone_listedGone (hpaths : ∀ r ∈ db.files, r.path ≠ "") (gone : FileRow → Bool) :
    deleteGone e (listedGone gone) db = deleteGone e gone db := by
  have hgone : ∀ r ∈ db.files, listedGone gone r = gone r := fun r hr => by
    rw [listedGone, decide_eq_true (hpaths r hr), Bool.and_true]
  rw [deleteGone, deleteGone, List.filter_congr fun r hr => hgone r (Db.mem_inNamespace.mp hr).1,
    Sql.deleteFiles_congr fun r hr => by rw [hgone r hr]]

/-- `cleanup_expired` on a writable handle is such a delete. -/
theorem cleanupExpired_eq_deleteListed (hv : db.Valid) (hfault : ∀ n k, (ws n).fault k = none)
    (hwritable : e.readOnly = false) {size fuel : ℕ} (hsize : 1 ≤ size)
    (hfuel : (db.inNamespace e.ns).length < fuel) (now : FileRow → ℤ) :
    (cleanupExpired e ws now size fuel db).map (fun o => (o.result, o.db)) =
      some (deleteGone e (listedGone fun r => isExpired (now r) r.updatedAt e.ttl) db) := by
  rw [cleanupExpired, if_neg (by simp [hwritable])]
  cases httl : e.ttl with
  | some ttl => exact cleanupPages_eq_deleteListed hv hfault hwritable hsize hfuel _
  | none =>
    -- without a TTL nothing is expired, and no page is read
    have hnone : (listedGone fun r => isExpired (now r) r.updatedAt none) = fun _ => false := rfl
    simp only [deleteGone, hwritable, hnone, Bool.and_false, List.filter_false, Sql.deleteFiles_false]
    rfl

/-- A paged cleanup ends, and does what one delete does, whatever the page size. -/
theorem cleanup_eq_deleteGone (hv : db.Valid) (hpaths : ∀ r ∈ db.files, r.path ≠ "")
    (hfault : ∀ n k, (ws n).fault k = none) {size fuel : ℕ} (hsize : 1 ≤ size)
    (hfuel : (db.inNamespace e.ns).length < fuel) :
    (∀ exists_ : String → Bool,
      (cleanupMissingFiles e ws exists_ size fuel db).map (fun o => (o.result, o.db)) =
        some (deleteGone e (fun r => !exists_ r.path) db)) ∧
      ∀ now : FileRow → ℤ,
        (cleanupExpired e ws now size fuel db).map (fun o => (o.result, o.db)) =
          some (deleteGone e (fun r => isExpired (now r) r.updatedAt e.ttl) db) := by
  cases hwritable : e.readOnly with
  | true =>
    have hrefused : ∀ gone, deleteGone e gone db = (.error .readOnly, db) := fun gone => by
      rw [deleteGone, if_pos hwritable]
    refine ⟨fun exists_ => ?_, fun now => ?_⟩
    · rw [cleanupMissingFiles, if_pos hwritable, hrefused]
      rfl
    · rw [cleanupExpired, if_pos hwritable, hrefused]
      rfl
  | false =>
    refine ⟨fun exists_ => ?_, fun now => ?_⟩
    · rw [cleanupMissingFiles, if_neg (by simp [hwritable]),
        cleanupPages_eq_deleteListed hv hfault hwritable hsize hfuel, deleteGone_listedGone hpaths]
    · rw [cleanupExpired_eq_deleteListed hv hfault hwritable hsize hfuel, deleteGone_listedGone hpaths]

end Deleting

section Samples

/-- Three entries of one namespace and one of another. -/
def fourFiles : Db :=
  ⟨[⟨1, "n", "/a", ⟨0, 0, none⟩, 0, 0, 0⟩, ⟨2, "n", "/b", ⟨0, 0, none⟩, 5, 0, 0⟩,
      ⟨3, "m", "/b", ⟨0, 0, none⟩, 0, 0, 0⟩, ⟨4, "n", "/c", ⟨0, 0, none⟩, 0, 0, 0⟩],
    [⟨1, [], "bin"⟩, ⟨2, [], "bin"⟩, ⟨3, [], "bin"⟩, ⟨4, [], "bin"⟩], 4⟩

theorem valid_fourFiles : fourFiles.Valid where
  ids := by decide
  keys := by decide
  payloadIds := by decide
  foreign := by decide
  seq := by decide

/-- Pages of one row, of which two in three are deleted, and the last is followed by an empty one. -/
theorem cleanup_eq_deleteGone_sample :
    (cleanupMissingFiles (.plain "n" none) (fun _ => .quiet) (fun path => decide (path = "/b")) 1 4
      fourFiles).map (fun o => (o.result, o.db)) =
        some (.ok 2, ⟨[⟨2, "n", "/b", ⟨0, 0, none⟩, 5, 0, 0⟩, ⟨3, "m", "/b", ⟨0, 0, none⟩, 0, 0, 0⟩],
          [⟨2, [], "bin"⟩, ⟨3, [], "bin"⟩], 4⟩) :=
  (cleanup_eq_deleteGone valid_fourFiles (by decide) (fun _ _ => rfl) le_rfl (by decide)).1 _

end Samples

end LocalCache
