import LocalCache.Changes

/-!
# The strict use order

A use gives its row a value above every other value of its namespace, whatever the clock
reads. So for every use in the log, a row of its namespace not used since is strictly older
(`UseOrdered.above`), and the rows used are ordered for eviction by their last uses
(`useKey_lt_iff_usedBefore`).

Values stay below `2 ^ 62`, so one more than the largest is an `i64`. A use that would reach
the limit is refused by the column's CHECK before anything is written.
-/

namespace LocalCache

/-! ## Uses in a log -/

/-- In the log, `v` is used and `u` is not used since. -/
def UsedBefore (uses : List (String × ℕ)) (u v : String × ℕ) : Prop :=
  ∃ post, v :: post <:+ uses ∧ u ∉ v :: post

theorem usedBefore_of_notMem {uses : List (String × ℕ)} {u v : String × ℕ} (hu : u ∉ uses)
    (hv : v ∈ uses) : UsedBefore uses u v := by
  obtain ⟨pre, post, rfl⟩ := List.append_of_mem hv
  exact ⟨post, List.suffix_append _ _, fun hmem => hu (List.mem_append_right _ hmem)⟩

theorem UsedBefore.cons {uses : List (String × ℕ)} {u v : String × ℕ} (h : UsedBefore uses u v)
    (first : String × ℕ) : UsedBefore (first :: uses) u v := by
  obtain ⟨post, hpost, hnot⟩ := h
  exact ⟨post, hpost.trans (List.suffix_cons _ _), hnot⟩

/-- Of two rows used, one is used last. -/
theorem usedBefore_or {u v : String × ℕ} (hne : u ≠ v) : ∀ {uses : List (String × ℕ)},
    u ∈ uses → v ∈ uses → UsedBefore uses u v ∨ UsedBefore uses v u
  | first :: uses, hu, hv => by
    by_cases hu' : u ∈ uses
    · by_cases hv' : v ∈ uses
      · rcases usedBefore_or hne hu' hv' with h | h
        · exact Or.inl (h.cons first)
        · exact Or.inr (h.cons first)
      · exact Or.inr ((usedBefore_of_notMem hv' hu').cons first)
    · by_cases hv' : v ∈ uses
      · exact Or.inl ((usedBefore_of_notMem hu' hv').cons first)
      · rw [(List.mem_cons.mp hu).resolve_right hu', (List.mem_cons.mp hv).resolve_right hv'] at hne
        exact absurd rfl hne

/-! ## The invariant -/

/-- Every value is in range, and for every use in the log, the row it used is above every row
of its namespace not used since. -/
structure UseOrdered (c : Logged) : Prop where
  range : ∀ r ∈ c.db.files, 0 ≤ r.lastUsedUs ∧ r.lastUsedUs < useValueLimit
  seq : ∀ u ∈ c.uses, u.2 ≤ c.db.seq
  ns : ∀ u ∈ c.uses, ∀ r ∈ c.db.files, r.id = u.2 → r.ns = u.1
  above : ∀ u post, u :: post <:+ c.uses → ∀ b ∈ c.db.files, b.id = u.2 → ∀ a ∈ c.db.files,
    a.ns = u.1 → a.id ≠ u.2 → (u.1, a.id) ∉ post → a.lastUsedUs < b.lastUsedUs

namespace UseOrdered

variable {db db' : Db} {uses : List (String × ℕ)} {ns : String} {id : ℕ}

theorem empty : UseOrdered ⟨Db.empty, []⟩ :=
  ⟨by simp [Db.empty], by simp, by simp, fun u post h => absurd (List.eq_nil_of_suffix_nil h)
    (by simp)⟩

/-- The log's ids and namespaces after a change. -/
theorem keeps (h : UseOrdered ⟨db, uses⟩) (hk : KeepsIds db db') :
    (∀ u ∈ uses, u.2 ≤ db'.seq) ∧ ∀ u ∈ uses, ∀ r ∈ db'.files, r.id = u.2 → r.ns = u.1 := by
  refine ⟨fun u hu => (h.seq u hu).trans hk.seq, fun u hu r' hr' hid => ?_⟩
  obtain ⟨r, hr, hrid, hns⟩ := hk.old r' hr' (hid.trans_le (h.seq u hu))
  rw [← hns]
  exact h.ns u hu r hr (hrid.trans hid)

/-- A use : the row `id` takes the next value of `ns`, and the other rows are old. -/
theorem use (h : UseOrdered ⟨db, uses⟩) (now : ℕ) (hk : KeepsIds db db') (hid : id ≤ db'.seq)
    (hfiles : ∀ r ∈ db'.files, r.id = id ∧ r.ns = ns ∧ r.lastUsedUs = Sql.nextUse now db ns ∧
      r.lastUsedUs < useValueLimit ∨ r ∈ db.files ∧ r.id ≠ id) :
    UseOrdered ⟨db', uses ++ [(ns, id)]⟩ := by
  obtain ⟨hseq, hns⟩ := h.keeps hk
  refine ⟨fun r hr => ?_, fun u hu => ?_, fun u hu r hr hrid => ?_, ?_⟩
  · rcases hfiles r hr with ⟨-, -, hvalue, hlt⟩ | ⟨hr, -⟩
    · exact ⟨hvalue ▸ Sql.nextUse_nonneg now db ns, hlt⟩
    · exact h.range r hr
  · rcases List.mem_append.mp hu with hu | hu
    · exact hseq u hu
    · rw [List.mem_singleton.mp hu]
      exact hid
  · rcases List.mem_append.mp hu with hu | hu
    · exact hns u hu r hr hrid
    · obtain rfl := List.mem_singleton.mp hu
      rcases hfiles r hr with ⟨-, hrns, -⟩ | ⟨-, hne⟩
      · exact hrns
      · exact absurd hrid hne
  · intro u post hsuffix b hb hbid a ha hans haid hpost
    rcases List.suffix_concat_iff.mp hsuffix with hnil | ⟨init, heq, hinit⟩
    · exact absurd hnil (by simp)
    -- the value of the row just used is above every old row of its namespace
    have hnew : ∀ r ∈ db.files, r.ns = ns → r.lastUsedUs < Sql.nextUse now db ns :=
      fun r hr hrns => hrns ▸ Sql.lt_nextUse hr
    cases init with
    | nil =>
      obtain ⟨rfl, rfl⟩ : u = (ns, id) ∧ post = [] := by simpa using heq
      rcases hfiles b hb with ⟨-, -, hvalue, -⟩ | ⟨-, hne⟩
      · rcases hfiles a ha with ⟨haid', -, -, -⟩ | ⟨ha, -⟩
        · exact absurd haid' haid
        · rw [hvalue]
          exact hnew a ha hans
      · exact absurd hbid hne
    | cons v init =>
      obtain ⟨rfl, rfl⟩ : u = v ∧ post = init ++ [(ns, id)] := by simpa using heq
      have hu : u ∈ uses := hinit.subset List.mem_cons_self
      rcases hfiles a ha with ⟨haid', hans', -, -⟩ | ⟨ha, -⟩
      · refine absurd ?_ hpost
        rw [← hans, hans', haid']
        simp
      · rcases hfiles b hb with ⟨-, hbns, hvalue, -⟩ | ⟨hb', -⟩
        · rw [hvalue]
          exact hnew a ha (hans.trans ((hns u hu b hb hbid).symm.trans hbns))
        · exact h.above u init hinit b hb' hbid a ha hans haid
            fun hmem => hpost (List.mem_append_left _ hmem)

/-- A change of one namespace that forgets its uses. -/
theorem forget (h : UseOrdered ⟨db, uses⟩) (hk : KeepsIds db db')
    (hrange : ∀ r ∈ db'.files, 0 ≤ r.lastUsedUs ∧ r.lastUsedUs < useValueLimit)
    (hfiles : ∀ r ∈ db'.files, r.ns ≠ ns → r ∈ db.files) :
    UseOrdered ⟨db', uses.filter fun u => u.1 ≠ ns⟩ := by
  obtain ⟨hseq, hns⟩ := h.keeps hk
  refine ⟨hrange, fun u hu => hseq u (List.mem_of_mem_filter hu),
    fun u hu => hns u (List.mem_of_mem_filter hu), ?_⟩
  intro u post hsuffix b hb hbid a ha hans haid hpost
  obtain ⟨l, hl, heq⟩ := List.suffix_filter_iff.mp hsuffix
  obtain ⟨skipped, rest, rfl, hskipped, hu, rfl⟩ := List.filter_eq_cons_iff.mp heq.symm
  have hune : u.1 ≠ ns := by simpa using hu
  have hsuffix' : u :: rest <:+ uses := (List.suffix_append _ _).trans hl
  have hbns : b.ns = u.1 := hns u (hsuffix'.subset List.mem_cons_self) b hb hbid
  refine h.above u rest hsuffix' b (hfiles b hb (hbns ▸ hune)) hbid a (hfiles a ha (hans ▸ hune))
    hans haid fun hmem => hpost ?_
  exact List.mem_filter.mpr ⟨hmem, by simpa using hune⟩

theorem delete (h : UseOrdered ⟨db, uses⟩) (hsub : ∀ r ∈ db'.files, r ∈ db.files)
    (hseq : db'.seq = db.seq) : UseOrdered ⟨db', uses⟩ :=
  ⟨fun r hr => h.range r (hsub r hr), fun u hu => (h.seq u hu).trans hseq.ge,
    fun u hu r hr => h.ns u hu r (hsub r hr),
    fun u post hs b hb hid a ha => h.above u post hs b (hsub b hb) hid a (hsub a ha)⟩

end UseOrdered

/-- Every change keeps the use order. -/
theorem Change.useOrdered {allowed : String → Prop} {c c' : Logged} (h : Change allowed c c')
    (hv : c.db.Valid) (ho : UseOrdered c) : UseOrdered c' := by
  have hk := (h.keeps hv).1
  cases h with
  | @write ns path row db db' uses _ hrow hvalue =>
    obtain ⟨hlt, now, hnow⟩ := hvalue
    have hmem : row ∈ db'.files := (hrow.mem row).mpr (Or.inl rfl)
    refine ho.use now hk (hrow.valid.seq row hmem) fun r hr => ?_
    by_cases hid : r.id = row.id
    · obtain rfl := hrow.valid.eq_of_id hr hmem hid
      exact Or.inl ⟨rfl, hrow.hasKey.1, hnow, hlt⟩
    · refine Or.inr ⟨(((hrow.mem r).mp hr).resolve_left ?_).1, hid⟩
      rintro rfl
      exact hid rfl
  | @importRow ns path row db db' uses _ hrow hvalue =>
    refine ho.forget hk (fun r hr => ?_) fun r hr hns => ?_
    · rcases (hrow.mem r).mp hr with rfl | ⟨hr, -⟩
      · exact hvalue
      · exact ho.range r hr
    · rcases (hrow.mem r).mp hr with rfl | ⟨hr, -⟩
      · exact absurd hrow.hasKey.1 hns
      · exact hr
  | @use ns id now db db' uses hid hns hrec =>
    obtain ⟨hlt, -, hseq, hfiles⟩ := Sql.recordUse_ok hv hrec
    refine ho.use now hk (hid.trans hseq.ge) fun r' hr' => ?_
    rw [hfiles] at hr'
    obtain ⟨r, hr, rfl⟩ := List.mem_map.mp hr'
    by_cases hrid : r.id = id
    · rw [if_pos hrid]
      exact Or.inl ⟨hrid, hns r hr hrid, rfl, hlt r hr hrid⟩
    · rw [if_neg hrid]
      exact Or.inr ⟨hr, hrid⟩
  | delete hsub hseq _ => exact ho.delete hsub hseq
  | forget ns => exact ho.forget hk ho.range fun r hr _ => hr

/-! ## At each moment of a run -/

section Runs

variable {T : Type} {s : System T}

theorem System.Reached.useOrdered (hs : s.Reached Db.empty) : UseOrdered s.logged :=
  (hs.changes Db.valid_empty).1.invariant (P := UseOrdered)
    (fun _ _ hv ho h => h.useOrdered hv ho) Db.valid_empty .empty

/-- Inside the transaction of a write that has stored `done`. With nothing stored, its start. -/
def Inside (e : Engine) (w : World) (db : Db) (done : List Prepared) (t : Tx) : Prop :=
  ∃ t₀ ids, t₀.db = db ∧ StateExcept.forEach (upsertPrepared e w) done t₀ = .ok (ids, t)

theorem System.Reached.inside (hs : s.Reached Db.empty) {e : Engine} {w : World}
    {done : List Prepared} {t : Tx} (ht : Inside e w s.db done t) :
    t.db.Valid ∧ ∀ r ∈ t.db.files, 0 ≤ r.lastUsedUs ∧ r.lastUsedUs < useValueLimit := by
  obtain ⟨t₀, ids, h₀, hdone⟩ := ht
  have hv : s.db.Valid := hs.valid Db.valid_empty
  have hu := upsertAll_ok (h₀.symm ▸ hv) hdone
  rw [h₀] at hu
  have hc : Changes (fun _ => True) s.logged ⟨t.db, _⟩ := hu.changes_newest fun _ _ => trivial
  exact ⟨hu.valid hv, (hc.invariant (P := UseOrdered) (fun _ _ hv ho h => h.useOrdered hv ho) hv
    hs.useOrdered).range⟩

/-- The row is above every other row of its namespace. -/
def StrictlyNewest (db : Db) (r : FileRow) : Prop :=
  r ∈ db.files ∧ ∀ r' ∈ db.files, r'.ns = r.ns → r' ≠ r → r'.lastUsedUs < r.lastUsedUs

theorem strictlyNewest_of_upsert {e : Engine} {w : World} {item : Prepared} {id : ℕ} {t t' : Tx}
    (hv : t.db.Valid) (h : upsertPrepared e w item t = .ok (id, t')) :
    ∃ r, Db.HasKey e.ns item.path r ∧ r.id = id ∧ StrictlyNewest t'.db r := by
  obtain ⟨row, hu, rfl, -, hvalue, -⟩ := upsertInTx_ok hv h
  refine ⟨row, hu.hasKey, rfl, (hu.mem row).mpr (Or.inl rfl), fun r hr hns hne => ?_⟩
  obtain ⟨hr, -⟩ := ((hu.mem r).mp hr).resolve_left hne
  rw [hvalue, ← hu.hasKey.1, ← hns]
  exact Sql.lt_nextUse hr

theorem strictlyNewest_of_recordUse {ns : String} {id now : ℕ} {db db' : Db} (hv : db.Valid)
    (hns : ∀ r ∈ db.files, r.id = id → r.ns = ns) (h : Sql.recordUse now ns id db = .ok db')
    {r : FileRow} (hr : r ∈ db'.files) (hid : r.id = id) : StrictlyNewest db' r := by
  obtain ⟨-, -, -, hfiles⟩ := Sql.recordUse_ok hv h
  refine ⟨hr, fun r' hr' hns' hne => ?_⟩
  rw [hfiles] at hr hr'
  obtain ⟨q, hq, rfl⟩ := List.mem_map.mp hr
  obtain ⟨q', hq', rfl⟩ := List.mem_map.mp hr'
  have hqid : q.id = id := by
    split_ifs at hid <;> exact hid
  have hqid' : q'.id ≠ id := by
    intro heq
    rw [hv.eq_of_id hq hq' (hqid.trans heq.symm)] at hne
    exact hne rfl
  rw [if_pos hqid, if_neg hqid'] at hns' ⊢
  rw [hns q hq hqid] at hns'
  rw [← hns']
  exact Sql.lt_nextUse hq'

end Runs

/-! ## The refusal at the limit -/

section Refusal

variable {T : Type} {e : Engine} {w : World} {db : Db}

/-- The error of a refused use, unless the world fails a statement of its call. -/
def Exhausted (w : World) (err : Error) : Prop := (∀ n, w.fault n = none) → err = useError .check

/-- A call refused for want of use values : an error and the database as it was. -/
def Refused {α : Type} (w : World) (db : Db) (o : Outcome α) : Prop :=
  ∃ err, o = .ofError err db ∧ Exhausted w err

theorem execute_of_check (run : ℕ → Db → Except SqlError Db) (t : Tx)
    (h : ∀ gap, run gap t.db = .error .check) :
    ∃ err, execute w useError run t = .error err ∧ Exhausted w err := by
  unfold execute statement
  cases hfault : w.fault t.statements with
  | some text =>
    refine ⟨_, rfl, fun hnone => ?_⟩
    rw [hnone] at hfault
    exact absurd hfault (by simp)
  | none =>
    simp only [h]
    exact ⟨_, rfl, fun _ => rfl⟩

theorem upsertPrepared_of_limit (item : Prepared) {t : Tx}
    (h : useValueLimit ≤ Sql.nextUse (w.nowUs t.readings) t.db e.ns) :
    ∃ err, upsertPrepared e w item t = .error err ∧ Exhausted w err := by
  unfold upsertPrepared upsertInTx
  obtain ⟨err, herr, hex⟩ := execute_of_check (w := w) (fun gap db =>
    Sql.upsertFile gap e.ns item.path ⟨item.metadata, w.nowSecs t.readings, e.payloadVersion,
      Sql.nextUse (w.nowUs t.readings) db e.ns⟩ db) { t with readings := t.readings + 1 }
    fun gap => if_pos h
  exact ⟨err, (StateExcept.bind_of_ok rfl).trans ((StateExcept.bind_of_ok rfl).trans
    (StateExcept.bind_of_error herr)), hex⟩

theorem transaction_of_error {α : Type} (db : Db) (body : TxM α)
    (h : ∃ err, body ⟨db, 1, 0⟩ = .error err ∧ Exhausted w err) :
    ∃ err, transaction w body db = (.error err, db) ∧ Exhausted w err := by
  obtain ⟨err, herr, hex⟩ := h
  unfold transaction
  cases hfault : w.fault 0 with
  | some text =>
    have hbegin : select w (fun _ => ()) ⟨db, 0, 0⟩ = .error (databaseError (.other text)) := by
      simp [select, statement, hfault]
    simp only [StateExcept.bind_of_error hbegin]
    refine ⟨_, rfl, fun hnone => ?_⟩
    rw [hnone] at hfault
    exact absurd hfault (by simp)
  | none =>
    have hbegin : select w (fun _ => ()) ⟨db, 0, 0⟩ = .ok ((), ⟨db, 1, 0⟩) := by
      simp [select, statement, hfault]
    simp only [StateExcept.bind_of_ok hbegin, StateExcept.bind_of_error herr]
    exact ⟨err, rfl, hex⟩

theorem refused_boundedWrite {α : Type} {write : TxM (α × List ℕ)}
    (h : ∃ err, write ⟨db, 1, 0⟩ = .error err ∧ Exhausted w err) :
    Refused w db (boundedWrite e w write db) := by
  obtain ⟨err, herr, hex⟩ := h
  obtain ⟨err', hrun, hex'⟩ := transaction_of_error (w := w) db (do
    let written ← write
    let evicted ← enforceMaxEntries e w written.2
    pure (written, evicted)) ⟨err, StateExcept.bind_of_error herr, hex⟩
  refine ⟨err', ?_, hex'⟩
  simp only [boundedWrite, hrun]

theorem refused_set {src : Sources T} {path canonical : Path} {pathStr : String}
    {metadata : FileMetadata} {payload : T} {encoded : Encoded} (hro : e.readOnly = false)
    (hocc : occupy src path = .ok (canonical, pathStr, metadata))
    (henc : src.encode pathStr payload = .ok encoded)
    (h : useValueLimit ≤ Sql.nextUse (w.nowUs 0) db e.ns) :
    Refused w db (set e src w path payload db) := by
  unfold set
  rw [hro, hocc]
  simp only [henc]
  refine refused_boundedWrite ?_
  obtain ⟨err, herr, hex⟩ := upsertPrepared_of_limit (e := e) (w := w) (t := ⟨db, 1, 0⟩)
    ⟨pathStr, metadata, encoded⟩ h
  exact ⟨err, StateExcept.bind_of_error herr, hex⟩

/-- One item at the limit refuses the whole batch. -/
theorem refused_batchSet {src : Sources T} {items : List (Path × T)} {done rest : List Prepared}
    {item : Prepared} {ids : List ℕ} {t : Tx} (hro : e.readOnly = false)
    (hcheck : checkDistinct e "items" "paths"
      ((batchOccupying src items).map Occupying.pathStr) = .ok ())
    (hitems : batchPrepared src items = done ++ item :: rest)
    (hdone : StateExcept.forEach (upsertPrepared e w) done ⟨db, 1, 0⟩ = .ok (ids, t))
    (h : useValueLimit ≤ Sql.nextUse (w.nowUs t.readings) t.db e.ns) :
    Refused w db (batchSet e src w items db) := by
  unfold batchSet
  rw [hro, hcheck]
  refine refused_boundedWrite ?_
  obtain ⟨err, herr, hex⟩ := upsertPrepared_of_limit (e := e) (w := w) item h
  refine ⟨err, StateExcept.bind_of_error ?_, hex⟩
  rw [hitems]
  exact StateExcept.forEach_of_error hdone herr

theorem recordUse_of_limit {id : ℕ} (hrow : ∃ r ∈ db.files, r.id = id)
    (h : useValueLimit ≤ Sql.nextUse (w.nowUs 0) db e.ns) :
    ∃ err, autocommit (recordUse w e.ns id) db = (.error err, db) ∧ Exhausted w err := by
  obtain ⟨err, herr, hex⟩ := execute_of_check (w := w) (fun _ =>
    Sql.recordUse (w.nowUs 0) e.ns id) ⟨db, 0, 1⟩ fun gap => if_pos ⟨h, by simpa using hrow⟩
  have hrun : recordUse w e.ns id ⟨db, 0, 0⟩ = .error err := (StateExcept.bind_of_ok rfl).trans herr
  refine ⟨err, ?_, hex⟩
  unfold autocommit
  rw [hrun]

theorem refused_finishTouch {row : FileRow} (hrow : ∃ r ∈ db.files, r.id = row.id)
    (h : useValueLimit ≤ Sql.nextUse (w.nowUs 0) db e.ns) :
    Refused w db (finishTouch e w row db) := by
  obtain ⟨err, hrun, hex⟩ := recordUse_of_limit hrow h
  exact ⟨err, by simp only [finishTouch, hrun], hex⟩

/-- A read returns its entry all the same. -/
theorem finishRead_of_limit {row : FileRow} (entry : CacheEntry T)
    (hrow : ∃ r ∈ db.files, r.id = row.id)
    (h : useValueLimit ≤ Sql.nextUse (w.nowUs 0) db e.ns) :
    finishRead e w row entry db = ⟨.ok (some entry), db, [], []⟩ := by
  obtain ⟨err, hrun, -⟩ := recordUse_of_limit hrow h
  simp only [finishRead, hrun, ite_self]

end Refusal

/-! ## The use order of runs -/

section Runs

variable {T : Type} {s : System T}

/-- Rows used are ordered for eviction by their last uses. -/
theorem useKey_lt_iff_usedBefore {c : Logged} (ho : UseOrdered c) {a b : FileRow}
    (ha : a ∈ c.db.files) (hb : b ∈ c.db.files) (hns : a.ns = b.ns) (hne : a.id ≠ b.id)
    (hau : (a.ns, a.id) ∈ c.uses) (hbu : (b.ns, b.id) ∈ c.uses) :
    Sql.useKey a < Sql.useKey b ↔ UsedBefore c.uses (a.ns, a.id) (b.ns, b.id) := by
  have hlt : ∀ {a b : FileRow}, a ∈ c.db.files → b ∈ c.db.files → a.ns = b.ns →
      UsedBefore c.uses (a.ns, a.id) (b.ns, b.id) → a.lastUsedUs < b.lastUsedUs := by
    rintro a b ha hb hns ⟨post, hpost, hnot⟩
    rw [List.mem_cons, not_or] at hnot
    exact ho.above _ post hpost b hb rfl a ha hns
      (fun hid => hnot.1 (Prod.ext hns hid)) (hns ▸ hnot.2)
  constructor
  · intro hkey
    rcases usedBefore_or (fun h => hne (Prod.mk.inj h).2) hau hbu with h | h
    · exact h
    · have hba := hlt hb ha hns.symm h
      rcases Prod.Lex.toLex_lt_toLex.mp hkey with hab | ⟨hab, -⟩
      · exact absurd hab (not_lt.mpr hba.le)
      · exact absurd hab hba.ne'
  · intro h
    exact Prod.Lex.toLex_lt_toLex.mpr (Or.inl (hlt ha hb hns h))

/-- After any run on a fresh database, whatever the clocks. Inside a write, values are in
range, one more than the largest is an `i64`, and each item stored is the strictly newest of
its namespace; so is the row of a read or a `touch` that records its use. Rows used since the
last import are ordered for eviction by their last uses. A use at the limit refuses `set`, the
whole of `batch_set` and `touch`, and leaves reads their entry. -/
theorem strictUseOrder_of_reached (hs : s.Reached Db.empty) (w : World) :
    (∀ e done t, Inside e w s.db done t →
      (∀ r ∈ t.db.files, 0 ≤ r.lastUsedUs ∧ r.lastUsedUs < useValueLimit) ∧
      (∀ ns, 0 ≤ Sql.maxUse t.db ns ∧ Sql.maxUse t.db ns + 1 < 2 ^ 63) ∧
      ∀ item id t', upsertPrepared e w item t = .ok (id, t') →
        ∃ r, Db.HasKey e.ns item.path r ∧ r.id = id ∧ StrictlyNewest t'.db r) ∧
    (∀ e row entry, .loaded e row entry ∈ s.readers →
      (finishRead e w row entry s.db).used = [row.id] →
        ∀ r ∈ (finishRead e w row entry s.db).db.files, r.id = row.id →
          StrictlyNewest (finishRead e w row entry s.db).db r) ∧
    (∀ e row, .touching e row ∈ s.readers → (finishTouch e w row s.db).result = .ok true →
        ∀ r ∈ (finishTouch e w row s.db).db.files, r.id = row.id →
          StrictlyNewest (finishTouch e w row s.db).db r) ∧
    (∀ a ∈ s.db.files, ∀ b ∈ s.db.files, a.ns = b.ns → a.id ≠ b.id → (a.ns, a.id) ∈ s.uses →
      (b.ns, b.id) ∈ s.uses →
        (Sql.useKey a < Sql.useKey b ↔ UsedBefore s.uses (a.ns, a.id) (b.ns, b.id))) ∧
    (∀ (e : Engine) (src : Sources T) path payload canonical pathStr metadata encoded,
      e.readOnly = false → occupy src path = .ok (canonical, pathStr, metadata) →
      src.encode pathStr payload = .ok encoded →
      useValueLimit ≤ Sql.nextUse (w.nowUs 0) s.db e.ns →
        Refused w s.db (set e src w path payload s.db)) ∧
    (∀ (e : Engine) (src : Sources T) items done item rest ids t, e.readOnly = false →
      checkDistinct e "items" "paths" ((batchOccupying src items).map Occupying.pathStr) = .ok () →
      batchPrepared src items = done ++ item :: rest →
      StateExcept.forEach (upsertPrepared e w) done ⟨s.db, 1, 0⟩ = .ok (ids, t) →
      useValueLimit ≤ Sql.nextUse (w.nowUs t.readings) t.db e.ns →
        Refused w s.db (batchSet e src w items s.db)) ∧
    ∀ (e : Engine) (row : FileRow), (∃ r ∈ s.db.files, r.id = row.id) →
      useValueLimit ≤ Sql.nextUse (w.nowUs 0) s.db e.ns →
        Refused w s.db (finishTouch e w row s.db) ∧ ∀ entry : CacheEntry T,
          finishRead e w row entry s.db = ⟨.ok (some entry), s.db, [], []⟩ := by
  have hv : s.db.Valid := hs.valid Db.valid_empty
  have hheld := (hs.changes Db.valid_empty).2
  refine ⟨fun e done t ht => ?_, fun e row entry hreader hused r hr hid => ?_,
    fun e row hreader hok r hr hid => ?_,
    fun a ha b hb hns hne hau hbu => useKey_lt_iff_usedBefore hs.useOrdered ha hb hns hne hau hbu,
    fun e src path payload canonical pathStr metadata encoded => refused_set,
    fun e src items done item rest ids t => refused_batchSet,
    fun e row hrow h => ⟨refused_finishTouch hrow h, fun entry => finishRead_of_limit entry hrow h⟩⟩
  · obtain ⟨hvt, hrange⟩ := hs.inside ht
    refine ⟨hrange, fun ns => ⟨Sql.maxUse_nonneg fun r hr => (hrange r hr).1, ?_⟩,
      fun item id t' h => strictlyNewest_of_upsert hvt h⟩
    have hlt : Sql.maxUse t.db ns < useValueLimit :=
      Sql.maxUse_lt (by decide) fun r hr => (hrange r hr).2
    unfold useValueLimit at hlt
    omega
  · have hns := (hheld _ hreader).2
    unfold finishRead at hused hr ⊢
    by_cases hro : e.readOnly
    · rw [if_pos hro] at hused
      exact absurd hused (by simp)
    rw [if_neg hro] at hused hr ⊢
    rcases autocommit_cases (recordUse w e.ns row.id) s.db with ⟨_, t, hrun, hbody⟩ | ⟨err, hrun, -⟩
    · rw [hrun] at hr ⊢
      have hrec := recordUseInTx_ok hbody
      exact strictlyNewest_of_recordUse hv hns hrec hr hid
    · rw [hrun] at hused
      exact absurd hused (by simp)
  · have hns := (hheld _ hreader).2
    unfold finishTouch at hok hr ⊢
    rcases autocommit_cases (recordUse w e.ns row.id) s.db with ⟨_, t, hrun, hbody⟩ | ⟨err, hrun, -⟩
    · rw [hrun] at hr ⊢
      have hrec := recordUseInTx_ok hbody
      exact strictlyNewest_of_recordUse hv hns hrec hr hid
    · rw [hrun] at hok
      exact absurd hok (by simp [Outcome.ofError])

/-- Two writes of a stuck clock, the older touched again : it is the newer for eviction. And
a write under a clock at the end of `i64` is refused. -/
theorem strictUseOrder_of_reached_sample :
    let e := Engine.plain "n" none
    let s : System Unit := (System.init Db.empty).run
      [.write e .quiet (.set .quiet [97] ()), .write e .quiet (.set .quiet [98] ()),
        .touch e .quiet .quiet [97], .finish 0 .quiet]
    let w : World := { World.quiet with nowUs := fun _ => ⟨2 ^ 63 - 1, by decide⟩ }
    s.db.files.map (fun r => (r.path, r.lastUsedUs)) = [("a", 3), ("b", 2)] ∧
      (∀ a ∈ s.db.files, ∀ b ∈ s.db.files, a.ns = b.ns → a.id ≠ b.id → (a.ns, a.id) ∈ s.uses →
        (b.ns, b.id) ∈ s.uses →
          (Sql.useKey a < Sql.useKey b ↔ UsedBefore s.uses (a.ns, a.id) (b.ns, b.id))) ∧
      Refused w s.db (set e .quiet w [99] () s.db) :=
  have hw (w : World) := strictUseOrder_of_reached (T := Unit) ⟨_, rfl⟩ w
  ⟨by decide, (hw .quiet).2.2.2.1, (hw _).2.2.2.2.1 _ _ _ _ [99] "c" ⟨0, 0, none⟩ ⟨[], "bin"⟩ rfl
    (by decide) rfl (by decide)⟩

end Runs

end LocalCache
