import LocalCache.Renaming
import LocalCache.Skips

/-!
# Isolation of namespaces

Two runs of the same sessions from the same database : one with all their calls, and one in which
the sessions of some other namespace never step. For a session on `ns` they are the same runs. It
gets the same results, and the rows of `ns` differ at most by their ids (`Sessions.isolated`),
unless the other namespace uses up the row ids (`exhaustedIds_observed`).

The relation of the two runs is `Alike` of their databases, and the same ids renamed in the calls
in progress (`Ongoing.Alike`). A step on `ns` keeps it, call by call. A step on another namespace
changes nothing on `ns`, but it draws ids, so the ids not drawn yet are renamed anew
(`Alike.drawn`).
-/

namespace LocalCache

def CandidateRow.rename (f : ℕ → ℕ) (c : CandidateRow) : CandidateRow := { c with id := f c.id }

def Filling.rename {T : Type} (f : ℕ → ℕ) (g : Filling T) : Filling T :=
  { g with rest := g.rest.map (CandidateRow.rename f) }

def QueryPhase.rename {T : Type} (f : ℕ → ℕ) : QueryPhase T → QueryPhase T
  | .filling g => .filling (g.rename f)
  | phase => phase

/-- A page of a cleanup, without ids and history. -/
def CleanupPage.view (page : CleanupPage) : List FileRow × List (String × ℤ) × Bool :=
  (page.left.map (FileRow.rename fun _ => 0), page.gone.map fun j => (j.path, j.now), page.last)

/-- The same cleanup, up to ids and history. -/
structure Cleaning.Alike (c c' : Cleaning) : Prop where
  kind : c'.kind = c.kind
  size : c'.size = c.size
  cursor : c'.cursor = c.cursor
  removed : c'.removed = c.removed
  page : c'.page.map CleanupPage.view = c.page.map CleanupPage.view

/-- The same call in progress, under renamed ids. -/
inductive Ongoing.Alike {T : Type} (f : ℕ → ℕ) : Ongoing T → Ongoing T → Prop
  | found (row : FileRow) : Alike f (.found row) (.found (row.rename f))
  | loaded (row : FileRow) (entry : CacheEntry T) :
    Alike f (.loaded row entry) (.loaded (row.rename f) entry)
  | touching (row : FileRow) : Alike f (.touching row) (.touching (row.rename f))
  | querying (q : Query) (phase : QueryPhase T) :
    Alike f (.querying q phase) (.querying q (phase.rename f))
  | cleaning {c c' : Cleaning} (h : c.Alike c') : Alike f (.cleaning c) (.cleaning c')

/-- What a caller sees of a response. -/
def Response.seen {T : Type} (resp : Response T) : Except Error (Reply T) × List String :=
  (resp.result, resp.evicted)

/-- How two parts go on alike. -/
inductive NextAlike {T : Type} (f : ℕ → ℕ) :
    Ongoing T ⊕ List (Response T) → Ongoing T ⊕ List (Response T) → Prop
  | goesOn {o o' : Ongoing T} (h : o.Alike f o') : NextAlike f (.inl o) (.inl o')
  | returned {rs rs' : List (Response T)} (h : rs'.map Response.seen = rs.map Response.seen) :
    NextAlike f (.inr rs) (.inr rs')

/-- How two runs of the same part ended : alike, or the ids were used up in the second. -/
inductive Part.Follows {T : Type} (ns : String) (f : ℕ → ℕ) (p p' : Part T) : Prop
  | exhausted (resp : Response T) (mem : resp ∈ p'.next.getRight?.getD []) (e : Error)
    (ids : e.IdsExhausted) (result : resp.result = .error e)
  | alike (db : LocalCache.Alike ns f p.db p'.db) (key : p'.key = p.key)
    (next : NextAlike f p.next p'.next)

/-- How two runs of a call that is one part ended. -/
def Outcome.Follows (ns : String) (f : ℕ → ℕ) {α : Type} (o o' : Outcome α) : Prop :=
  (∃ e : Error, e.IdsExhausted ∧ o'.result = .error e) ∨
    (o'.result = o.result ∧ o'.evicted = o.evicted ∧ Alike ns f o.db o'.db)

section Parts

variable {T : Type} {e : Engine} {f : ℕ → ℕ} {db db' : Db} {env : Env T} {host : Host T}
  {w : World} {src : Sources T}

theorem Part.follows_ofOutcome {α : Type} {ns : String} {reply : α → Reply T}
    (row row' : Option FileRow) {o o' : Outcome α} (h : o.Follows ns f o') :
    (Part.ofOutcome e reply row o).Follows ns f (Part.ofOutcome e reply row' o') := by
  rcases h with ⟨err, hids, hresult⟩ | ⟨hresult, hevicted, halike⟩
  · refine .exhausted ⟨o'.result.map reply, o'.evicted, row'⟩ List.mem_cons_self err hids ?_
    rw [hresult]
    rfl
  · refine .alike halike rfl (.returned ?_)
    simp only [List.map_cons, List.map_nil, Response.seen, hresult, hevicted]

theorem Part.follows_returned {ns : String} (h : Alike ns f db db')
    (result : Except Error (Reply T)) (row row' : Option FileRow) :
    (Part.returned e db result row).Follows ns f (Part.returned e db' result row') :=
  .alike h rfl (.returned rfl)

theorem Part.follows_goesOn {ns : String} (h : Alike ns f db db') {o o' : Ongoing T}
    (ho : o.Alike f o') : (Part.goesOn e db o).Follows ns f (Part.goesOn e db' o') :=
  .alike h rfl (.goesOn ho)

/-! ## Writes -/

theorem Tied.upsertPrepared {t t' : Tx} (h : Tied e.ns f t t') (item : Prepared) :
    Follows e.ns f f Error.IdsExhausted (upsertPrepared e w item t) (upsertPrepared e w item t') :=
  h.upsertInTx _ _ _ _ _

theorem StoreBody.follows {α : Type} {body : TxM (α × List ℕ)} (hbody : StoreBody e w body)
    {t t' : Tx} (h : Tied e.ns f t t') :
    Follows e.ns f (Prod.map id (List.map f)) Error.IdsExhausted (body t) (body t') := by
  cases hbody with
  | upserts items g =>
    have hloop := Mirrors.forEach (χ := id) (fun item s s' (hs : Tied e.ns f s s') =>
      hs.upsertPrepared (w := w) item) items h
    rw [List.map_id] at hloop
    exact hloop.map fun ids => by simp
  | imports rows g =>
    have hloop := Mirrors.forEach (χ := id) (fun row s s' (hs : Tied e.ns f s s') =>
      hs.importRowInTx (w := w) row) rows h
    rw [List.map_id] at hloop
    exact hloop.map fun ids => by simp

theorem Alike.boundedWrite {α : Type} {body : TxM (α × List ℕ)} (hbody : StoreBody e w body)
    (h : Alike e.ns f db db') :
    (boundedWrite e w body db).Follows e.ns f (boundedWrite e w body db') := by
  have hrun : Ended e.ns f (Prod.map (Prod.map id (List.map f)) id) Error.IdsExhausted
      (LocalCache.transaction w (do
        let written ← body
        let evicted ← enforceMaxEntries e w written.2
        pure (written, evicted)) db)
      (LocalCache.transaction w (do
        let written ← body
        let evicted ← enforceMaxEntries e w written.2
        pure (written, evicted)) db') := by
    refine h.transaction fun t t' _ _ ht => ?_
    refine (hbody.follows ht).bind fun written s s' _ _ hs => ?_
    exact (hs.enforceMaxEntries rfl written.2).map fun evicted => rfl
  unfold LocalCache.boundedWrite
  dsimp only
  generalize LocalCache.transaction w _ db = x at hrun ⊢
  generalize LocalCache.transaction w _ db' = y at hrun ⊢
  obtain ⟨result, d⟩ := x
  obtain ⟨result', d'⟩ := y
  rcases hrun with ⟨err, hids, hresult⟩ | ⟨hresult, halike⟩
  · dsimp only at hresult
    subst hresult
    exact Or.inl ⟨err, hids, rfl⟩
  · dsimp only at hresult
    subst hresult
    rcases result with err | ⟨⟨a, ids⟩, evicted⟩ <;> exact Or.inr ⟨rfl, rfl, halike⟩

theorem Write.follows (write : Write T) (h : Alike e.ns f db db') :
    (write.call e w db).Follows e.ns f (write.call e w db') := by
  rcases write.form (e := e) (w := w) with ⟨result, heq⟩ | ⟨body, hbody, reply, heq⟩
  · rw [heq, heq]
    exact Or.inr ⟨rfl, rfl, h⟩
  · rw [heq, heq]
    rcases h.boundedWrite hbody with ⟨err, hids, hresult⟩ | ⟨hresult, hevicted, halike⟩
    · refine Or.inl ⟨err, hids, ?_⟩
      rw [Outcome.map, hresult]
      rfl
    · refine Or.inr ⟨?_, hevicted, halike⟩
      rw [Outcome.map, Outcome.map, hresult]

/-! ## Deletions and uses -/

theorem Outcome.follows_of_ended {ns : String} {α : Type} {x y : Except Error α × Db}
    (used used' : List ℕ) (h : Ended ns f id (fun _ => False) x y) :
    Outcome.Follows ns f ⟨x.1, x.2, [], used⟩ ⟨y.1, y.2, [], used'⟩ :=
  Or.inr ⟨h.eq_of_never.1, rfl, h.eq_of_never.2⟩

theorem remove_follows (path : Path) (h : Alike e.ns f db db') :
    (remove e src w path db).Follows e.ns f (remove e src w path db') := by
  unfold remove
  split_ifs
  · exact Or.inr ⟨rfl, rfl, h⟩
  cases resolvePathKey src path with
  | error err => exact Or.inr ⟨rfl, rfl, h⟩
  | ok resolved =>
    exact Outcome.follows_of_ended [] [] (h.autocommit ((h.tied 0 0).deleteByPath resolved.key))

theorem Tied.deleteByOtherVersion {ns : String} {t t' : Tx} (h : Tied ns f t t') (current : UInt32) :
    Follows ns f id (fun _ => False) (deleteByOtherVersion w ns current t)
      (deleteByOtherVersion w ns current t') := by
  have hlength : ∀ db : Db,
      (db.files.filter fun r => r.ns = ns ∧ r.payloadVersion ≠ current).length =
        ((db.inNamespace ns).filter fun r => r.payloadVersion ≠ current).length := by
    intro db
    rw [Db.inNamespace, List.filter_filter]
    congr 1
    refine List.filter_congr fun r _ => ?_
    simp [Bool.and_comm]
  refine h.statement fun _ => .of_eq ?_ (h.alike.deleteFiles fun _ _ => rfl)
  rw [hlength, hlength, h.alike.rows, List.filter_map, List.length_map]
  rfl

theorem purgeStaleVersions_follows (h : Alike e.ns f db db') :
    (purgeStaleVersions e w db).Follows e.ns f (purgeStaleVersions e w db') := by
  unfold purgeStaleVersions
  split_ifs
  · exact Or.inr ⟨rfl, rfl, h⟩
  · exact Outcome.follows_of_ended [] [] (h.autocommit ((h.tied 0 0).deleteByOtherVersion _))

theorem recordUse_follows {k : ℕ} (h : Alike e.ns f db db') (hown : db.Owns e.ns k)
    (hown' : db'.Owns e.ns (f k)) :
    (autocommit (recordUse w e.ns (f k)) db').1 = (autocommit (recordUse w e.ns k) db).1 ∧
      Alike e.ns f (autocommit (recordUse w e.ns k) db).2
        (autocommit (recordUse w e.ns (f k)) db').2 :=
  (h.autocommit ((h.tied 0 0).recordUse hown hown')).eq_of_never

theorem finishRead_follows {row : FileRow} (entry : CacheEntry T) (h : Alike e.ns f db db')
    (hown : db.Owns e.ns row.id) (hown' : db'.Owns e.ns (f row.id)) :
    (finishRead e w row entry db).Follows e.ns f (finishRead e w (row.rename f) entry db') := by
  have hrun := recordUse_follows (w := w) h hown hown'
  unfold finishRead
  split_ifs
  · exact Or.inr ⟨rfl, rfl, h⟩
  rw [show (row.rename f).id = f row.id from rfl]
  generalize autocommit (recordUse w e.ns row.id) db = x at hrun ⊢
  generalize autocommit (recordUse w e.ns (f row.id)) db' = y at hrun ⊢
  obtain ⟨result, d⟩ := x
  obtain ⟨result', d'⟩ := y
  obtain ⟨rfl, halike⟩ := hrun
  cases result' <;> exact Or.inr ⟨rfl, rfl, halike⟩

theorem finishTouch_follows {row : FileRow} (h : Alike e.ns f db db')
    (hown : db.Owns e.ns row.id) (hown' : db'.Owns e.ns (f row.id)) :
    (finishTouch e w row db).Follows e.ns f (finishTouch e w (row.rename f) db') := by
  have hrun := recordUse_follows (w := w) h hown hown'
  unfold finishTouch
  rw [show (row.rename f).id = f row.id from rfl]
  generalize autocommit (recordUse w e.ns row.id) db = x at hrun ⊢
  generalize autocommit (recordUse w e.ns (f row.id)) db' = y at hrun ⊢
  obtain ⟨result, d⟩ := x
  obtain ⟨result', d'⟩ := y
  obtain ⟨rfl, halike⟩ := hrun
  cases result' <;> exact Or.inr ⟨rfl, rfl, halike⟩

/-! ## Reads -/

theorem findFile_rename (h : Alike e.ns f db db') (key : String) :
    findFile e w key db' = (findFile e w key db).map (Option.map (FileRow.rename f)) :=
  (h.autocommit ((h.tied 0 0).select (h.find? key))).of_never.1

theorem getFind_rename (h : Alike e.ns f db db') (path : Path) :
    getFind e src w path db' = (getFind e src w path db).map (Option.map (FileRow.rename f)) := by
  unfold getFind
  cases resolvePathKey src path with
  | error err => rfl
  | ok resolved => exact findFile_rename h resolved.key

theorem getIfFreshFind_rename (h : Alike e.ns f db db') (path : Path) :
    getIfFreshFind e src w path db' =
      (getIfFreshFind e src w path db).map (Option.map (FileRow.rename f)) := by
  unfold getIfFreshFind
  simp only [bind, Except.bind, pure, Except.pure]
  cases resolvePathKey src path with
  | error err => rfl
  | ok resolved =>
    dsimp only
    split_ifs
    · rfl
    rw [findFile_rename h]
    rcases findFile e w resolved.key db with err | _ | row
    · rfl
    · rfl
    · -- the checks read no id
      simp only [Except.map, Option.map_some, FileRow.rename]
      split_ifs
      · rfl
      · rfl
      · rcases src.detectChange resolved.path row.metadata with err | _ | _ | _ <;> rfl

theorem touchFind_rename (h : Alike e.ns f db db') (path : Path) :
    touchFind e src w path db' = (touchFind e src w path db).map (Option.map (FileRow.rename f)) := by
  unfold touchFind
  by_cases hro : e.readOnly = true
  · rw [if_pos hro, if_pos hro]
    rfl
  rw [if_neg hro, if_neg hro]
  cases resolvePathKey src path with
  | error err => rfl
  | ok resolved =>
    show (if (!resolved.present) = true then Except.ok none else findFile e w resolved.key db') =
      Except.map _ (if (!resolved.present) = true then Except.ok none else findFile e w resolved.key db)
    split_ifs
    · rfl
    · exact findFile_rename h resolved.key

theorem loadEntry_eq (row : FileRow) (db : Db) : loadEntry src w row db =
    ((autocommit (select w fun db => db.payload? row.id) db).1 >>= fun found =>
      match found with
      | none => pure none
      | some p => do
        let value ← src.decode row.path ⟨p.content, p.encoding⟩
        pure (some ⟨row.path, row.metadata, value⟩)) :=
  rfl

theorem loadEntry_rename {row : FileRow} (h : Alike e.ns f db db') (hown : db.Owns e.ns row.id)
    (hown' : db'.Owns e.ns (f row.id)) :
    loadEntry src w (row.rename f) db' = loadEntry src w row db := by
  have hread : (autocommit (select w fun db => db.payload? (f row.id)) db').1 =
      ((autocommit (select w fun db => db.payload? row.id) db).1).map
        (Option.map (PayloadRow.rename f)) :=
    (h.autocommit ((h.tied 0 0).select (h.payload_of_owns hown hown'))).of_never.1
  rw [loadEntry_eq, loadEntry_eq, show (row.rename f).id = f row.id from rfl, hread]
  rcases (autocommit (select w fun db => db.payload? row.id) db).1 with err | _ | p <;> rfl

/-! ## Queries -/

section Queries

variable {lib : QueryLib T} {q : Query} {filters : PreparedPathFilters}

theorem filteredRows_rename {ns : String} (h : Alike ns f db db') :
    Sql.filteredRows lib ns filters db' =
      (Sql.filteredRows lib ns filters db).map (FileRow.rename f) := by
  rw [Sql.filteredRows, Sql.filteredRows, h.rows, List.filter_map, sortBy_map fun r _ q _ => Iff.rfl]
  rfl

theorem payload_of_filteredRows {ns : String} (h : Alike ns f db db') {r : FileRow}
    (hr : r ∈ Sql.filteredRows lib ns filters db) :
    db'.payload? (f r.id) = (db.payload? r.id).map (PayloadRow.rename f) :=
  h.payload r (Db.mem_inNamespace.mpr (mem_filteredRows hr))

theorem queryCandidates_rename {ns : String} (h : Alike ns f db db') :
    Sql.queryCandidates lib ns filters db' =
      (Sql.queryCandidates lib ns filters db).map (CandidateRow.rename f) := by
  rw [Sql.queryCandidates, Sql.queryCandidates, filteredRows_rename h, List.map_map, List.map_map]
  rfl

theorem queryCandidatesWithPayloads_rename {ns : String} (h : Alike ns f db db') :
    Sql.queryCandidatesWithPayloads lib ns filters db' =
      (Sql.queryCandidatesWithPayloads lib ns filters db).map
        (Prod.map (CandidateRow.rename f) (Option.map (PayloadRow.rename f))) := by
  rw [Sql.queryCandidatesWithPayloads, Sql.queryCandidatesWithPayloads, filteredRows_rename h,
    List.map_map, List.map_map]
  refine List.map_congr_left fun r hr => ?_
  exact Prod.ext rfl (payload_of_filteredRows h hr)

theorem namespaceAllJson_eq {ns : String} (hv : db.Valid) : Sql.namespaceAllJson ns db =
    (db.inNamespace ns).all fun r => (db.payload? r.id).all fun p => p.encoding = "json" := by
  rw [Sql.namespaceAllJson, Bool.eq_iff_iff, Bool.not_eq_true', List.any_eq_false, List.all_eq_true]
  simp only [Option.all_eq_true, decide_eq_true_eq, Bool.and_eq_true, List.any_eq_true, not_and,
    not_not, forall_exists_index, and_imp]
  constructor
  · intro h r hr p hp
    obtain ⟨hmem, hns⟩ := Db.mem_inNamespace.mp hr
    obtain ⟨hpmem, hid⟩ := (Db.payload?_eq_some hv).mp hp
    exact h p hpmem r hmem hid.symm hns
  · intro h p hp r hr hid hns
    exact h r (Db.mem_inNamespace.mpr ⟨hr, hns⟩) p
      ((Db.payload?_eq_some hv).mpr ⟨hp, hid.symm⟩)

theorem namespaceAllJson_rename {ns : String} (h : Alike ns f db db') :
    Sql.namespaceAllJson ns db' = Sql.namespaceAllJson ns db := by
  rw [namespaceAllJson_eq h.valid, namespaceAllJson_eq h.valid', h.rows, List.all_map,
    Bool.eq_iff_iff, List.all_eq_true, List.all_eq_true]
  refine forall₂_congr fun r hr => ?_
  rw [Function.comp_apply, show (r.rename f).id = f r.id from rfl, h.payload r hr]
  cases db.payload? r.id <;> rfl

theorem joinedRows_rename {ns : String} (h : Alike ns f db db') :
    Sql.joinedRows lib ns filters db' =
      (Sql.joinedRows lib ns filters db).map (Prod.map (FileRow.rename f) (PayloadRow.rename f)) := by
  rw [Sql.joinedRows, Sql.joinedRows, filteredRows_rename h, Sql.joinRows, Sql.joinRows,
    List.filterMap_map, List.map_filterMap]
  refine List.filterMap_congr fun r hr => ?_
  rw [Function.comp_apply, show (r.rename f).id = f r.id from rfl, payload_of_filteredRows h hr]
  cases db.payload? r.id <;> rfl

theorem outerWhere_rename (p : PayloadRow) : ∀ whereFields : List WhereField,
    Sql.outerWhere lib (p.rename f) whereFields = Sql.outerWhere lib p whereFields
  | [] => rfl
  | field :: rest => by
    rw [Sql.outerWhere, Sql.outerWhere, outerWhere_rename p rest]
    rfl

theorem pushdownRow_rename (selectFields : List String) (whereFields : List WhereField)
    (row : JoinedRow) :
    Sql.pushdownRow lib selectFields whereFields
        (Prod.map (FileRow.rename f) (PayloadRow.rename f) row) =
      (Sql.pushdownRow lib selectFields whereFields row).map
        (Option.map (Prod.map (CandidateRow.rename f) id)) := by
  rw [Sql.pushdownRow, Sql.pushdownRow, Prod.map_snd, outerWhere_rename]
  cases Sql.outerWhere lib row.2 whereFields with
  | error err => rfl
  | ok passes =>
    cases passes with
    | false => rfl
    | true =>
      have hextract : ∀ fields, Sql.extractFields lib fields (row.2.rename f) =
          Sql.extractFields lib fields row.2 := fun _ => rfl
      simp only [bind, Except.bind, hextract, if_true]
      cases Sql.extractFields lib _ row.2 <;> rfl

theorem queryCandidatesJsonPushdown_rename {ns : String} (h : Alike ns f db db')
    (selectFields : List String) (whereFields : List WhereField) :
    Sql.queryCandidatesJsonPushdown lib ns filters selectFields whereFields db' =
      (Sql.queryCandidatesJsonPushdown lib ns filters selectFields whereFields db).map
        (List.map (Prod.map (CandidateRow.rename f) id)) := by
  rw [queryCandidatesJsonPushdown_eq, queryCandidatesJsonPushdown_eq, joinedRows_rename h,
    mapM_map_eq fun row _ => pushdownRow_rename selectFields whereFields row]
  cases (Sql.joinedRows lib ns filters db).mapM (Sql.pushdownRow lib selectFields whereFields) with
  | error err => rfl
  | ok selected =>
    refine congrArg Except.ok ?_
    rw [List.filterMap_map, List.map_filterMap]
    rfl

def Matched.rename (f : ℕ → ℕ) (m : Matched T) : Matched T := { m with row := m.row.rename f }

theorem decodeCandidate_rename (row : CandidateRow × Option PayloadRow) :
    decodeCandidate lib src q (Prod.map (CandidateRow.rename f) (Option.map (PayloadRow.rename f)) row) =
      (decodeCandidate lib src q row).map (Sum.map id (Matched.rename f)) := by
  obtain ⟨c, _ | p⟩ := row
  · rfl
  · simp only [decodeCandidate, Prod.map, Option.map_some, CandidateRow.rename, PayloadRow.rename]
    cases src.decode c.path ⟨p.content, p.encoding⟩ with
    | error err => rfl
    | ok payload =>
      dsimp only
      split_ifs
      · cases lib.toValue payload <;> rfl
      · rfl

theorem pageOf_map {α β : Type} (g : α → β) (l : List α) :
    pageOf q (l.map g) = (pageOf q l).map g := by
  simp only [pageOf, List.length_map, List.map_take, List.map_drop]

theorem tier3Report_rename (rows : List (CandidateRow × Option PayloadRow)) :
    tier3Report lib src q
      (rows.map (Prod.map (CandidateRow.rename f) (Option.map (PayloadRow.rename f)))) =
        tier3Report lib src q rows := by
  have hdecoded : (rows.map (Prod.map (CandidateRow.rename f) (Option.map (PayloadRow.rename f)))).filterMap
      (decodeCandidate lib src q) =
        (rows.filterMap (decodeCandidate lib src q)).map (Sum.map id (Matched.rename f)) := by
    rw [List.filterMap_map, List.map_filterMap]
    exact List.filterMap_congr fun row _ => decodeCandidate_rename row
  have hright : ∀ l : List (SkippedEntry ⊕ Matched T),
      (l.map (Sum.map id (Matched.rename f))).filterMap Sum.getRight? =
        (l.filterMap Sum.getRight?).map (Matched.rename f) := by
    intro l
    rw [List.filterMap_map, List.map_filterMap]
    refine List.filterMap_congr fun m _ => ?_
    cases m <;> rfl
  have hleft : ∀ l : List (SkippedEntry ⊕ Matched T),
      (l.map (Sum.map id (Matched.rename f))).filterMap Sum.getLeft? = l.filterMap Sum.getLeft? := by
    intro l
    rw [List.filterMap_map]
    refine List.filterMap_congr fun m _ => ?_
    cases m <;> rfl
  have hcmp : ∀ key (a b : Matched T), cmpMatched key (a.rename f) (b.rename f) = cmpMatched key a b := by
    intro key a b
    cases key <;> rfl
  simp only [tier3Report, hdecoded, hright, hleft, List.filter_map, sortByKeys_map fun key _ => hcmp key, pageOf_map,
    List.map_map]
  rfl

theorem finishFilling_rename (g : Filling T) :
    finishFilling q (g.rename f) = (finishFilling q g).map (QueryPhase.rename f) id := by
  unfold finishFilling
  have hiff : ((g.rename f).full q.limit ∨ (g.rename f).rest = []) ↔
      (g.full q.limit ∨ g.rest = []) := or_congr Iff.rfl List.map_eq_nil_iff
  by_cases hdone : g.full q.limit ∨ g.rest = []
  · rw [if_pos hdone, if_pos (hiff.mpr hdone)]
    rfl
  · rw [if_neg hdone, if_neg fun h => hdone (hiff.mp h)]
    rfl

theorem startFilling_rename (fields : List String) (rows : List (CandidateRow × List (Option F64))) :
    (startFilling q fields (rows.map (Prod.map (CandidateRow.rename f) id)) :
      QueryPhase T ⊕ QueryReport T) =
        (startFilling q fields rows).map (QueryPhase.rename f) id := by
  have hcmp : ∀ key (a b : CandidateRow × List (Option F64)),
      cmpCandidate fields key (Prod.map (CandidateRow.rename f) id a)
        (Prod.map (CandidateRow.rename f) id b) = cmpCandidate fields key a b := by
    intro key a b
    cases key <;> rfl
  rw [startFilling, startFilling, ← finishFilling_rename, sortByKeys_map fun key _ => hcmp key, List.map_map]
  congr 1
  rw [Filling.rename, List.map_map]
  rfl

theorem fillWindow_rename {limit : Option ℕ} {payloads payloads' : List PayloadRow} :
    ∀ {cs : List CandidateRow} (g : Filling T),
      (∀ c ∈ cs, payloads'.find? (fun p => p.fileId = f c.id) =
        (payloads.find? fun p => p.fileId = c.id).map (PayloadRow.rename f)) →
      fillWindow src limit payloads' (cs.map (CandidateRow.rename f)) (g.rename f) =
        (fillWindow src limit payloads cs g).rename f
  | [], _, _ => rfl
  | c :: cs, g, h => by
    have hone : fillOne src payloads' (c.rename f) (g.rename f) =
        (fillOne src payloads c g).rename f := by
      unfold fillOne
      rw [show (c.rename f).id = f c.id from rfl, h c List.mem_cons_self]
      cases payloads.find? fun p => p.fileId = c.id with
      | none => rfl
      | some p =>
        simp only [Option.map_some, CandidateRow.rename, PayloadRow.rename]
        cases src.decode c.path ⟨p.content, p.encoding⟩ with
        | error err => rfl
        | ok payload =>
          rw [apply_ite (Filling.rename f)]
          rfl
    rw [List.map_cons, fillWindow, fillWindow, hone]
    by_cases hfull : (fillOne src payloads c g).full limit
    · rw [if_pos hfull, if_pos (show ((fillOne src payloads c g).rename f).full limit from hfull)]
    · rw [if_neg hfull, if_neg (show ¬((fillOne src payloads c g).rename f).full limit from hfull)]
      exact fillWindow_rename _ fun c' hc' => h c' (List.mem_cons_of_mem _ hc')

theorem window_rename (limit : Option ℕ) (g : Filling T) :
    (g.rename f).window limit = (g.window limit).map (CandidateRow.rename f) := by
  have hwant : (g.rename f).want limit = g.want limit := by
    cases limit with
    | none => exact List.length_map _
    | some n => rfl
  rw [Filling.window, Filling.window, hwant]
  exact List.map_take.symm

theorem fill_rename {limit : Option ℕ} {payloads payloads' : List PayloadRow} (g : Filling T)
    (h : ∀ c ∈ g.window limit, payloads'.find? (fun p => p.fileId = f c.id) =
      (payloads.find? fun p => p.fileId = c.id).map (PayloadRow.rename f)) :
    (g.rename f).fill src limit payloads' = (g.fill src limit payloads).rename f := by
  rw [Filling.fill, window_rename, fillWindow_rename g h, List.length_map]
  simp only [Filling.fill, Filling.rename, List.map_drop]

theorem QueryPhase.step_follows {lost : Error → Prop} {phase : QueryPhase T} {t t' : Tx}
    (h : Tied e.ns f t t') (hown : ∀ id ∈ phase.ids, t.db.Owns e.ns id)
    (hown' : ∀ id ∈ phase.ids, t'.db.Owns e.ns (f id)) :
    Follows e.ns f (Sum.map (QueryPhase.rename f) id) lost (phase.step lib src e w q t)
      ((phase.rename f).step lib src e w q t') := by
  cases phase with
  | planning filters selectFields whereFields =>
    refine h.select_map ?_
    rw [namespaceAllJson_rename h.alike]
    rfl
  | planned filters plan =>
    cases plan with
    | tier1 =>
      refine h.select_map ?_
      rw [queryCandidates_rename h.alike, ← startFilling_rename, List.map_map, List.map_map]
      rfl
    | tier2 selectFields whereFields =>
      refine (h.selectOrFail (queryCandidatesJsonPushdown_rename h.alike selectFields whereFields)).map
        fun rows => ?_
      exact startFilling_rename selectFields rows
    | tier3 =>
      refine h.select_map ?_
      rw [queryCandidatesWithPayloads_rename h.alike, tier3Report_rename]
      rfl
  | filling g =>
    refine h.select_map ?_
    rw [← finishFilling_rename]
    refine congrArg (finishFilling q) (fill_rename g fun c hc => ?_)
    have hmem : c.id ∈ (g.window q.limit).map CandidateRow.id := List.mem_map_of_mem hc
    have hmem' : f c.id ∈ ((g.rename f).window q.limit).map CandidateRow.id := by
      rw [window_rename, List.map_map]
      exact List.mem_map_of_mem (f := CandidateRow.id ∘ CandidateRow.rename f) hc
    have hid : c.id ∈ (QueryPhase.filling g).ids := List.mem_map_of_mem (List.mem_of_mem_take hc)
    rw [find?_payloadsForIds hmem, find?_payloadsForIds hmem']
    exact h.alike.payload_of_owns (hown c.id hid) (hown' c.id hid)

end Queries

/-! ## Cleanups -/

theorem CleanupKind.gone_rename (kind : CleanupKind) {row row' : FileRow} {g g' : ℕ → ℕ}
    (h : row'.rename g' = row.rename g) : kind.gone env row' = kind.gone env row := by
  have hpath : (row'.rename g').path = (row.rename g).path := congrArg FileRow.path h
  have hupdated : (row'.rename g').updatedAt = (row.rename g).updatedAt :=
    congrArg FileRow.updatedAt h
  cases kind with
  | missing => exact congrArg (fun path => !env.exists_ path) hpath
  | expired ttl =>
    exact congrArg (fun t => isExpired (env.world.nowSecs 0) t (some ttl)) hupdated

theorem Cleaning.next_follows {c c' : Cleaning} (hc : c.Alike c') (h : LocalCache.Alike e.ns f db db')
    (commits commits' : ℕ) :
    (c.next e env commits db : Part T).Follows e.ns f (c'.next e env commits' db') := by
  obtain ⟨kind, size, cursor, removed, page⟩ := c
  obtain ⟨kind', size', cursor', removed', page'⟩ := c'
  obtain ⟨rfl, rfl, rfl, rfl, hpage⟩ := hc
  rcases page with _ | ⟨_ | ⟨row, left⟩, gone, last⟩
  · -- a page is read
    obtain rfl : page' = none := Option.map_eq_none_iff.mp hpage
    have hread : (autocommit (select env.world (Sql.pathsAfter e.ns cursor' size')) db').1 =
        ((autocommit (select env.world (Sql.pathsAfter e.ns cursor' size')) db).1).map
          (List.map (FileRow.rename f)) :=
      (h.autocommit ((h.tied 0 0).select (h.pathsAfter cursor' size'))).of_never.1
    unfold Cleaning.next
    dsimp only
    rw [hread]
    cases (autocommit (select env.world (Sql.pathsAfter e.ns cursor' size')) db).1 with
    | error err => exact Part.follows_returned h _ _ _
    | ok rows =>
      dsimp only [Except.map]
      rw [List.getLast?_map]
      cases rows.getLast? with
      | none => exact Part.follows_returned h _ _ _
      | some last =>
        refine Part.follows_goesOn h (.cleaning ⟨rfl, rfl, rfl, rfl, ?_⟩)
        simp only [Option.map_some, CleanupPage.view, List.map_map, List.length_map]
        rfl
  · -- the rows gone are deleted
    obtain ⟨⟨left', gone', last'⟩, rfl, hview⟩ := Option.map_eq_some_iff.mp hpage
    obtain ⟨hleft, hrest⟩ := Prod.mk.inj hview
    obtain ⟨hgone, rfl⟩ := Prod.mk.inj hrest
    obtain rfl : left' = [] := List.map_eq_nil_iff.mp hleft
    have hpaths : gone'.map Judged.path = gone.map Judged.path := by
      have hfst := congrArg (List.map Prod.fst) hgone
      rwa [List.map_map, List.map_map] at hfst
    have hempty : gone'.isEmpty = gone.isEmpty := by
      rw [← List.isEmpty_map (f := Judged.path), hpaths, List.isEmpty_map]
    have hdeleted : Ended e.ns f id (fun _ => False)
        (if gone.isEmpty then (.ok 0, db)
          else transaction env.world (deletePathsInTx env.world e.ns (gone.map Judged.path)) db)
        (if gone.isEmpty then (.ok 0, db')
          else transaction env.world (deletePathsInTx env.world e.ns (gone.map Judged.path)) db') := by
      split_ifs
      · exact Or.inr ⟨rfl, h⟩
      · exact h.transaction fun t t' _ _ ht => ht.deletePathsInTx _
    obtain ⟨hresult, halike⟩ := hdeleted.eq_of_never
    unfold Cleaning.next
    dsimp only
    rw [hempty, hpaths]
    generalize (if gone.isEmpty then ((.ok 0 : Except Error ℕ), db)
      else transaction env.world (deletePathsInTx env.world e.ns (gone.map Judged.path)) db) =
        x at hresult halike ⊢
    generalize (if gone.isEmpty then ((.ok 0 : Except Error ℕ), db')
      else transaction env.world (deletePathsInTx env.world e.ns (gone.map Judged.path)) db') =
        y at hresult halike ⊢
    obtain ⟨result, d⟩ := x
    obtain ⟨result', d'⟩ := y
    obtain rfl : result' = result := hresult
    cases result' with
    | error err => exact Part.follows_returned halike _ _ _
    | ok k =>
      dsimp only
      split_ifs
      · exact Part.follows_returned halike _ _ _
      · exact Part.follows_goesOn halike (.cleaning ⟨rfl, rfl, rfl, rfl, rfl⟩)
  · -- a row is judged
    obtain ⟨⟨left', gone', last'⟩, rfl, hview⟩ := Option.map_eq_some_iff.mp hpage
    obtain ⟨hleft, hrest⟩ := Prod.mk.inj hview
    obtain ⟨hgone, rfl⟩ := Prod.mk.inj hrest
    obtain ⟨row', left'', rfl, hrow, hleft'⟩ := List.map_eq_cons_iff.mp hleft
    refine Part.follows_goesOn h (.cleaning ⟨rfl, rfl, rfl, rfl, ?_⟩)
    dsimp only
    rw [kind'.gone_rename hrow]
    simp only [Option.map_some, CleanupPage.view, hleft', Option.some.injEq, Prod.mk.injEq, true_and,
      and_true]
    split_ifs
    · have hpath : (row'.rename fun _ => 0).path = (row.rename fun _ => 0).path :=
        congrArg FileRow.path hrow
      rw [List.map_append, List.map_append, hgone]
      exact congrArg (fun path => _ ++ [(path, env.world.nowSecs 0)]) hpath
    · exact hgone

/-! ## Rotations -/

section Rotation

variable {ft : Features} {A : Aead} {nonces : ℕ → Option Nonce} {maxRows maxBytes : ℕ}
  {old new : Key}

def PayloadPageRow.rename (f : ℕ → ℕ) (row : PayloadPageRow) : PayloadPageRow :=
  { row with fileId := f row.fileId }

/-- How many payloads a rotation has still to read. -/
def payloadsLeft (ns after : String) (db : Db) : ℕ :=
  ((db.inNamespace ns).filter fun r =>
    decide (textKey after < textKey r.path) && (db.payload? r.id).isSome).length

theorem payloadsLeft_rename {ns : String} (h : Alike ns f db db') (after : String) :
    payloadsLeft ns after db' = payloadsLeft ns after db := by
  rw [payloadsLeft, payloadsLeft, h.rows, List.filter_map, List.length_map]
  congr 1
  refine List.filter_congr fun r hr => ?_
  rw [Function.comp_apply, show (r.rename f).id = f r.id from rfl, h.payload r hr, Option.isSome_map]
  rfl

theorem isSome_payload?_iff {id : ℕ} :
    (db.payload? id).isSome = true ↔ id ∈ db.payloads.map PayloadRow.fileId := by
  rw [Db.payload?, List.find?_isSome, List.mem_map]
  simp

theorem payloadsLeft_rekeyed {ns : String} (h : Rekeyed db db') (after : String) :
    payloadsLeft ns after db' = payloadsLeft ns after db := by
  rw [payloadsLeft, payloadsLeft, Db.inNamespace, Db.inNamespace, h.files]
  congr 1
  refine List.filter_congr fun r _ => ?_
  rw [Bool.eq_iff_iff, Bool.and_eq_true, Bool.and_eq_true, isSome_payload?_iff, isSome_payload?_iff,
    h.payloadIds]

theorem payloadsLeft_le (ns : String) (hv : db.Valid) (after : String) :
    payloadsLeft ns after db ≤ db.payloads.length := by
  rw [payloadsLeft, ← List.length_map FileRow.id, ← List.length_map PayloadRow.fileId]
  refine (List.subperm_of_subset ?_ fun id hid => ?_).length_le
  · exact hv.ids.sublist (((List.filter_sublist).trans List.filter_sublist).map _)
  · obtain ⟨r, hr, rfl⟩ := List.mem_map.mp hid
    exact isSome_payload?_iff.mp (Bool.and_eq_true_iff.mp (List.mem_filter.mp hr).2).2

/-- A page makes the payloads left fewer. -/
theorem payloadsLeft_lt {ns after : String} (hv : db.Valid) {last : PayloadPageRow}
    (hlast : last ∈ Sql.payloadsAfter ns after maxRows db) :
    payloadsLeft ns last.path db < payloadsLeft ns after db := by
  have hread := (Sql.limitRows_isPrefix _ _).subset hlast
  rw [mem_sortBy] at hread
  obtain ⟨hjoined, habove⟩ := List.mem_filter.mp hread
  have habove : textKey after < textKey last.path := by simpa using habove
  obtain ⟨r, hr, hjoin⟩ := List.mem_filterMap.mp hjoined
  obtain ⟨p, hp, hid, rfl⟩ := (joinPayload_eq_some hv).mp hjoin
  have hsome : (db.payload? r.id).isSome = true :=
    isSome_payload?_iff.mpr (List.mem_map.mpr ⟨p, hp, hid⟩)
  -- the rows above the new cursor are among those above the old one, without the last
  have hsub : ((db.inNamespace ns).filter fun q =>
      decide (textKey r.path < textKey q.path) && (db.payload? q.id).isSome) =
        ((db.inNamespace ns).filter fun q =>
          decide (textKey after < textKey q.path) && (db.payload? q.id).isSome).filter fun q =>
            decide (textKey r.path < textKey q.path) := by
    rw [List.filter_filter]
    refine List.filter_congr fun q _ => ?_
    by_cases hq : textKey r.path < textKey q.path
    · simp [hq, habove.trans hq]
    · simp [hq]
  rw [payloadsLeft, payloadsLeft, hsub]
  refine List.length_filter_lt_length_iff_exists.mpr ⟨r, List.mem_filter.mpr ⟨hr, ?_⟩, by simp⟩
  rw [hsome, decide_eq_true habove]
  rfl

theorem payloadsAfter_rename {ns : String} (h : Alike ns f db db') (after : String) (limit : ℕ) :
    Sql.payloadsAfter ns after limit db' =
      (Sql.payloadsAfter ns after limit db).map (PayloadPageRow.rename f) := by
  have hjoin : ((db.inNamespace ns).map (FileRow.rename f)).filterMap (Sql.joinPayload db') =
      ((db.inNamespace ns).filterMap (Sql.joinPayload db)).map (PayloadPageRow.rename f) := by
    rw [List.filterMap_map, List.map_filterMap]
    refine List.filterMap_congr fun r hr => ?_
    have hpayload := h.payload r hr
    simp only [Db.payload?] at hpayload
    rw [Function.comp_apply, Sql.joinPayload, Sql.joinPayload,
      show (r.rename f).id = f r.id from rfl, hpayload]
    cases db.payloads.find? fun p => p.fileId = r.id <;> rfl
  rw [Sql.payloadsAfter, Sql.payloadsAfter, h.rows, hjoin, List.filter_map,
    sortBy_map fun r _ q _ => Iff.rfl, Sql.limitRows_map]
  rfl

theorem takePage_rename : ∀ (bytes : ℕ) (rows : List PayloadPageRow),
    takePage maxBytes bytes (rows.map (PayloadPageRow.rename f)) =
      (takePage maxBytes bytes rows).map (PayloadPageRow.rename f)
  | _, [] => rfl
  | bytes, row :: rows => by
    rw [List.map_cons, takePage, takePage]
    simp only [takePage_rename _ rows]
    rw [apply_ite (List.map (PayloadPageRow.rename f))]
    rfl

theorem resealPage_rename : ∀ (n : ℕ) (page : List PayloadPageRow),
    resealPage ft A nonces old new n (page.map (PayloadPageRow.rename f)) =
      (resealPage ft A nonces old new n page).map (List.map (PayloadRow.rename f))
  | _, [] => rfl
  | n, row :: page => by
    rw [List.map_cons, resealPage, resealPage, resealPage_rename (n + 1) page]
    simp only [show (row.rename f).content = row.content from rfl,
      show (row.rename f).encoding = row.encoding from rfl,
      show (row.rename f).path = row.path from rfl]
    cases (reseal ft A (nonces n) row.content row.encoding row.path old new).result with
    | error err => rfl
    | ok resealed => cases resealPage ft A nonces old new (n + 1) page <;> rfl

theorem Tied.loadPayloadPage {t t' : Tx} {lost : Error → Prop} (h : Tied e.ns f t t')
    (after : String) :
    Follows e.ns f (List.map (PayloadPageRow.rename f)) lost
      (loadPayloadPage e w maxRows maxBytes after t)
      (loadPayloadPage e w maxRows maxBytes after t') := by
  refine h.select_map ?_
  rw [payloadsAfter_rename h.alike, takePage_rename]

theorem Tied.updatePayloadContent {ns : String} {t t' : Tx} {lost : Error → Prop}
    (h : Tied ns f t t') (p : PayloadRow) :
    Follows ns f id lost (updatePayloadContent w p t) (updatePayloadContent w (p.rename f) t') :=
  h.execute fun _ => .ok () (h.alike.updatePayload p)

/-- With fuel for every payload left and one page more, the fuel does not show. -/
theorem rotatePages_follows : ∀ (fuel fuel' : ℕ) (after : String) (total : ℕ) {t t' : Tx},
    Tied e.ns f t t' → payloadsLeft e.ns after t.db < fuel → payloadsLeft e.ns after t.db < fuel' →
      Follows e.ns f id (fun _ => False)
        (rotatePages ft A nonces e w maxRows maxBytes old new fuel after total t)
        (rotatePages ft A nonces e w maxRows maxBytes old new fuel' after total t')
  | 0, _, _, _, _, _, _, hfuel, _ => absurd hfuel (Nat.not_lt_zero _)
  | _ + 1, 0, _, _, _, _, _, _, hfuel' => absurd hfuel' (Nat.not_lt_zero _)
  | fuel + 1, fuel' + 1, after, total, t, t', h, hfuel, hfuel' => by
    refine (h.loadPayloadPage after).bind fun page s s' hload _ hs => ?_
    rw [List.getLast?_map]
    cases hlast : page.getLast? with
    | none => exact .pure rfl hs
    | some last =>
      refine (Mirrors.ofExcept (resealPage_rename total page) hs).bind fun updates u u' hpure _ hu => ?_
      have hloop := Mirrors.forEach (fun p v v' hv =>
        (Tied.updatePayloadContent hv p :
          Follows e.ns f id (fun _ => False) (LocalCache.updatePayloadContent w p v) _)) updates hu
      refine hloop.bind fun us v v' hupdate _ hv => ?_
      obtain ⟨-, rfl⟩ := StateExcept.ofExcept_eq_ok hpure
      obtain ⟨rows, hselect, rfl⟩ := StateExcept.map_eq_ok hload
      obtain ⟨rfl, hdb, -⟩ := select_ok hselect
      have hmem := (takePage_isPrefix maxBytes 0 _).subset (List.mem_of_getLast? hlast)
      have hlt := payloadsLeft_lt h.alike.valid hmem
      have hrekeyed : Rekeyed t.db v.db := by
        rw [← hdb]
        exact StateExcept.Moves.forEach (R := RekeysTx) (fun t => Rekeyed.refl t.db)
          (fun _ _ _ => Rekeyed.trans) rekeysTx_updatePayloadContent updates _ _ _ hupdate
      rw [List.length_map]
      refine rotatePages_follows fuel fuel' last.path _ hv ?_ ?_
      · rw [payloadsLeft_rekeyed hrekeyed]
        omega
      · rw [payloadsLeft_rekeyed hrekeyed]
        omega

/-- How two rotations ended. -/
def RotationOutcome.Follows (ns : String) (f : ℕ → ℕ) (o o' : RotationOutcome) : Prop :=
  o'.result = o.result ∧ o'.key = o.key ∧ Alike ns f o.db o'.db

/-- A rotation has fuel enough, whatever the other namespaces store. -/
theorem rotateEncryptionKey_follows (newKey : List UInt8) (h : Alike e.ns f db db') :
    (rotateEncryptionKey ft A nonces e w maxRows maxBytes (db.payloads.length + 1) newKey db = none ∧
      rotateEncryptionKey ft A nonces e w maxRows maxBytes (db'.payloads.length + 1) newKey db' =
        none) ∨
    ∃ o o', rotateEncryptionKey ft A nonces e w maxRows maxBytes (db.payloads.length + 1) newKey db =
        some o ∧
      rotateEncryptionKey ft A nonces e w maxRows maxBytes (db'.payloads.length + 1) newKey db' =
        some o' ∧ o.Follows e.ns f o' := by
  unfold rotateEncryptionKey
  split_ifs
  · exact Or.inr ⟨_, _, rfl, rfl, rfl, rfl, h⟩
  cases e.encryptionKey with
  | none => exact Or.inr ⟨_, _, rfl, rfl, rfl, rfl, h⟩
  | some old =>
    cases Key.fromSlice newKey with
    | none => exact Or.inr ⟨_, _, rfl, rfl, rfl, rfl, h⟩
    | some new =>
      have hrun : Ended e.ns f id (fun _ => False)
          (transaction w (do
            let total ← rotatePages ft A nonces e w maxRows maxBytes old new
              (db.payloads.length + 1) "" 0
            let statements ← statementsSoFar
            pure (total, statements)) db)
          (transaction w (do
            let total ← rotatePages ft A nonces e w maxRows maxBytes old new
              (db'.payloads.length + 1) "" 0
            let statements ← statementsSoFar
            pure (total, statements)) db') := by
        refine h.transaction fun t t' hdb hdb' ht => ?_
        have hfuel := payloadsLeft_le e.ns h.valid ""
        have hfuel' := payloadsLeft_le e.ns h.valid' ""
        rw [payloadsLeft_rename h] at hfuel'
        refine (rotatePages_follows _ _ "" 0 ht (by rw [hdb]; omega) (by rw [hdb]; omega)).bind
          fun total s s' _ _ hs => ?_
        exact .of_eq (by rw [id, id, hs.statements]) hs
      obtain ⟨hresult, halike⟩ := hrun.eq_of_never
      dsimp only
      generalize transaction w _ db = x at hresult halike ⊢
      generalize transaction w _ db' = y at hresult halike ⊢
      obtain ⟨result, d⟩ := x
      obtain ⟨result', d'⟩ := y
      obtain rfl : result' = result := hresult
      rcases result' with err | ⟨_ | total, statements⟩
      · exact Or.inr ⟨_, _, rfl, rfl, rfl, rfl, halike⟩
      · exact Or.inl ⟨rfl, rfl⟩
      · exact Or.inr ⟨_, _, rfl, rfl, rfl, rfl, halike⟩

end Rotation

/-! ## Parts -/

theorem Part.follows_ofFound {ns : String} {none_ : Reply T} {next : FileRow → Ongoing T}
    {found found' : Except Error (Option FileRow)} (h : Alike ns f db db')
    (hfound : found' = found.map (Option.map (FileRow.rename f)))
    (hnext : ∀ row, (next row).Alike f (next (row.rename f))) :
    (Part.ofFound e db none_ next found).Follows ns f (Part.ofFound e db' none_ next found') := by
  subst hfound
  rcases found with err | _ | row
  · exact Part.follows_returned h _ _ _
  · exact Part.follows_returned h _ _ _
  · exact Part.follows_goesOn h (hnext row)

theorem QueryPhase.rename_start {lib : QueryLib T} {q : Query} {phase : QueryPhase T}
    (h : QueryPhase.start lib src e q = .ok phase) : phase.rename f = phase := by
  simp only [QueryPhase.start, bind, Except.bind, pure, Except.pure] at h
  split at h
  · exact absurd h (by simp)
  · obtain rfl := Except.ok.inj h
    split
    · split_ifs <;> rfl
    · rfl

theorem QueryPhase.ids_rename (phase : QueryPhase T) : (phase.rename f).ids = phase.ids.map f := by
  cases phase with
  | filling g => simp only [QueryPhase.rename, QueryPhase.ids, Filling.rename, List.map_map]; rfl
  | _ => rfl

theorem Call.start_follows (call : Call T) (h : Alike e.ns f db db') :
    (call.start e host env db).Follows e.ns f (call.start e host env db') := by
  cases call with
  | write w =>
    rcases Part.follows_ofOutcome (e := e) (f := f) none none (w.follows (w := env.world) h) with
      ⟨resp, mem, err, ids, result⟩ | ⟨halike, key, next⟩
    · exact .exhausted resp mem err ids result
    · exact .alike halike key next
  | remove path => exact Part.follows_ofOutcome none none (remove_follows path h)
  | get path => exact Part.follows_ofFound h (getFind_rename h path) fun row => .found row
  | getIfFresh path => exact Part.follows_ofFound h (getIfFreshFind_rename h path) fun row => .found row
  | touch path => exact Part.follows_ofFound h (touchFind_rename h path) fun row => .touching row
  | query q =>
    rw [Call.start, Call.start]
    cases hstart : QueryPhase.start host.query env.src e q with
    | error err => exact Part.follows_returned h _ _ _
    | ok phase =>
      refine Part.follows_goesOn h ?_
      have hquery := Ongoing.Alike.querying (f := f) q phase
      rwa [QueryPhase.rename_start hstart] at hquery
  | cleanupMissingFiles size =>
    rw [Call.start, Call.start]
    split_ifs
    · exact Part.follows_returned h _ _ _
    · exact Part.follows_goesOn h (.cleaning ⟨rfl, rfl, rfl, rfl, rfl⟩)
  | cleanupExpired size =>
    rw [Call.start, Call.start]
    split_ifs
    · exact Part.follows_returned h _ _ _
    · cases e.ttl with
      | none => exact Part.follows_returned h _ _ _
      | some ttl => exact Part.follows_goesOn h (.cleaning ⟨rfl, rfl, rfl, rfl, rfl⟩)
  | purgeStaleVersions => exact Part.follows_ofOutcome none none (purgeStaleVersions_follows h)
  | rotateEncryptionKey nonces maxRows maxBytes newKey =>
    rw [Call.start, Call.start]
    rcases rotateEncryptionKey_follows newKey h with
      ⟨hnone, hnone'⟩ | ⟨o, o', hsome, hsome', hresult, hkey, halike⟩
    · rw [hnone, hnone']
      exact .alike h rfl (.returned rfl)
    · rw [hsome, hsome']
      refine .alike halike hkey (.returned ?_)
      simp only [List.map_cons, List.map_nil, Response.seen, hresult]

theorem Ongoing.next_follows {ongoing ongoing' : Ongoing T} (hongoing : ongoing.Alike f ongoing')
    (h : LocalCache.Alike e.ns f db db') (hown : ∀ id ∈ ongoing.ids, db.Owns e.ns id)
    (hown' : ∀ id ∈ ongoing'.ids, db'.Owns e.ns id) (commits commits' : ℕ) :
    (ongoing.next e host env commits db).Follows e.ns f
      (ongoing'.next e host env commits' db') := by
  cases hongoing with
  | found row =>
    have hload : loadEntry env.src env.world (row.rename f) db' = loadEntry env.src env.world row db :=
      loadEntry_rename h (hown row.id List.mem_cons_self) (hown' (f row.id) List.mem_cons_self)
    rw [Ongoing.next, Ongoing.next, hload]
    rcases loadEntry env.src env.world row db with err | _ | entry
    · exact Part.follows_returned h _ _ _
    · exact Part.follows_returned h _ _ _
    · exact Part.follows_goesOn h (.loaded row entry)
  | loaded row entry =>
    exact Part.follows_ofOutcome _ _ (finishRead_follows entry h (hown row.id List.mem_cons_self)
      (hown' (f row.id) List.mem_cons_self))
  | touching row =>
    exact Part.follows_ofOutcome _ _ (finishTouch_follows h (hown row.id List.mem_cons_self)
      (hown' (f row.id) List.mem_cons_self))
  | querying q phase =>
    have hids : ∀ id ∈ phase.ids, db'.Owns e.ns (f id) := fun id hid =>
      hown' (f id) (by rw [Ongoing.ids, QueryPhase.ids_rename]; exact List.mem_map_of_mem hid)
    have hstep : Follows e.ns f (Sum.map (QueryPhase.rename f) id) (fun _ => False)
        (phase.step host.query env.src e env.world q ⟨db, 0, 0⟩)
        ((phase.rename f).step host.query env.src e env.world q ⟨db', 0, 0⟩) :=
      QueryPhase.step_follows (h.tied 0 0) hown hids
    have hrun := (h.autocommit hstep).of_never.1
    rw [Ongoing.next, Ongoing.next, hrun]
    rcases (autocommit (phase.step host.query env.src e env.world q) db).1 with err | phase' | report
    · exact Part.follows_returned h _ _ _
    · exact Part.follows_goesOn h (.querying q phase')
    · exact Part.follows_returned h _ _ _
  | cleaning hc => exact Cleaning.next_follows hc h commits commits'

end Parts

/-! ## Ids drawn elsewhere -/

section Drawn

variable {T : Type} {ns ns' : String} {f : ℕ → ℕ} {db db₁ db' db₁' : Db}

/-- The ids up to `n` as before, those above it to the ids above `m`. -/
def redraw (f : ℕ → ℕ) (n m k : ℕ) : ℕ := if k ≤ n then f k else m + (k - n)

theorem redraw_of_le {n m k : ℕ} (h : k ≤ n) : redraw f n m k = f k := if_pos h

theorem Alike.le_seq (h : Alike ns f db db') {k : ℕ} (hk : k ≤ db.seq) : f k ≤ db'.seq := by
  have hlt : f k < f (db.seq + 0 + 1) := h.mono (by omega)
  rw [h.next 0] at hlt
  omega

/-- Another namespace's call in both runs. -/
theorem Alike.frame (h : Alike ns f db db') (hne : ns ≠ ns') (hwithin : Within ns' db db₁)
    (hwithin' : Within ns' db' db₁') (hnext : ∀ k, f (db₁.seq + k + 1) = db₁'.seq + k + 1) :
    Alike ns f db₁ db₁' where
  mono := h.mono
  valid := hwithin.valid
  valid' := hwithin'.valid
  rows := by rw [(hwithin'.others ns hne).rows, (hwithin.others ns hne).rows, h.rows]
  payload r hr := by
    have hold : r ∈ db.inNamespace ns := (hwithin.others ns hne).rows ▸ hr
    have hold' : r.rename f ∈ db'.inNamespace ns := by
      rw [h.rows]
      exact List.mem_map_of_mem hold
    rw [(hwithin.others ns hne).payload r hold, ← h.payload r hold]
    exact (hwithin'.others ns hne).payload _ hold'
  next := hnext

/-- Another namespace's call in the second run only. -/
theorem Alike.drawn (h : Alike ns f db db') (hne : ns ≠ ns') (hwithin : Within ns' db' db₁')
    (hseq : db'.seq ≤ db₁'.seq) : Alike ns (redraw f db.seq db₁'.seq) db db₁' where
  mono a b hab := by
    unfold redraw
    split_ifs with ha hb
    · exact h.mono hab
    · have := h.le_seq ha
      omega
    · omega
    · omega
  valid := h.valid
  valid' := hwithin.valid
  rows := by
    rw [(hwithin.others ns hne).rows, h.rows]
    refine List.map_congr_left fun r hr => ?_
    rw [FileRow.rename, FileRow.rename, redraw_of_le (Db.owns_of_mem h.valid hr).1]
  payload r hr := by
    have hold : r.rename f ∈ db'.inNamespace ns := by
      rw [h.rows]
      exact List.mem_map_of_mem hr
    have heq := redraw_of_le (f := f) (m := db₁'.seq) (Db.owns_of_mem h.valid hr).1
    have hpayload := (hwithin.others ns hne).payload _ hold
    rw [show (r.rename f).id = f r.id from rfl, h.payload r hr] at hpayload
    rw [heq, hpayload]
    cases hp : db.payload? r.id with
    | none => rfl
    | some p =>
      have hid : p.fileId = r.id := ((Db.payload?_eq_some h.valid).mp hp).2
      simp only [Option.map_some, PayloadRow.rename, hid, heq]
  next k := by
    rw [redraw, if_neg (by omega)]
    omega

theorem QueryPhase.rename_congr {g : ℕ → ℕ} {phase : QueryPhase T}
    (h : ∀ id ∈ phase.ids, g id = f id) : phase.rename g = phase.rename f := by
  cases phase with
  | filling fill =>
    have hrest : fill.rest.map (CandidateRow.rename g) = fill.rest.map (CandidateRow.rename f) := by
      refine List.map_congr_left fun c hc => ?_
      rw [CandidateRow.rename, CandidateRow.rename, h c.id (List.mem_map_of_mem hc)]
    simp only [QueryPhase.rename, Filling.rename, hrest]
  | _ => rfl

/-- Only the ids that a call may still use count. -/
theorem Ongoing.Alike.congr {g : ℕ → ℕ} {o o' : Ongoing T} (h : o.Alike f o')
    (hg : ∀ id ∈ o.ids, g id = f id) : o.Alike g o' := by
  have hrow : ∀ row : FileRow, g row.id = f row.id → row.rename f = row.rename g := by
    intro row hid
    rw [FileRow.rename, FileRow.rename, hid]
  cases h with
  | found row => exact hrow row (hg _ List.mem_cons_self) ▸ .found row
  | loaded row entry => exact hrow row (hg _ List.mem_cons_self) ▸ .loaded row entry
  | touching row => exact hrow row (hg _ List.mem_cons_self) ▸ .touching row
  | querying q phase => exact QueryPhase.rename_congr hg ▸ .querying q phase
  | cleaning hc => exact .cleaning hc

end Drawn

/-! ## Runs -/

/-- The ids were used up. -/
def Response.IdsExhausted {T : Type} (resp : Response T) : Prop :=
  ∃ e : Error, e.IdsExhausted ∧ resp.result = .error e

/-- The same session, up to renamed ids. -/
structure Session.Alike {T : Type} (f : ℕ → ℕ) (a b : Session T) : Prop where
  engine : b.engine = a.engine
  call : Option.Rel (Ongoing.Alike f) a.call b.call
  responses : b.responses.map Response.seen = a.responses.map Response.seen

namespace Sessions

variable {T : Type} {host : Host T} {engines : ℕ → Engine} {B : String} {f : ℕ → ℕ}
  {s t : Sessions T} {ev : SessionEvent T}

/-- A run with the calls of `B`, `s`, and one without them, `t`. -/
structure AlikeBut (engines : ℕ → Engine) (B : String) (f : ℕ → ℕ) (s t : Sessions T) : Prop where
  own : s.OwnIds
  own' : t.OwnIds
  ns : ∀ conn, s.ns conn = (engines conn).ns
  db : ∀ A, A ≠ B → LocalCache.Alike A f t.db s.db
  session : ∀ conn, (engines conn).ns ≠ B → (t.session conn).Alike f (s.session conn)

/-- No session outside `B` was told that the ids are used up, as it is also by a full disk. -/
def RoomBut (engines : ℕ → Engine) (B : String) (s : Sessions T) : Prop :=
  ∀ conn, (engines conn).ns ≠ B → ∀ resp ∈ (s.session conn).responses, ¬resp.IdsExhausted

theorem RoomBut.of_step (h : RoomBut engines B (s.step host ev)) : RoomBut engines B s := by
  intro conn hconn resp hresp
  refine h conn hconn resp ?_
  by_cases hne : conn = ev.conn
  · subst hne
    rcases step_cases host s ev with ⟨-, heq⟩ | ⟨part, -, heq⟩
    · rwa [heq]
    · rw [heq, responses_after]
      exact List.mem_append_left _ hresp
  · rwa [session_step_of_ne hne]

theorem seq_step (hv : s.db.Valid) : s.db.seq ≤ (s.step host ev).db.seq := by
  obtain ⟨wrote, -, heffect | ⟨-, -, hrekeyed⟩⟩ := did_step host s ev hv
  · exact heffect.seq
  · exact hrekeyed.seq.ge

/-- Both runs run the same part, or neither runs any. -/
theorem AlikeBut.part (h : AlikeBut engines B f s t) (hB : (engines ev.conn).ns ≠ B) :
    (s.part? host ev = none ∧ t.part? host ev = none) ∨
      ∃ p p', t.part? host ev = some p ∧ s.part? host ev = some p' ∧
        p.Follows (engines ev.conn).ns f p' := by
  have hsession := h.session ev.conn hB
  have hdb := h.db _ hB
  rw [← h.ns ev.conn, Sessions.ns, hsession.engine] at hdb ⊢
  unfold part?
  rw [hsession.engine]
  have hids : ∀ ongoing, (t.session ev.conn).call = some ongoing → ∀ id ∈ ongoing.ids,
      t.db.Owns (t.session ev.conn).engine.ns id := by
    intro ongoing hcall id hid
    exact h.own'.owns ev.conn id (by rwa [ids_of_call hcall])
  have hids' : ∀ ongoing, (s.session ev.conn).call = some ongoing → ∀ id ∈ ongoing.ids,
      s.db.Owns (t.session ev.conn).engine.ns id := by
    intro ongoing hcall id hid
    have hown := h.own.owns ev.conn id (by rwa [ids_of_call hcall])
    rwa [Sessions.ns, hsession.engine] at hown
  have hcalls := hsession.call
  generalize (t.session ev.conn).call = call at hcalls hids ⊢
  generalize (s.session ev.conn).call = call' at hcalls hids' ⊢
  cases hcalls with
  | none =>
    cases ev.action with
    | invoke call => exact Or.inr ⟨_, _, rfl, rfl, Call.start_follows call hdb⟩
    | resume => exact Or.inl ⟨rfl, rfl⟩
  | some hcall =>
    cases ev.action with
    | invoke call => exact Or.inl ⟨rfl, rfl⟩
    | resume => exact Or.inr ⟨_, _, rfl, rfl,
        Ongoing.next_follows hcall hdb (hids _ rfl) (hids' _ rfl) _ _⟩

theorem Session.alike_after {a b : Sessions T} {conn : ℕ} {p p' : Part T}
    (h : (a.session conn).Alike f (b.session conn)) (hkey : p'.key = p.key)
    (hnext : NextAlike f p.next p'.next) :
    ((a.after conn p).session conn).Alike f ((b.after conn p').session conn) := by
  obtain ⟨db, wrote, key, next⟩ := p
  obtain ⟨db', wrote', key', next'⟩ := p'
  refine ⟨?_, ?_, ?_⟩
  · obtain rfl : key' = key := hkey
    simp only [after, Function.update_self, h.engine]
  · rw [call_after, call_after]
    cases hnext with
    | goesOn ho => exact .some ho
    | returned _ => exact .none
  · rw [responses_after, responses_after, List.map_append, List.map_append, h.responses]
    cases hnext with
    | goesOn _ => rfl
    | returned hrs => exact congrArg _ hrs

/-- A step outside `B`, in both runs. -/
theorem AlikeBut.kept (h : AlikeBut engines B f s t) (hroom : RoomBut engines B (s.step host ev))
    (hB : (engines ev.conn).ns ≠ B) :
    AlikeBut engines B f (s.step host ev) (t.step host ev) := by
  have hns : ∀ conn, (s.step host ev).ns conn = (engines conn).ns := fun conn => by
    rw [ns_step, h.ns]
  rcases h.part hB with ⟨hnone', hnone⟩ | ⟨p, p', hp, hp', hfollows⟩
  · have heq : s.step host ev = s := by rw [step, hnone']
    have heq' : t.step host ev = t := by rw [step, hnone]
    rwa [heq, heq']
  have hwithin := h.own'.within host ev
  have hwithin' := h.own.within host ev
  have hown := h.own'.step host ev
  have hown' := h.own.step host ev
  have ht : t.ns ev.conn = (engines ev.conn).ns := by
    rw [← h.ns, Sessions.ns, Sessions.ns, (h.session ev.conn hB).engine]
  have heq : t.step host ev = t.after ev.conn p := by rw [step, hp]
  have heq' : s.step host ev = s.after ev.conn p' := by rw [step, hp']
  rw [h.ns] at hwithin'
  rw [ht] at hwithin
  cases hfollows with
  | exhausted resp mem e ids result =>
    refine absurd ⟨e, ids, result⟩ (hroom ev.conn hB resp ?_)
    rw [heq', responses_after]
    exact List.mem_append_right _ mem
  | alike halike hkey hnext =>
    refine ⟨hown', hown, hns, fun A hA => ?_, fun conn hconn => ?_⟩
    · rw [heq] at hwithin ⊢
      rw [heq'] at hwithin' ⊢
      by_cases hsame : A = (engines ev.conn).ns
      · rw [hsame]
        exact halike
      · exact (h.db A hA).frame hsame hwithin hwithin' halike.next
    · by_cases hsame : conn = ev.conn
      · subst hsame
        rw [heq, heq']
        exact Session.alike_after (h.session _ hconn) hkey hnext
      · rw [session_step_of_ne hsame, session_step_of_ne hsame]
        exact h.session conn hconn

/-- A step of `B`, in the first run only. -/
theorem AlikeBut.dropped (h : AlikeBut engines B f s t) (hB : (engines ev.conn).ns = B) :
    AlikeBut engines B (redraw f t.db.seq (s.step host ev).db.seq) (s.step host ev) t := by
  have hwithin := h.own.within host ev
  rw [h.ns, hB] at hwithin
  refine ⟨h.own.step host ev, h.own', fun conn => by rw [ns_step, h.ns], fun A hA => ?_,
    fun conn hconn => ?_⟩
  · exact (h.db A hA).drawn hA hwithin (seq_step h.own.valid)
  · have hne : conn ≠ ev.conn := fun heq => hconn (heq ▸ hB)
    rw [session_step_of_ne hne]
    obtain ⟨hengine, hcall, hresponses⟩ := h.session conn hconn
    refine ⟨hengine, ?_, hresponses⟩
    have hids : ∀ ongoing, (t.session conn).call = some ongoing → ∀ id ∈ ongoing.ids,
        id ≤ t.db.seq := by
      intro ongoing hsome id hid
      exact (h.own'.owns conn id (by rwa [ids_of_call hsome])).1
    generalize (t.session conn).call = call at hcall hids ⊢
    generalize (s.session conn).call = call' at hcall ⊢
    cases hcall with
    | none => exact .none
    | some ho => exact .some (ho.congr fun id hid => redraw_of_le (hids _ rfl id hid))

theorem alikeBut_init (engines : ℕ → Engine) (B : String) {db : Db} (hv : db.Valid) :
    AlikeBut engines B id (init engines db : Sessions T) (init engines db) := by
  have hrow : FileRow.rename id = id := rfl
  have hpayload : PayloadRow.rename id = id := rfl
  refine ⟨ownIds_init engines hv, ownIds_init engines hv, fun _ => rfl, fun A _ => ?_, fun conn _ => ?_⟩
  · refine ⟨strictMono_id, hv, hv, ?_, fun r _ => ?_, fun _ => rfl⟩
    · rw [hrow, List.map_id]
    · rw [hpayload, Option.map_id]
      rfl
  · exact ⟨rfl, .none, rfl⟩

/-- In every run each step stays within the namespace of its session, and the ids that a call holds
are of this namespace. Erase the calls of the sessions on `B` from a run in which no other session
is told that the row ids are used up. The other sessions get the same results, and the rows of all
other namespaces are the same up to their ids, whose order is kept. -/
theorem isolated (host : Host T) (engines : ℕ → Engine) (B : String) {db : Db} (hv : db.Valid)
    (events : List (SessionEvent T)) :
    let s := runFrom (step host) (init engines db) events
    let t := runFrom (step host) (init engines db)
      (events.filter fun ev => (engines ev.conn).ns ≠ B)
    Along (step host) (fun s ev => Within (s.ns ev.conn) s.db (s.step host ev).db ∧
      ∀ conn, ∀ id ∈ s.ids conn, s.db.Owns (s.ns conn) id) (init engines db) events ∧
    (RoomBut engines B s →
      (∀ conn, (engines conn).ns ≠ B →
        (s.session conn).responses.map Response.seen = (t.session conn).responses.map Response.seen) ∧
      ∃ f : ℕ → ℕ, StrictMono f ∧ ∀ A, A ≠ B →
        s.db.inNamespace A = (t.db.inNamespace A).map (FileRow.rename f) ∧
        ∀ r ∈ t.db.inNamespace A,
          s.db.payload? (f r.id) = (t.db.payload? r.id).map (PayloadRow.rename f)) := by
  intro s t
  have hown : Along (step host) (fun s ev => Within (s.ns ev.conn) s.db (s.step host ev).db ∧
      ∀ conn, ∀ id ∈ s.ids conn, s.db.Owns (s.ns conn) id) (init engines db) events :=
    Along.imp (P := fun _ _ => True) (fun s ev hs _ => hs.step host ev)
      (fun s ev hs _ => ⟨hs.within host ev, hs.owns⟩) (ownIds_init engines hv)
      (Along.of_take fun _ _ => trivial)
  refine ⟨hown, fun hroom => ?_⟩
  have halike : ∃ f, AlikeBut engines B f s t := by
    refine Along.unwinding (P := fun s ev => RoomBut engines B (step host s ev))
      (R := fun s t => ∃ f, AlikeBut engines B f s t) (fun s t ev hst hev hkeep => ?_)
      (fun s t ev hst _ hdrop => ?_) ⟨id, alikeBut_init engines B hv⟩
      (Along.of_end (fun _ _ => RoomBut.of_step) hroom)
    · obtain ⟨f, hst⟩ := hst
      exact ⟨f, hst.kept hev (by simpa using hkeep)⟩
    · obtain ⟨f, hst⟩ := hst
      exact ⟨_, hst.dropped (by simpa using hdrop)⟩
  obtain ⟨f, hst⟩ := halike
  obtain ⟨A₀, hA₀⟩ : ∃ A : String, A ≠ B := by
    by_cases hB : B = ""
    · exact ⟨"a", by rw [hB]; decide⟩
    · exact ⟨"", fun h => hB h.symm⟩
  refine ⟨fun conn hconn => (hst.session conn hconn).responses, f, (hst.db A₀ hA₀).mono, fun A hA => ?_⟩
  exact ⟨(hst.db A hA).rows, (hst.db A hA).payload⟩

end Sessions

/-! ## Two namespaces on one database -/

section TwoNamespaces

/-- The first session is on `a`, all others on `b`. -/
def twoNamespaces : ℕ → Engine := fun conn => .plain (if conn = 0 then "a" else "b") none

def storeAt (conn : ℕ) (path : Path) : SessionEvent (List UInt8) :=
  bytesEvent 1 conn (.invoke (.write (.set (.bytes 1) path [1])))

/-- `a` stores `/a` and reads it, while `b` stores files under the ids in between. -/
def sharedReads : List (SessionEvent (List UInt8)) :=
  [storeAt 1 [47, 98], storeAt 0 [47, 97], storeAt 1 [47, 97],
    bytesEvent 1 0 (.invoke (.get [47, 97])), storeAt 1 [47, 97], bytesEvent 2 0 .resume,
    storeAt 1 [47, 99], bytesEvent 2 0 .resume]

theorem Sessions.isolated_sample :
    let s := runFrom (Sessions.step Host.bytes) (Sessions.init twoNamespaces Db.empty) sharedReads
    let t := runFrom (Sessions.step Host.bytes) (Sessions.init twoNamespaces Db.empty)
      (sharedReads.filter fun ev => (twoNamespaces ev.conn).ns ≠ "b")
    (s.session 0).responses.map Response.seen = (t.session 0).responses.map Response.seen := by
  refine ((Sessions.isolated Host.bytes twoNamespaces "b" Db.valid_empty sharedReads).2 ?_).1 0
    (by decide)
  intro conn hconn resp hresp
  obtain rfl : conn = 0 := by
    by_contra hne
    exact hconn (by simp [twoNamespaces, hne, Engine.plain])
  have hall : (((runFrom (Sessions.step Host.bytes) (Sessions.init twoNamespaces Db.empty)
      sharedReads).session 0).responses.all fun resp => resp.result.toBool) = true := by
    decide +kernel
  rintro ⟨e, -, hresult⟩
  have hok := List.all_eq_true.mp hall resp hresp
  rw [hresult] at hok
  exact Bool.false_ne_true hok

/-- The last id but one is used. -/
def Db.lastId : Db := ⟨[], [], 2 ^ 63 - 2⟩

/-- `b` stores a file before `a` does. -/
def lastIdRace : List (SessionEvent (List UInt8)) := [storeAt 1 [47, 97], storeAt 0 [47, 97]]

/-- All namespaces draw from one sequence of ids. When `b` takes the last one, `a` can store no
file, which it can without the calls of `b`. -/
theorem exhaustedIds_observed :
    Db.lastId.Valid ∧
    (((runFrom (Sessions.step Host.bytes) (Sessions.init twoNamespaces Db.lastId)
      lastIdRace).session 0).responses.map Response.seen ≠
    ((runFrom (Sessions.step Host.bytes) (Sessions.init twoNamespaces Db.lastId)
      (lastIdRace.filter fun ev => (twoNamespaces ev.conn).ns ≠ "b")).session 0).responses.map
        Response.seen) := by
  refine ⟨⟨by simp [Db.lastId], by simp [Db.lastId], by simp [Db.lastId], by simp [Db.lastId],
    by simp [Db.lastId]⟩, fun h => ?_⟩
  have hfull : (((runFrom (Sessions.step Host.bytes) (Sessions.init twoNamespaces Db.lastId)
      lastIdRace).session 0).responses.map fun resp => resp.seen.1.toBool) = [false] := by
    decide +kernel
  have herased : (((runFrom (Sessions.step Host.bytes) (Sessions.init twoNamespaces Db.lastId)
      (lastIdRace.filter fun ev => (twoNamespaces ev.conn).ns ≠ "b")).session 0).responses.map
        fun resp => resp.seen.1.toBool) = [true] := by
    decide +kernel
  have heq := congrArg (List.map fun seen => seen.1.toBool) h
  rw [List.map_map, List.map_map] at heq
  have hbad : [false] = [true] := hfull.symm.trans (heq.trans herased)
  exact absurd hbad (by decide)

end TwoNamespaces

end LocalCache
