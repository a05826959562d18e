import LocalCache.Writes
import Mathlib.Logic.Relation

/-!
# Runs as changes

Every call changes `files` by `Change`s, one after another : a write, an imported row, a
use, a deletion. An invariant of runs is shown once for each kind of change, not for each
call (`Changes.invariant`). A run is a sequence of changes (`System.changes_run`).
-/

namespace LocalCache

/-- A database with the uses so far : the namespace and the id of each, in order. -/
structure Logged where
  db : Db
  uses : List (String × ℕ)

/-- One change of `files`. Only a write and an import store a path, which is `allowed`. -/
inductive Change (allowed : String → Prop) : Logged → Logged → Prop
  | write {ns path : String} {row : FileRow} {db db' : Db} {uses : List (String × ℕ)}
      (hpath : allowed path) (hrow : Upserted ns path row db db') (hvalue : Newest ns db row) :
      Change allowed ⟨db, uses⟩ ⟨db', uses ++ [(ns, row.id)]⟩
  | importRow {ns path : String} {row : FileRow} {db db' : Db} {uses : List (String × ℕ)}
      (hpath : allowed path) (hrow : Upserted ns path row db db') (hvalue : Imported db row) :
      Change allowed ⟨db, uses⟩ ⟨db', uses.filter fun u => u.1 ≠ ns⟩
  | use {ns : String} {id now : ℕ} {db db' : Db} {uses : List (String × ℕ)}
      (hid : id ≤ db.seq) (hns : ∀ r ∈ db.files, r.id = id → r.ns = ns)
      (hrec : Sql.recordUse now ns id db = .ok db') :
      Change allowed ⟨db, uses⟩ ⟨db', uses ++ [(ns, id)]⟩
  | delete {db db' : Db} {uses : List (String × ℕ)} (hsub : ∀ r ∈ db'.files, r ∈ db.files)
      (hseq : db'.seq = db.seq) (hvalid : db'.Valid) : Change allowed ⟨db, uses⟩ ⟨db', uses⟩
  | forget {db : Db} {uses : List (String × ℕ)} (ns : String) :
      Change allowed ⟨db, uses⟩ ⟨db, uses.filter fun u => u.1 ≠ ns⟩

/-- A sequence of changes. -/
def Changes (allowed : String → Prop) : Logged → Logged → Prop :=
  Relation.ReflTransGen (Change allowed)

/-- What a change keeps of the ids : an id used before is still that of a row of the same
namespace, or of none. -/
structure KeepsIds (db db' : Db) : Prop where
  seq : db.seq ≤ db'.seq
  old : ∀ r' ∈ db'.files, r'.id ≤ db.seq → ∃ r ∈ db.files, r.id = r'.id ∧ r.ns = r'.ns

theorem KeepsIds.trans {db₀ db₁ db₂ : Db} (h : KeepsIds db₀ db₁) (h' : KeepsIds db₁ db₂) :
    KeepsIds db₀ db₂ where
  seq := h.seq.trans h'.seq
  old r₂ hr₂ hid := by
    obtain ⟨r₁, hr₁, hid₁, hns₁⟩ := h'.old r₂ hr₂ (hid.trans h.seq)
    obtain ⟨r₀, hr₀, hid₀, hns₀⟩ := h.old r₁ hr₁ (hid₁.trans_le hid)
    exact ⟨r₀, hr₀, hid₀.trans hid₁, hns₀.trans hns₁⟩

section Changes

variable {allowed : String → Prop} {c c' : Logged}

theorem Upserted.keepsIds {ns path : String} {row : FileRow} {db db' : Db}
    (h : Upserted ns path row db db') : KeepsIds db db' where
  seq := h.seq
  old r' hr' hid := by
    rcases (h.mem r').mp hr' with rfl | ⟨hmem, -⟩
    · rcases h.id with ⟨old, hold, hk, holdid⟩ | ⟨hlt, -⟩
      · exact ⟨old, hold, holdid, hk.1.trans h.hasKey.1.symm⟩
      · exact absurd hid (not_le.mpr hlt)
    · exact ⟨r', hmem, rfl, rfl⟩

theorem Change.keeps (h : Change allowed c c') (hv : c.db.Valid) :
    KeepsIds c.db c'.db ∧ c'.db.Valid := by
  cases h with
  | write _ hrow _ => exact ⟨hrow.keepsIds, hrow.valid⟩
  | importRow _ hrow _ => exact ⟨hrow.keepsIds, hrow.valid⟩
  | use _ _ hrec =>
    obtain ⟨-, hv', hseq, hfiles⟩ := Sql.recordUse_ok hv hrec
    refine ⟨⟨hseq.ge, fun r' hr' _ => ?_⟩, hv'⟩
    rw [hfiles] at hr'
    obtain ⟨r, hr, rfl⟩ := List.mem_map.mp hr'
    refine ⟨r, hr, ?_⟩
    split_ifs <;> exact ⟨rfl, rfl⟩
  | delete hsub hseq hvalid => exact ⟨⟨hseq.ge, fun r hr _ => ⟨r, hsub r hr, rfl, rfl⟩⟩, hvalid⟩
  | forget => exact ⟨⟨le_rfl, fun r hr _ => ⟨r, hr, rfl, rfl⟩⟩, hv⟩

theorem Changes.keeps (h : Changes allowed c c') (hv : c.db.Valid) :
    KeepsIds c.db c'.db ∧ c'.db.Valid := by
  induction h with
  | refl => exact ⟨⟨le_rfl, fun r hr _ => ⟨r, hr, rfl, rfl⟩⟩, hv⟩
  | tail _ step ih =>
    obtain ⟨hkeeps, hv'⟩ := step.keeps ih.2
    exact ⟨ih.1.trans hkeeps, hv'⟩

/-- The rule of changes : an invariant of every change holds after a sequence of them. -/
theorem Changes.invariant {P : Logged → Prop} (step : ∀ c c', c.db.Valid → P c → Change allowed c c' →
    P c') (h : Changes allowed c c') (hv : c.db.Valid) (hc : P c) : P c' := by
  induction h with
  | refl => exact hc
  | tail steps last ih => exact step _ _ (Changes.keeps steps hv).2 ih last

/-! ## A write as changes -/

variable {ns : String} {paths : List String} {ids : List ℕ} {db db' : Db} {uses : List (String × ℕ)}

theorem Upserts.changes_newest (h : Upserts ns (Newest ns) paths ids db db')
    (hp : ∀ path ∈ paths, allowed path) :
    Changes allowed ⟨db, uses⟩ ⟨db', uses ++ ids.map fun id => (ns, id)⟩ := by
  induction h with
  | nil =>
    rw [List.map_nil, List.append_nil]
    exact .refl
  | snoc _ last holds ih =>
    have hinit := ih fun path hpath => hp path (List.mem_append_left _ hpath)
    rw [List.map_append, ← List.append_assoc]
    exact hinit.tail (.write (hp _ (by simp)) last holds)

theorem Upserts.changes_imported (h : Upserts ns Imported paths ids db db')
    (hp : ∀ path ∈ paths, allowed path) :
    Changes allowed ⟨db, uses⟩ ⟨db', uses.filter fun u => u.1 ≠ ns⟩ := by
  induction h with
  | nil => exact .single (.forget ns)
  | snoc _ last holds ih =>
    have hinit := ih fun path hpath => hp path (List.mem_append_left _ hpath)
    have hlast : Changes allowed _ _ := hinit.tail (.importRow (hp _ (by simp)) last holds)
    simpa only [List.filter_filter, Bool.and_self] using hlast

theorem Evicted.change {n : ℕ} {victims : List FileRow} (h : Evicted ns n ids victims db db') :
    Change allowed ⟨db, uses⟩ ⟨db', uses⟩ :=
  .delete (fun r hr => ((h.mem r).mp hr).1) h.seq h.valid

end Changes

section System

variable {T : Type} {allowed : String → Prop}

/-- The paths an event may store. -/
def Event.paths : Event T → List String
  | .write _ _ call => call.paths
  | _ => []

namespace System

def logged (s : System T) : Logged := ⟨s.db, s.uses⟩

/-- Every reader's row has an id of its engine's namespace, or one no row has any more. -/
def Held (s : System T) : Prop :=
  ∀ reader ∈ s.readers, reader.row.id ≤ s.db.seq ∧
    ∀ r ∈ s.db.files, r.id = reader.row.id → r.ns = reader.engine.ns

theorem Held.of_keepsIds {s s' : System T} (h : s.Held) (hk : KeepsIds s.db s'.db)
    (hr : s'.readers ⊆ s.readers) : s'.Held := by
  intro reader hreader
  obtain ⟨hid, hns⟩ := h reader (hr hreader)
  refine ⟨hid.trans hk.seq, fun r' hr' hrid => ?_⟩
  obtain ⟨r, hmem, hrid', hns'⟩ := hk.old r' hr' (hrid.trans_le hid)
  exact hns'.symm.trans (hns r hmem (hrid'.trans hrid))

end System

/-! ## The row a read finds -/

variable {e : Engine} {w : World} {src : Sources T} {path : Path} {db : Db} {row : FileRow}

theorem findFile_ok {key : String} (h : findFile e w key db = .ok (some row)) :
    row ∈ db.files ∧ row.ns = e.ns := by
  unfold findFile at h
  rcases autocommit_cases (select w fun db => db.find? e.ns key) db with
    ⟨a, t, hrun, hbody⟩ | ⟨err, hrun, -⟩
  · rw [hrun] at h
    obtain rfl := Except.ok.inj h
    obtain ⟨hfind, -, -⟩ := select_ok hbody
    have hk := List.find?_some hfind.symm
    exact ⟨List.mem_of_find?_eq_some hfind.symm, (of_decide_eq_true hk).1⟩
  · rw [hrun] at h
    exact absurd h (by simp)

theorem getFind_ok (h : getFind e src w path db = .ok (some row)) :
    row ∈ db.files ∧ row.ns = e.ns := by
  unfold getFind at h
  cases hres : resolvePathKey src path with
  | error err => simp [hres, bind, Except.bind] at h
  | ok resolved =>
    rw [hres] at h
    exact findFile_ok h

theorem getIfFreshFind_ok (h : getIfFreshFind e src w path db = .ok (some row)) :
    row ∈ db.files ∧ row.ns = e.ns := by
  unfold getIfFreshFind at h
  simp only [bind, Except.bind, pure, Except.pure] at h
  cases hres : resolvePathKey src path with
  | error err => simp [hres] at h
  | ok resolved =>
    simp only [hres] at h
    by_cases hpresent : (!resolved.present) = true
    · simp [hpresent] at h
    rw [if_neg hpresent] at h
    cases hfind : findFile e w resolved.key db with
    | error err => simp [hfind] at h
    | ok found =>
      cases found with
      | none => simp [hfind] at h
      | some r =>
        obtain ⟨hr, hns⟩ := findFile_ok hfind
        simp only [hfind] at h
        by_cases hexpired : isExpired (w.nowSecs 0) r.updatedAt e.ttl = true
        · simp [hexpired] at h
        rw [if_neg hexpired] at h
        by_cases hversion : e.payloadVersion > 0 ∧ r.payloadVersion ≠ e.payloadVersion
        · simp [hversion] at h
        rw [if_neg hversion] at h
        split at h
        · exact absurd h (by simp)
        · split at h
          · obtain rfl := Option.some.inj (Except.ok.inj h)
            exact ⟨hr, hns⟩
          · exact absurd h (by simp)
          · exact absurd h (by simp)

theorem touchFind_ok (h : touchFind e src w path db = .ok (some row)) :
    row ∈ db.files ∧ row.ns = e.ns := by
  unfold touchFind at h
  simp only [bind, Except.bind, pure, Except.pure] at h
  by_cases hro : e.readOnly = true
  · simp [hro, throw, throwThe, MonadExceptOf.throw] at h
  rw [if_neg hro] at h
  cases hres : resolvePathKey src path with
  | error err => simp [hres] at h
  | ok resolved =>
    simp only [hres] at h
    by_cases hpresent : (!resolved.present) = true
    · simp [hpresent] at h
    rw [if_neg hpresent] at h
    exact findFile_ok h

/-! ## A step -/

theorem Write.Did.changes {write : Write T} {o : Outcome Unit} (h : write.Did e db o)
    (uses : List (String × ℕ)) (hp : ∀ path ∈ write.paths, allowed path) :
    Changes allowed ⟨db, uses⟩ ⟨o.db, if write.isImport then uses.filter fun u => u.1 ≠ e.ns
      else uses ++ o.used.map fun id => (e.ns, id)⟩ := by
  cases h with
  | wrote written victims _ hwrote _ =>
    have hu := hwrote.upserts
    unfold Write.Stores at hu
    split_ifs at hu ⊢
    · exact (hu.changes_imported hp).tail hwrote.evicted.change
    · exact (hu.changes_newest hp).tail hwrote.evicted.change
  | empty hi _ ho =>
    subst ho
    rw [if_pos hi]
    exact .single (.forget e.ns)
  | failed err ho =>
    subst ho
    split_ifs
    · exact .single (.forget e.ns)
    · rw [Outcome.ofError, List.map_nil, List.append_nil]
      exact .refl

/-- A removal deletes the row of its key, or nothing. -/
theorem remove_cases (e : Engine) (src : Sources T) (w : World) (path : Path) (db : Db) :
    (∃ key b, LocalCache.remove e src w path db =
        ⟨.ok b, Sql.deleteFiles (fun r => decide (Db.HasKey e.ns key r)) db, [], []⟩) ∨
      ∃ err, LocalCache.remove e src w path db = .ofError err db := by
  unfold LocalCache.remove
  by_cases hro : e.readOnly
  · rw [if_pos hro]
    exact Or.inr ⟨_, rfl⟩
  rw [if_neg hro]
  cases resolvePathKey src path with
  | error err => exact Or.inr ⟨err, rfl⟩
  | ok resolved =>
    rcases autocommit_cases (deleteByPath w e.ns resolved.key) db with
      ⟨b, t, hrun, hbody⟩ | ⟨err, hrun, -⟩
    · simp only [hrun, (deleteByPath_ok hbody).2]
      exact Or.inl ⟨resolved.key, b, rfl⟩
    · simp only [hrun]
      exact Or.inr ⟨err, rfl⟩

theorem changes_remove {uses : List (String × ℕ)} (hv : db.Valid) :
    Changes allowed ⟨db, uses⟩ ⟨(LocalCache.remove e src w path db).db,
      uses ++ (LocalCache.remove e src w path db).used.map fun id => (e.ns, id)⟩ := by
  rcases remove_cases e src w path db with
    ⟨key, b, ho⟩ | ⟨err, ho⟩
  · simp only [ho, List.map_nil, List.append_nil]
    exact .single (.delete (fun r hr => (Sql.mem_deleteFiles.mp hr).1) rfl
      (Sql.valid_deleteFiles hv _))
  · simp only [ho, Outcome.ofError, List.map_nil, List.append_nil]
    exact .refl

section Uses

variable {uses : List (String × ℕ)} (hid : row.id ≤ db.seq)
  (hns : ∀ r ∈ db.files, r.id = row.id → r.ns = e.ns)

include hid hns

/-- Recording a use is a use of the row, or no change. -/
theorem changes_recordUse :
    (∃ db', autocommit (recordUse w e.ns row.id) db = (.ok (), db') ∧
        Changes allowed ⟨db, uses⟩ ⟨db', uses ++ [(e.ns, row.id)]⟩) ∨
      ∃ err, autocommit (recordUse w e.ns row.id) db = (.error err, db) := by
  rcases autocommit_cases (recordUse w e.ns row.id) db with
    ⟨_, t, hrun, hbody⟩ | ⟨err, hrun, -⟩
  · have hrec := recordUseInTx_ok hbody
    exact Or.inl ⟨t.db, hrun, .single (.use hid hns hrec)⟩
  · exact Or.inr ⟨err, hrun⟩

theorem changes_finishRead (entry : CacheEntry T) :
    Changes allowed ⟨db, uses⟩ ⟨(finishRead e w row entry db).db,
      uses ++ (finishRead e w row entry db).used.map fun id => (e.ns, id)⟩ := by
  unfold finishRead
  by_cases hro : e.readOnly
  · rw [if_pos hro, List.map_nil, List.append_nil]
    exact .refl
  rw [if_neg hro]
  rcases changes_recordUse (w := w) hid hns with ⟨db', hrun, hc⟩ | ⟨err, hrun⟩
  · rw [hrun]
    exact hc
  · simp only [hrun, List.map_nil, List.append_nil]
    exact .refl

theorem changes_finishTouch :
    Changes allowed ⟨db, uses⟩ ⟨(finishTouch e w row db).db,
      uses ++ (finishTouch e w row db).used.map fun id => (e.ns, id)⟩ := by
  unfold finishTouch
  rcases changes_recordUse (w := w) hid hns with ⟨db', hrun, hc⟩ | ⟨err, hrun⟩
  · rw [hrun]
    exact hc
  · simp only [hrun, Outcome.ofError, List.map_nil, List.append_nil]
    exact .refl

end Uses

namespace System

theorem start_logged (s : System T) (found : Except Error (Option FileRow))
    (reader : FileRow → Reader T) : (s.start found reader).logged = s.logged := by
  unfold start
  split <;> rfl

theorem Held.start {s : System T} (h : s.Held) (hv : s.db.Valid)
    {found : Except Error (Option FileRow)} {reader : FileRow → Reader T}
    (hreader : ∀ row, (reader row).row = row ∧ (reader row).engine = e)
    (hfound : ∀ row, found = .ok (some row) → row ∈ s.db.files ∧ row.ns = e.ns) :
    (s.start found reader).Held := by
  unfold System.start
  split
  · next row =>
    obtain ⟨hrow, hns⟩ := hfound row rfl
    intro reader' hmem
    rcases List.mem_append.mp hmem with hmem | hmem
    · exact h reader' hmem
    · rw [List.mem_singleton.mp hmem, (hreader row).1, (hreader row).2]
      refine ⟨hv.seq row hrow, fun r hr hid => ?_⟩
      rw [hv.eq_of_id hr hrow hid, hns]
  · exact h
  · exact h

/-- A step is a sequence of changes. -/
theorem changes_step (s : System T) (ev : Event T) (hv : s.db.Valid) (hr : s.Held)
    (hp : ∀ path ∈ ev.paths, allowed path) :
    Changes allowed s.logged (s.step ev).logged ∧ (s.step ev).Held := by
  -- what readers hold is kept by the changes, once no reader is new
  have hold : ∀ s' : System T, Changes allowed s.logged s'.logged → s'.readers ⊆ s.readers →
      Changes allowed s.logged s'.logged ∧ s'.Held := fun s' hc hsub =>
    ⟨hc, hr.of_keepsIds (hc.keeps hv).1 hsub⟩
  cases ev with
  | write e w call =>
    have hc := (call.run_cases (e := e) (w := w) hv).changes s.uses hp
    refine hold _ ?_ ?_
    · simp only [step, logged]
      split_ifs with hi
      · rwa [if_pos hi] at hc
      · rwa [if_neg hi] at hc
    · simp only [step]
      split_ifs <;> exact List.Subset.refl _
  | remove e w src path => exact hold _ (changes_remove hv) (List.Subset.refl _)
  | get e w src path =>
    refine ⟨?_, hr.start hv (e := e) (fun _ => ⟨rfl, rfl⟩) fun row hrow => getFind_ok hrow⟩
    rw [step, start_logged]
    exact .refl
  | getIfFresh e w src path =>
    refine ⟨?_, hr.start hv (e := e) (fun _ => ⟨rfl, rfl⟩) fun row hrow => getIfFreshFind_ok hrow⟩
    rw [step, start_logged]
    exact .refl
  | touch e w src path =>
    refine ⟨?_, hr.start hv (e := e) (fun _ => ⟨rfl, rfl⟩) fun row hrow => touchFind_ok hrow⟩
    rw [step, start_logged]
    exact .refl
  | load i w src =>
    simp only [step]
    split
    · next e row hi =>
      split
      · next entry _ =>
        refine ⟨.refl, fun reader hreader => ?_⟩
        rcases List.mem_or_eq_of_mem_set hreader with hmem | rfl
        · exact hr reader hmem
        · exact hr (.found e row) (List.mem_of_getElem? hi)
      · exact hold _ .refl (List.eraseIdx_subset)
      · exact hold _ .refl (List.eraseIdx_subset)
    · exact ⟨.refl, hr⟩
  | finish i w =>
    simp only [step]
    split
    · next e row entry hi =>
      obtain ⟨hid, hns⟩ := hr (.loaded e row entry) (List.mem_of_getElem? hi)
      exact hold _ (changes_finishRead hid hns entry) List.eraseIdx_subset
    · next e row hi =>
      obtain ⟨hid, hns⟩ := hr (.touching e row) (List.mem_of_getElem? hi)
      exact hold _ (changes_finishTouch hid hns) List.eraseIdx_subset
    · exact ⟨.refl, hr⟩

/-- A run from a database is a sequence of changes of it, that store only the paths of the
run's writes. -/
theorem changes_run (hv : db.Valid) : ∀ {s : System T} (events : List (Event T)), s.Held →
    Changes allowed ⟨db, []⟩ s.logged → (∀ ev ∈ events, ∀ path ∈ ev.paths, allowed path) →
      Changes allowed ⟨db, []⟩ (s.run events).logged ∧ (s.run events).Held
  | s, [], hr, hs, _ => ⟨hs, hr⟩
  | s, ev :: events, hr, hs, hp => by
    obtain ⟨hc, hr'⟩ := changes_step s ev (hs.keeps hv).2 hr (hp ev List.mem_cons_self)
    exact changes_run hv (s := s.step ev) events hr' (hs.trans hc)
      fun ev' hev => hp ev' (List.mem_cons_of_mem _ hev)

theorem held_init (db : Db) : (init db : System T).Held := fun _ h => absurd h List.not_mem_nil

/-- A state reached is reached by changes, whatever the paths. -/
theorem Reached.changes {s : System T} (h : s.Reached db) (hv : db.Valid) :
    Changes (fun _ => True) ⟨db, []⟩ s.logged ∧ s.Held := by
  obtain ⟨events, rfl⟩ := h
  exact changes_run hv events (held_init db) .refl fun _ _ _ _ => trivial

theorem Reached.valid {s : System T} (h : s.Reached db) (hv : db.Valid) : s.db.Valid :=
  ((h.changes hv).1.keeps hv).2

end System

end System

end LocalCache
