import LocalCache.Openers

/-!
# Openers do not disturb each other

Several engines open one database, and every step of each may come between any two steps of another
(`Openers`). If one of them could open the first database alone, all do : each writable opener is
open after at most four steps of its own, and none fails (`opens_of_run`). Openers that preserve
the journal mode leave it as it was, but for the one that creates the database (`journal_of_run`).
-/

namespace LocalCache

namespace Openers

variable {S : Sqlite} {isMemory : Bool} {config : ℕ → StoreConfig} {s s' : Openers} {k : ℕ}
  {db₀ : Database} {wal₀ : Bool}

/-! ## No opener fails because of another -/

/-- Nothing fails from outside at this event. -/
def Quiet : OpenEvent → Prop
  | .advance _ answers => answers = .quiet
  | .write _ => True

/-- The event is a step of the opener. -/
def isOf (k : ℕ) : OpenEvent → Bool
  | .advance j _ => decide (j = k)
  | .write _ => false

/-- How many steps a writable opener took, at most. -/
def rank : OpenPhase → ℕ
  | .closed => 0
  | .preliminary _ => 1
  | .prepared _ _ => 2
  | .initialized _ => 3
  | _ => 4

/-- A version some opener read : that of the first database, or the current one. -/
def VersionRead (db₀ : Database) (s : Openers) (version : ℤ) : Prop :=
  version = db₀.userVersion ∨ version = 6 ∧ s.db.isCurrent = true

/-- The opener is on its way, or open. -/
def Going (db₀ : Database) (s : Openers) (k : ℕ) : Prop :=
  match s.phase k with
  | .closed | .initialized _ | .opened _ => True
  | .preliminary version => VersionRead db₀ s version
  | .prepared version journal => VersionRead db₀ s version ∧ journal ∈ ["delete", "wal"]
  | _ => False

theorem isCurrent_did {ev : OpenEvent} (h : Did S isMemory config s ev s')
    (hcur : s.db.isCurrent = true) : s'.db.isCurrent = true := by
  cases h with
  | writes _ hdb => exact hdb
  | makes _ _ _ hdb _ => exact hdb
  | _ => exact hcur

theorem phase_did_of_not_isOf {ev : OpenEvent} (h : Did S isMemory config s ev s')
    (hne : isOf k ev = false) : s'.phase k = s.phase k := by
  cases ev with
  | write db =>
    cases h with
    | stays _ _ | writes _ _ => rfl
  | advance j answers =>
    have hk : k ≠ j := fun hk => by simp [isOf, hk] at hne
    cases h with
    | stays _ _ => rfl
    | _ => exact phase_goes_of_ne hk _ _

theorem VersionRead.mono {version : ℤ} (h : VersionRead db₀ s version)
    (hcur : s.db.isCurrent = true → s'.db.isCurrent = true) : VersionRead db₀ s' version :=
  h.imp_right fun ⟨hsix, h⟩ => ⟨hsix, hcur h⟩

/-- A step of another opener does not stop this one. -/
theorem Going.of_phase_eq (hg : Going db₀ s k) (hphase : s'.phase k = s.phase k)
    (hcur : s.db.isCurrent = true → s'.db.isCurrent = true) : Going db₀ s' k := by
  unfold Going at hg ⊢
  rw [hphase]
  generalize s.phase k = phase at hg
  cases phase with
  | closed | initialized _ | opened _ => trivial
  | preliminary version => exact hg.mono hcur
  | prepared version journal => exact ⟨hg.1.mono hcur, hg.2⟩
  | misconfigured _ _ _ | reading | failed _ => exact hg

theorem preliminaryVersion_of_ok {faults : Faults} {opening : Opening} {db : Database}
    {outcome : InitializationOutcome} (h : (initializeWithHook S faults opening db).1 = .ok outcome) :
    0 ≤ opening.preliminaryVersion ∧ opening.preliminaryVersion ≤ 6 := by
  by_contra hrange
  have hne : opening.preliminaryVersion ≠ currentVersion := by
    simp only [currentVersion]
    omega
  have hout : opening.preliminaryVersion < 0 ∨ (currentVersion : ℤ) < opening.preliminaryVersion := by
    simp only [currentVersion]
    omega
  unfold initializeWithHook at h
  cases hsteps : initializeSteps S faults opening db 0 with
  | error e =>
    rw [hsteps] at h
    cases h
  | ok result =>
    obtain ⟨⟨outcome', db'⟩, n⟩ := result
    unfold initializeSteps at hsteps
    obtain ⟨_, hsteps⟩ := step_ok hsteps
    rw [if_neg hne, if_pos hout] at hsteps
    obtain ⟨_, hsteps⟩ := StateExcept.then_eq_ok hsteps
    exact absurd hsteps StateExcept.not_fail_eq_ok

section Migrates

variable {outcome₀ : InitializationOutcome}
  (hmigrates : (initializeWithHook S .quiet ⟨db₀.userVersion, isMemory, "delete"⟩ db₀).1 = .ok outcome₀)
include hmigrates

/-- An opener's transaction succeeds : on the first database as it would alone, and on one that
another opener migrated. -/
theorem Sound.initializes_ok (hs : Sound config db₀ s) {opening : Opening}
    (hmemory : opening.isMemory = isMemory) (husable : opening.Usable)
    (hread : VersionRead db₀ s opening.preliminaryVersion) :
    ∃ outcome, (initializeWithHook S .quiet opening s.db).1 = .ok outcome := by
  have hrange := preliminaryVersion_of_ok hmigrates
  by_cases hcur : s.db.isCurrent = true
  · have hopening : 0 ≤ opening.preliminaryVersion ∧ opening.preliminaryVersion ≤ 6 := by
      rcases hread with h | ⟨h, -⟩
      · rw [h]
        exact hrange
      · omega
    exact ⟨_, congrArg Prod.fst
      (initializeWithHook_of_isCurrent S husable hopening.1 hopening.2 hcur)⟩
  · have hfirst : s.db = db₀ := by
      rcases hs.once with ⟨-, hsame | ⟨-, h⟩⟩ | ⟨_, _, -, -, h⟩
      · exact hsame
      · exact absurd h hcur
      · exact absurd h hcur
    have hversion : opening.preliminaryVersion = db₀.userVersion :=
      hread.resolve_right fun h => hcur h.2
    obtain ⟨version, memory, journal⟩ := opening
    obtain rfl : version = db₀.userVersion := hversion
    obtain rfl : memory = isMemory := hmemory
    have hdelete : Opening.Usable ⟨db₀.userVersion, memory, "delete"⟩ := fun _ _ _ => by simp
    refine ⟨outcome₀, ?_⟩
    rw [hfirst, initializeWithHook_journal S husable hdelete]
    exact hmigrates

/-- A step of its own takes the opener on. -/
theorem Going.own (hs : Sound config db₀ s) (hg : Going db₀ s k) (hro : (config k).readOnly = false)
    (h : Did S isMemory config s (.advance k .quiet) s') :
    Going db₀ s' k ∧ min 4 (rank (s.phase k) + 1) ≤ rank (s'.phase k) := by
  have hstart : ∀ {opening : Opening}, Starts isMemory s k opening →
      (∃ outcome, (initializeWithHook S .quiet opening s.db).1 = .ok outcome) ∧
        rank (s.phase k) ≤ 2 := by
    rintro opening ⟨hmemory, ⟨hphase, hnot⟩ | hphase⟩
    · have hread : VersionRead db₀ s opening.preliminaryVersion := by
        rwa [Going, hphase] at hg
      refine ⟨hs.initializes_ok hmigrates hmemory (fun hfile hnonneg hlt => ?_) hread, ?_⟩
      · exact absurd ⟨hmemory ▸ hfile, hnonneg, hlt⟩ hnot
      · simp [hphase, rank]
    · rw [Going, hphase] at hg
      refine ⟨hs.initializes_ok hmigrates hmemory (fun _ _ _ => ?_) hg.1, ?_⟩
      · rcases List.mem_pair.mp hg.2 with h | h <;> simp [h]
      · simp [hphase, rank]
  cases h with
  | stays _ hdone =>
    rcases hdone k .quiet rfl with ⟨outcome, hphase⟩ | hphase | ⟨e, hphase⟩
    · exact ⟨hg, by simp [hphase, rank]⟩
    · simp [Going, hphase] at hg
    · simp [Going, hphase] at hg
  | reads _ hphase hro' _ => simp [hro] at hro'
  | looks _ hphase _ =>
    refine ⟨?_, by simp [hphase, rank]⟩
    rw [Going, phase_goes_self]
    rcases hs.once with ⟨-, hsame | ⟨-, hcur⟩⟩ | ⟨_, _, -, -, hcur⟩
    · exact Or.inl (by rw [hsame])
    · exact Or.inr ⟨Database.userVersion_of_isCurrent hcur, hcur⟩
    · exact Or.inr ⟨Database.userVersion_of_isCurrent hcur, hcur⟩
  | prepares _ hphase _ _ _ =>
    refine ⟨?_, by simp [hphase, rank]⟩
    rw [Going, hphase] at hg
    rw [Going, phase_goes_self]
    exact ⟨hg, by unfold observedJournalMode; split_ifs <;> simp⟩
  | fails _ hstarts hfail =>
    obtain ⟨outcome, hok⟩ := (hstart hstarts).1
    rw [show initializeWithHook S .quiet _ s.db = _ from hfail] at hok
    cases hok
  | finds _ hstarts _ | makes _ hstarts _ _ _ =>
    have hrank : min 4 (rank (s.phase k) + 1) ≤ 3 := by
      have := (hstart hstarts).2
      omega
    refine ⟨by simp [Going], ?_⟩
    simp only [phase_goes_self]
    exact hrank
  | opens _ _ _ => exact ⟨by simp [Going], by simp [rank]⟩
  | sets _ _ _ => exact ⟨by simp [Going], by simp [rank]⟩
  | misses _ _ _ hrefused => exact absurd rfl hrefused
  | reports _ hphase => simp [Going, hphase] at hg

theorem going_run (hro : (config k).readOnly = false) : ∀ (events : List OpenEvent) {s : Openers},
    Sound config db₀ s → Going db₀ s k → (∀ ev ∈ events, Quiet ev) →
      Going db₀ (runFrom (step S isMemory config) s events) k ∧
        min 4 (rank (s.phase k) + events.countP (isOf k)) ≤
          rank ((runFrom (step S isMemory config) s events).phase k)
  | [], s, _, hg, _ => ⟨hg, by simp⟩
  | ev :: events, s, hs, hg, hquiet => by
    have hdid : Did S isMemory config s ev (s.step S isMemory config ev) := did_step s ev
    have hrest := fun ev' hev' => hquiet ev' (List.mem_cons_of_mem _ hev')
    rw [runFrom_cons]
    cases hof : isOf k ev with
    | false =>
      have hphase := phase_did_of_not_isOf hdid hof
      have hg' := hg.of_phase_eq hphase (isCurrent_did hdid)
      obtain ⟨hgoing, hrank⟩ := going_run hro events (hs.did hdid) hg' hrest
      refine ⟨hgoing, ?_⟩
      rwa [List.countP_cons_of_neg (by simp [hof]), ← hphase]
    | true =>
      cases ev with
      | write db => simp [isOf] at hof
      | advance j answers =>
        obtain rfl : k = j := (by simpa [isOf] using hof : j = k).symm
        obtain rfl : answers = .quiet := hquiet _ List.mem_cons_self
        obtain ⟨hg', hone⟩ := hg.own hmigrates hs hro hdid
        obtain ⟨hgoing, hrank⟩ := going_run hro events (hs.did hdid) hg' hrest
        refine ⟨hgoing, le_trans ?_ hrank⟩
        rw [List.countP_cons_of_pos hof]
        omega

/-- If the first database can be opened by one opener alone, every writable opener is open after
at most four steps of its own, however the others interleave and whatever open engines write. -/
theorem opens_of_run (hro : (config k).readOnly = false) (wal₀ : Bool) (events : List OpenEvent)
    (hquiet : ∀ ev ∈ events, Quiet ev) :
    (∀ e, (runFrom (step S isMemory config) (init db₀ wal₀) events).phase k ≠ .failed e) ∧
      (4 ≤ events.countP (isOf k) → ∃ outcome,
        (runFrom (step S isMemory config) (init db₀ wal₀) events).phase k = .opened outcome) := by
  obtain ⟨hgoing, hrank⟩ :=
    going_run hmigrates hro events (sound_init config db₀ wal₀) (by simp [Going, init]) hquiet
  unfold Going at hgoing
  cases hphase : (runFrom (step S isMemory config) (init db₀ wal₀) events).phase k with
  | opened outcome => exact ⟨by simp, fun _ => ⟨outcome, rfl⟩⟩
  | closed | preliminary _ | prepared _ _ | initialized _ =>
    refine ⟨by simp, fun hfour => ?_⟩
    rw [hphase] at hrank
    simp only [init, rank] at hrank
    omega
  | misconfigured _ _ _ | reading | failed _ =>
    rw [hphase] at hgoing
    exact hgoing.elim

end Migrates

theorem opens_of_run_race : ∃ outcome,
    (runFrom (step .exact false twoWriters) (init oldDatabase false) race).phase 1 = .opened outcome := by
  have hmigrates : (initializeWithHook .exact .quiet ⟨oldDatabase.userVersion, false, "delete"⟩
    oldDatabase).1 = .ok ⟨true, false⟩ := by decide +kernel
  have hquiet : ∀ ev ∈ race, Quiet ev := by
    intro ev hev
    simp only [race, List.mem_cons, List.not_mem_nil, or_false] at hev
    rcases hev with rfl | rfl | rfl | rfl | rfl | rfl | rfl | rfl <;> rfl
  have hro : (twoWriters 1).readOnly = false := by decide
  exact (opens_of_run hmigrates hro false race hquiet).2 (by decide)

/-! ## The journal mode -/

/-- Where a read-only opener can be. -/
def ReadsOnly (phase : OpenPhase) : Prop :=
  phase = .closed ∨ phase = .reading ∨ ∃ e, phase = .failed e

theorem readsOnly_did {ev : OpenEvent} (h : Did S isMemory config s ev s')
    (hro : (config k).readOnly = true) (hreads : ReadsOnly (s.phase k)) : ReadsOnly (s'.phase k) := by
  cases hof : isOf k ev with
  | false => rwa [phase_did_of_not_isOf h hof]
  | true =>
    cases ev with
    | write db => simp [isOf] at hof
    | advance j answers =>
      obtain rfl : k = j := (by simpa [isOf] using hof : j = k).symm
      cases h with
      | stays _ _ => exact hreads
      | reads _ _ _ hnew =>
        rw [phase_goes_self]
        exact Or.inr (hnew.imp_left And.left)
      | looks _ _ hwrites => simp [hro] at hwrites
      | fails _ _ _ =>
        rw [phase_goes_self]
        exact Or.inr (Or.inr ⟨_, rfl⟩)
      | reports _ hphase => simp [ReadsOnly, hphase] at hreads
      | prepares _ hphase _ _ _ => simp [ReadsOnly, hphase] at hreads
      | finds _ hstarts _ | makes _ hstarts _ _ _ =>
        rcases hstarts.2 with ⟨hphase, -⟩ | hphase <;> simp [ReadsOnly, hphase] at hreads
      | opens _ hphase _ | sets _ hphase _ | misses _ _ hphase _ =>
        simp [ReadsOnly, hphase] at hreads

/-- The journal mode is the first one, but for a created database, whose creator gave it WAL. -/
structure JournalKept (isMemory : Bool) (config : ℕ → StoreConfig) (db₀ : Database) (wal₀ : Bool)
    (s : Openers) : Prop where
  kept : s.wal = wal₀ ∨ s.wal = true ∧ classify db₀ = .ok .fresh
  created : ∀ k outcome, isMemory = false → s.phase k = .opened outcome →
    outcome.databaseCreated = true → s.wal = true
  readers : ∀ k, (config k).readOnly = true → ReadsOnly (s.phase k)

theorem journalToApply_preserve {created : Bool} {mode : JournalMode}
    (h : journalToApply .preserve created = some mode) : created = true ∧ mode = .wal := by
  cases created with
  | false => simp [journalToApply] at h
  | true => exact ⟨rfl, (Option.some.inj h).symm⟩

theorem opened_of_goes {phase : OpenPhase} {j : ℕ} {outcome : InitializationOutcome}
    (h : (s.goes k phase).phase j = .opened outcome) (hne : ∀ outcome, phase ≠ .opened outcome) :
    s.phase j = .opened outcome := by
  by_cases hjk : j = k
  · rw [hjk, phase_goes_self] at h
    exact absurd h (hne outcome)
  · rwa [phase_goes_of_ne hjk] at h

/-- A step that does not touch the journal opens no creator before its database has WAL. -/
theorem JournalKept.of_wal_eq (hj : JournalKept isMemory config db₀ wal₀ s) (hwal : s'.wal = s.wal)
    (hreaders : ∀ j, (config j).readOnly = true → ReadsOnly (s'.phase j))
    (hnew : ∀ j outcome, isMemory = false → s'.phase j = .opened outcome →
      outcome.databaseCreated = true → s.phase j = .opened outcome ∨ s.wal = true) :
    JournalKept isMemory config db₀ wal₀ s' := by
  refine ⟨hwal ▸ hj.kept, fun j outcome hfile hphase hcreated => ?_, hreaders⟩
  rw [hwal]
  rcases hnew j outcome hfile hphase hcreated with hold | hwal
  · exact hj.created j outcome hfile hold hcreated
  · exact hwal

theorem JournalKept.did (hpreserve : ∀ k, (config k).readOnly = false → (config k).journalMode = .preserve)
    (hj : JournalKept isMemory config db₀ wal₀ s) (hs : Sound config db₀ s) {ev : OpenEvent}
    (h : Did S isMemory config s ev s') : JournalKept isMemory config db₀ wal₀ s' := by
  have hreaders := fun j hro => readsOnly_did h hro (hj.readers j hro)
  have hwrites : ∀ {k outcome}, s.phase k = .initialized outcome → (config k).readOnly = false := by
    intro k outcome hphase
    by_contra hro
    have hreads := hj.readers k (by simpa using hro)
    simp [ReadsOnly, hphase] at hreads
  cases h with
  | stays _ _ => exact hj
  | writes _ _ => exact ⟨hj.kept, hj.created, hreaders⟩
  | reads _ _ _ hnew =>
    refine hj.of_wal_eq rfl hreaders fun j outcome _ hphase _ => Or.inl (opened_of_goes hphase ?_)
    rcases hnew with ⟨rfl, -⟩ | ⟨e, rfl⟩ <;> exact nofun
  | looks _ _ _ | prepares _ _ _ _ _ | fails _ _ _ | finds _ _ _ | misses _ _ _ _ | reports _ _ =>
    exact hj.of_wal_eq rfl hreaders fun j outcome _ hphase _ => Or.inl (opened_of_goes hphase nofun)
  | @makes k answers opening hstarts db _ _ _ =>
    refine hj.of_wal_eq rfl hreaders fun j outcome _ hphase _ => Or.inl ?_
    have hgoes : (s.goes k (.initialized ⟨true, decide (classify s.db = .ok .fresh)⟩)).phase j =
      .opened outcome := hphase
    exact opened_of_goes hgoes nofun
  | @opens k answers outcome hphase hjournal =>
    refine hj.of_wal_eq rfl hreaders fun j outcome' hfile hopened hcreated => ?_
    by_cases hjk : j = k
    · subst hjk
      rw [phase_goes_self] at hopened
      obtain rfl := OpenPhase.opened.inj hopened
      have hmode : journalToApply (config j).journalMode outcome.databaseCreated = some .wal := by
        rw [hpreserve j (hwrites hphase), hcreated]
        rfl
      have hname := hjournal hfile .wal hmode
      refine Or.inr ?_
      by_contra hwal
      simp [observedJournalMode, journalName, hwal] at hname
    · exact Or.inl (by rwa [phase_goes_of_ne hjk] at hopened)
  | @sets k answers outcome mode hphase hmode =>
    rw [hpreserve k (hwrites hphase)] at hmode
    obtain ⟨hcreated, rfl⟩ := journalToApply_preserve hmode
    have hfresh := ((hs.fits k outcome (by rw [hphase]; rfl)).created.mp hcreated).2
    exact ⟨Or.inr ⟨rfl, hfresh⟩, fun _ _ _ _ _ => rfl, hreaders⟩

/-- Openers that preserve the journal mode never change that of a database that existed, also when
they migrate it. One that created the database gives it WAL, or does not open it. -/
theorem journal_of_run (hpreserve : ∀ k, (config k).readOnly = false → (config k).journalMode = .preserve)
    (hs : Reached S isMemory config db₀ wal₀ s) :
    (s.wal = wal₀ ∨ s.wal = true ∧ classify db₀ = .ok .fresh) ∧
      ∀ k outcome, isMemory = false → s.phase k = .opened outcome → outcome.databaseCreated = true →
        s.wal = true := by
  obtain ⟨events, rfl⟩ := hs
  have hinv : Sound config db₀ (runFrom (step S isMemory config) (init db₀ wal₀) events) ∧
      JournalKept isMemory config db₀ wal₀ (runFrom (step S isMemory config) (init db₀ wal₀) events) := by
    refine runFrom_induction (I := fun s => Sound config db₀ s ∧ JournalKept isMemory config db₀ wal₀ s)
      (fun s ev h => ⟨h.1.did (did_step s ev), h.2.did hpreserve h.1 (did_step s ev)⟩) events
      ⟨sound_init config db₀ wal₀,
        ⟨Or.inl rfl, fun _ _ _ h => absurd h (by simp [init]), fun _ _ => Or.inl rfl⟩⟩
  exact ⟨hinv.2.kept, hinv.2.created⟩

theorem journal_of_run_race :
    (runFrom (step .exact false twoWriters) (init ⟨0, .fresh⟩ false) race).wal = true := by
  have hphase : (runFrom (step .exact false twoWriters) (init ⟨0, .fresh⟩ false) race).phase 0 =
      .opened ⟨true, true⟩ := by decide +kernel
  exact (journal_of_run (fun _ _ => rfl) ⟨race, rfl⟩).2 0 _ rfl hphase rfl

end Openers

end LocalCache
