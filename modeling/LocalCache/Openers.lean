import LocalCache.Runs
import LocalCache.UseBackfill
import Mathlib.Logic.Function.Basic

/-!
# Opening one database many times

Engines of many threads and processes may open the same database at the same time. An opener reads
the version of the database, looks at the journal if it has to migrate, and only then starts the
transaction that creates, migrates or checks the schema; a writable engine of a file sets its
journal mode at the end. Between these steps the others take theirs, and engines that are open
write. `Openers` is the database and where every opener is.

Whatever the order, the schema is created or migrated at most once, from the database as it was at
first, and only the opener that did says so (`migrates_of_run`), also if it fails afterwards
(`failed_of_run`).
-/

namespace LocalCache

/-! ## The configuration of a connection -/

inductive JournalMode
  | preserve
  | wal
  | delete
  | memory
  deriving DecidableEq, Repr

inductive SynchronousMode
  | off
  | normal
  | full
  | extra
  deriving DecidableEq, Repr

/-- How an engine opens the database. -/
structure StoreConfig where
  readOnly : Bool
  journalMode : JournalMode
  synchronous : SynchronousMode
  deriving DecidableEq, Repr

/-- The journal mode to set, or none to leave the database's alone. -/
def journalToApply : (requested : JournalMode) → (databaseCreated : Bool) → Option JournalMode
  | .preserve, true => some .wal
  | .preserve, false => none
  | explicit, _ => some explicit

def journalName : JournalMode → String
  | .preserve => "preserve"
  | .wal => "wal"
  | .delete => "delete"
  | .memory => "memory"

def synchronousName : SynchronousMode → String
  | .off => "off"
  | .normal => "normal"
  | .full => "full"
  | .extra => "extra"

def configurationError (config : StoreConfig) (schemaMigrationCommitted : Bool)
    (observedSynchronous observedJournal cause : String) : SchemaError :=
  .databaseState ("runtime configuration failed: schema_migration_committed=" ++
    toString schemaMigrationCommitted ++ "; requested_synchronous=" ++
    synchronousName config.synchronous ++ "; observed_synchronous=" ++ observedSynchronous ++
    "; requested_journal_mode=" ++ journalName config.journalMode ++ "; observed_journal_mode=" ++
    observedJournal ++ "; cause=" ++ cause)

/-- The journal mode a connection finds : that of the file, or SQLite's own default. -/
def observedJournalMode (wal : Bool) : String := if wal then "wal" else "delete"

/-- A read-only engine only checks : whether the schema is the current one. -/
def validateReadOnly (faults : Faults) (db : Database) : StepM Bool := do
  sql faults (.ok ())
  sql faults (.ok ())
  let state ← sql faults (classify db)
  match state with
  | .version 6 _ => sql faults (.ok true)
  | _ => pure false

/-! ## The openers -/

inductive OpenError
  | schema (e : SchemaError)
  | schemaNotCurrent
  deriving DecidableEq, Repr

/-- Where an opener is. -/
inductive OpenPhase
  | closed
  | preliminary (version : ℤ)
  | prepared (version : ℤ) (journal : String)
  | initialized (outcome : InitializationOutcome)
  | misconfigured (outcome : InitializationOutcome) (observedSynchronous cause : String)
  | opened (outcome : InitializationOutcome)
  | reading
  | failed (e : OpenError)
  deriving DecidableEq, Repr

/-- What the initialization of a writable opener told, from then until it is open. -/
def OpenPhase.outcome? : OpenPhase → Option InitializationOutcome
  | .initialized outcome | .misconfigured outcome _ _ | .opened outcome => some outcome
  | _ => none

/-- What fails from outside, and what SQLite answers to the settings of the connection. -/
structure OpenAnswers where
  faults : Faults
  setSynchronous : Option String
  observedSynchronous : SynchronousMode → String
  setJournalMode : Option String
  journalGranted : Bool

/-- Nothing fails, and every setting is made : also the change of the journal mode, which SQLite
refuses while another connection is in a transaction. -/
def OpenAnswers.quiet : OpenAnswers := ⟨.quiet, none, synchronousName, none, true⟩

/-- An opener takes its next step, or an open engine writes. -/
inductive OpenEvent
  | advance (opener : ℕ) (answers : OpenAnswers)
  | write (db : Database)

structure Openers where
  db : Database
  wal : Bool
  phase : ℕ → OpenPhase
  migrations : List (ℕ × Database × Database)

/-- The database has the current schema. -/
def Database.isCurrent (db : Database) : Bool :=
  match classify db with
  | .ok (.version 6 _) => true
  | _ => false

namespace Openers

def init (db : Database) (wal : Bool) : Openers := ⟨db, wal, fun _ => .closed, []⟩

def goes (s : Openers) (k : ℕ) (phase : OpenPhase) : Openers :=
  { s with phase := Function.update s.phase k phase }

section Step

variable (S : Sqlite) (isMemory : Bool) (config : ℕ → StoreConfig)

/-- The transaction of a writable opener. -/
def initializes (s : Openers) (k : ℕ) (opening : Opening) (answers : OpenAnswers) : Openers :=
  match initializeWithHook S answers.faults opening s.db with
  | (.ok outcome, db) =>
    { s.goes k (.initialized outcome) with
      db := db
      migrations :=
        if outcome.schemaMigrationCommitted then s.migrations ++ [(k, s.db, db)] else s.migrations }
  | (.error e, db) => { s.goes k (.failed (.schema e)) with db := db }

/-- A new writable opener reads the version; a read-only one checks the schema at once. -/
def begins (s : Openers) (k : ℕ) (answers : OpenAnswers) : Openers :=
  if (config k).readOnly then
    match validateReadOnly answers.faults s.db 0 with
    | .ok (true, _) => s.goes k .reading
    | .ok (false, _) => s.goes k (.failed .schemaNotCurrent)
    | .error e => s.goes k (.failed (.schema e))
  else s.goes k (.preliminary s.db.userVersion)

/-- `set_journal_mode`, and what it is checked against. -/
def setsJournal (s : Openers) (k : ℕ) (outcome : InitializationOutcome) (observed : String)
    (answers : OpenAnswers) (mode : JournalMode) : Openers :=
  match answers.setJournalMode with
  | some cause => s.goes k (.misconfigured outcome observed cause)
  | none =>
    if answers.journalGranted then { s.goes k (.opened outcome) with wal := decide (mode = .wal) }
    else if observedJournalMode s.wal = journalName mode then s.goes k (.opened outcome)
    else s.goes k (.misconfigured outcome observed "journal_mode verification mismatch")

/-- `apply_runtime_configuration`, up to the report of an error. -/
def configures (s : Openers) (k : ℕ) (outcome : InitializationOutcome) (answers : OpenAnswers) :
    Openers :=
  let observed := answers.observedSynchronous (config k).synchronous
  match answers.setSynchronous with
  | some cause => s.goes k (.misconfigured outcome observed cause)
  | none =>
    if observed ≠ synchronousName (config k).synchronous then
      s.goes k (.misconfigured outcome observed "synchronous verification mismatch")
    else
      match journalToApply (config k).journalMode outcome.databaseCreated with
      | none => s.goes k (.opened outcome)
      | some mode => s.setsJournal k outcome observed answers mode

def advances (s : Openers) (k : ℕ) (answers : OpenAnswers) : Openers :=
  match s.phase k with
  | .closed => s.begins config k answers
  | .preliminary version =>
    if isMemory = false ∧ 0 ≤ version ∧ version < currentVersion then
      s.goes k (.prepared version (observedJournalMode s.wal))
    else s.initializes S k ⟨version, isMemory, ""⟩ answers
  | .prepared version journal => s.initializes S k ⟨version, isMemory, journal⟩ answers
  | .initialized outcome =>
    if isMemory then s.goes k (.opened outcome) else s.configures config k outcome answers
  | .misconfigured outcome observed cause =>
    s.goes k (.failed (.schema (configurationError (config k) outcome.schemaMigrationCommitted
      observed (observedJournalMode s.wal) cause)))
  | .opened _ | .reading | .failed _ => s

/-- Only engines that are open write, so only to a database of the current schema. -/
def step (s : Openers) : OpenEvent → Openers
  | .advance k answers => s.advances S isMemory config k answers
  | .write db => if s.db.isCurrent ∧ db.isCurrent then { s with db := db } else s

end Step

end Openers

/-! ## What an initialization does -/

section Initialize

variable {S : Sqlite} {faults : Faults} {n n' : ℕ} {db db' : Database}

theorem Database.isCurrent_iff : db.isCurrent = true ↔ ∃ k, classify db = .ok (.version 6 k) := by
  unfold Database.isCurrent
  split
  · next k h => simp [h]
  · next h => simpa using fun k hk => h k hk

theorem classify_version {version : ℕ} {k : ℤ} (h : classify db = .ok (.version version k)) :
    0 ≤ db.userVersion ∧ db.userVersion ≤ 6 ∧
      version = if db.userVersion = 0 then 1 else db.userVersion.toNat := by
  unfold classify at h
  by_cases hrange : db.userVersion < 0 ∨ (currentVersion : ℤ) < db.userVersion
  · rw [if_pos hrange] at h
    exact absurd h (by simp)
  rw [if_neg hrange] at h
  by_cases hfresh : db.userVersion = 0 ∧ db.content = .fresh
  · rw [if_pos hfresh] at h
    exact absurd h (by simp)
  rw [if_neg hfresh] at h
  generalize (if db.userVersion = 0 then 1 else db.userVersion.toNat) = effective at h ⊢
  cases hvalid : db.content.validateVersion db.userVersion effective with
  | error e => exact absurd h (by simp [hvalid, Except.map])
  | ok k' =>
    simp only [hvalid, Except.map] at h
    have hversion := (SchemaState.version.inj (Except.ok.inj h)).1
    simp only [currentVersion] at hrange
    exact ⟨by omega, by omega, hversion.symm⟩

theorem Database.userVersion_of_isCurrent (h : db.isCurrent = true) : db.userVersion = 6 := by
  obtain ⟨k, hk⟩ := isCurrent_iff.mp h
  obtain ⟨hnonneg, hle, hversion⟩ := classify_version hk
  split_ifs at hversion <;> omega

/-- An initialization that succeeds found the current schema, or made it. -/
inductive Initialized (db : Database) : InitializationOutcome → Database → Prop
  | found (h : db.isCurrent = true) : Initialized db ⟨false, false⟩ db
  | made {db' : Database} (hold : db.isCurrent = false) (h : db'.isCurrent = true)
      (hmigrated : ∀ version k, classify db = .ok (.version version k) →
        ∃ store, db' = ⟨currentVersion, .v6 store⟩ ∧ Migrated version db.content store) :
      Initialized db ⟨true, decide (classify db = .ok .fresh)⟩ db'

theorem initializeSteps_cases {opening : Opening} {outcome : InitializationOutcome}
    (h : initializeSteps S faults opening db n = .ok ((outcome, db'), n')) :
    Initialized db outcome db' := by
  have hsteps := h
  unfold initializeSteps at h
  obtain ⟨_, h⟩ := step_ok h
  by_cases hcurrent : opening.preliminaryVersion = currentVersion
  · rw [if_pos hcurrent] at h
    obtain ⟨_, _, hvalidate, h⟩ := StateExcept.bind_eq_ok h
    obtain ⟨heq, -⟩ := StateExcept.pure_eq_ok h
    obtain ⟨rfl, rfl⟩ := Prod.mk.inj heq
    unfold validateCurrentReadSnapshot at hvalidate
    obtain ⟨state, _, hstate, hvalidate⟩ := sql_bind_ok hvalidate
    split at hvalidate
    · exact .found (Database.isCurrent_iff.mpr ⟨_, hstate⟩)
    · exact absurd hvalidate StateExcept.not_fail_eq_ok
  rw [if_neg hcurrent] at h
  by_cases hrange : opening.preliminaryVersion < 0 ∨ (currentVersion : ℤ) < opening.preliminaryVersion
  · rw [if_pos hrange] at h
    obtain ⟨_, h⟩ := StateExcept.then_eq_ok h
    exact absurd h StateExcept.not_fail_eq_ok
  rw [if_neg hrange] at h
  obtain ⟨_, h⟩ := StateExcept.then_eq_ok h
  obtain ⟨state, _, hstate, h⟩ := sql_bind_ok h
  obtain ⟨_, h⟩ := StateExcept.then_eq_ok h
  split at h
  · obtain ⟨_, h⟩ := StateExcept.then_eq_ok h
    obtain ⟨_, h⟩ := StateExcept.then_eq_ok h
    obtain ⟨heq, -⟩ := StateExcept.pure_eq_ok h
    obtain ⟨rfl, rfl⟩ := Prod.mk.inj heq
    exact .found (Database.isCurrent_iff.mpr ⟨_, hstate⟩)
  next hnot =>
  have hold : db.isCurrent = false := by
    by_contra hcur
    obtain ⟨k, hk⟩ := Database.isCurrent_iff.mp (by simpa using hcur)
    exact hnot k (Except.ok.inj (hstate.symm.trans hk))
  obtain ⟨snapshot, _, -, h⟩ := StateExcept.bind_eq_ok h
  obtain ⟨store, _, hmigrate, h⟩ := StateExcept.bind_eq_ok h
  obtain ⟨migrated, _, hmigrated, h⟩ := sql_bind_ok h
  obtain ⟨_, h⟩ := StateExcept.then_eq_ok h
  obtain ⟨_, h⟩ := StateExcept.then_eq_ok h
  obtain ⟨_, _, hfinal, h⟩ := StateExcept.bind_eq_ok h
  obtain ⟨_, h⟩ := StateExcept.then_eq_ok h
  obtain ⟨_, h⟩ := StateExcept.then_eq_ok h
  obtain ⟨_, h⟩ := StateExcept.then_eq_ok h
  obtain ⟨heq, -⟩ := StateExcept.pure_eq_ok h
  obtain ⟨rfl, rfl⟩ := Prod.mk.inj heq
  obtain rfl := Except.ok.inj hmigrated
  have hfresh : decide (state = .fresh) = decide (classify db = .ok .fresh) := by
    rw [hstate]
    simp
  rw [hfresh]
  refine .made hold ?_ fun version k hclass => ?_
  · unfold validateFinalPostconditions at hfinal
    obtain ⟨state, _, hstate, hfinal⟩ := sql_bind_ok hfinal
    split at hfinal
    · exact Database.isCurrent_iff.mpr ⟨_, hstate⟩
    · exact absurd hfinal StateExcept.not_fail_eq_ok
  · have hversion : version < 6 := by
      obtain ⟨hnonneg, hle, rfl⟩ := classify_version hclass
      by_contra hge
      have hsix : db.userVersion = 6 := by split_ifs at hge <;> omega
      rw [if_neg (by omega), hsix] at hclass
      exact absurd (Database.isCurrent_iff.mpr ⟨k, hclass⟩) (by simp [hold])
    obtain ⟨store', hstore', hmig, -⟩ := initializeSteps_ok hversion hclass hsteps
    exact ⟨store', hstore', hmig⟩

/-- An initialization leaves the database as it was with an error, or succeeds. -/
theorem initializeWithHook_cases (S : Sqlite) (faults : Faults) (opening : Opening) (db : Database) :
    (∃ e, initializeWithHook S faults opening db = (.error e, db)) ∨
      ∃ outcome db', initializeWithHook S faults opening db = (.ok outcome, db') ∧
        Initialized db outcome db' := by
  unfold initializeWithHook
  cases hsteps : initializeSteps S faults opening db 0 with
  | error e => exact Or.inl ⟨e, rfl⟩
  | ok result =>
    obtain ⟨⟨outcome, db'⟩, k⟩ := result
    exact Or.inr ⟨outcome, db', rfl, initializeSteps_cases hsteps⟩

/-- The journal of a file that has to be migrated can roll back. -/
def Opening.Usable (opening : Opening) : Prop :=
  opening.isMemory = false → 0 ≤ opening.preliminaryVersion → opening.preliminaryVersion < 6 →
    opening.journal ∈ ["delete", "truncate", "persist", "wal"]

theorem prepareFileMigration_quiet {opening : Opening} (h : opening.Usable)
    (hnonneg : 0 ≤ opening.preliminaryVersion) (hlt : opening.preliminaryVersion < 6) :
    prepareFileMigration .quiet opening n =
      .ok ((), if opening.isMemory then n else n + 1 + 1) := by
  unfold prepareFileMigration
  cases hmemory : opening.isMemory with
  | true => rfl
  | false =>
    rw [if_pos (h hmemory hnonneg hlt)]
    rfl

/-- Which usable journal an initialization finds makes no difference. -/
theorem initializeWithHook_journal (S : Sqlite) {version : ℤ} {isMemory : Bool} {journal journal' : String}
    (h : Opening.Usable ⟨version, isMemory, journal⟩) (h' : Opening.Usable ⟨version, isMemory, journal'⟩)
    (db : Database) :
    initializeWithHook S .quiet ⟨version, isMemory, journal⟩ db =
      initializeWithHook S .quiet ⟨version, isMemory, journal'⟩ db := by
  have hsteps : initializeSteps S .quiet ⟨version, isMemory, journal⟩ db =
      initializeSteps S .quiet ⟨version, isMemory, journal'⟩ db := by
    unfold initializeSteps
    dsimp only
    by_cases hcurrent : version = currentVersion
    · rw [if_pos hcurrent, if_pos hcurrent]
    rw [if_neg hcurrent, if_neg hcurrent]
    by_cases hrange : version < 0 ∨ (currentVersion : ℤ) < version
    · rw [if_pos hrange, if_pos hrange]
    rw [if_neg hrange, if_neg hrange]
    have hprepare : prepareFileMigration .quiet ⟨version, isMemory, journal⟩ =
        prepareFileMigration .quiet ⟨version, isMemory, journal'⟩ := by
      funext n
      simp only [currentVersion] at hcurrent hrange
      have hnonneg : 0 ≤ version := by omega
      have hlt : version < 6 := by omega
      exact (prepareFileMigration_quiet h hnonneg hlt).trans
        (prepareFileMigration_quiet h' hnonneg hlt).symm
    rw [hprepare]
  unfold initializeWithHook
  rw [hsteps]

/-- When nothing fails from outside, an opener that meets the current schema accepts it, whichever
version it read before. -/
theorem initializeWithHook_of_isCurrent (S : Sqlite) {opening : Opening} (husable : opening.Usable)
    (hnonneg : 0 ≤ opening.preliminaryVersion) (hle : opening.preliminaryVersion ≤ 6)
    (h : db.isCurrent = true) : initializeWithHook S .quiet opening db = (.ok ⟨false, false⟩, db) := by
  obtain ⟨k, hclass⟩ := Database.isCurrent_iff.mp h
  have hsteps : ∃ n', initializeSteps S .quiet opening db 0 = .ok ((⟨false, false⟩, db), n') := by
    unfold initializeSteps
    rw [StateExcept.bind_of_ok (sql_quiet rfl), StateExcept.bind_of_ok (hook_quiet _)]
    by_cases hcurrent : opening.preliminaryVersion = currentVersion
    · rw [if_pos hcurrent]
      unfold validateCurrentReadSnapshot
      exact ⟨_, StateExcept.bind_of_ok (StateExcept.bind_of_ok (sql_quiet hclass))⟩
    rw [if_neg hcurrent]
    simp only [currentVersion] at hcurrent
    have hlt : opening.preliminaryVersion < 6 := by omega
    rw [if_neg (by simp only [currentVersion]; omega),
      StateExcept.bind_of_ok (prepareFileMigration_quiet husable hnonneg hlt),
      StateExcept.bind_of_ok (sql_quiet hclass), StateExcept.bind_of_ok (hook_quiet _)]
    exact ⟨_, rfl⟩
  obtain ⟨n', hsteps⟩ := hsteps
  unfold initializeWithHook
  rw [hsteps]

end Initialize

/-! ## What a step does -/

namespace Openers

variable {S : Sqlite} {isMemory : Bool} {config : ℕ → StoreConfig} {s s' : Openers} {k : ℕ}
  {db₀ : Database} {wal₀ : Bool}

/-- The state after some run of the openers. -/
def Reached (S : Sqlite) (isMemory : Bool) (config : ℕ → StoreConfig) (db₀ : Database) (wal₀ : Bool)
    (s : Openers) : Prop := ∃ events, runFrom (step S isMemory config) (init db₀ wal₀) events = s

@[simp] theorem phase_goes_self (s : Openers) (k : ℕ) (phase : OpenPhase) :
    (s.goes k phase).phase k = phase := Function.update_self _ _ _

@[simp] theorem phase_goes_of_ne {j : ℕ} (hne : j ≠ k) (s : Openers) (phase : OpenPhase) :
    (s.goes k phase).phase j = s.phase j := Function.update_of_ne hne _ _

/-- An opener's transaction starts, with what it read before. -/
def Starts (isMemory : Bool) (s : Openers) (k : ℕ) (opening : Opening) : Prop :=
  opening.isMemory = isMemory ∧
    (s.phase k = .preliminary opening.preliminaryVersion ∧
        ¬(isMemory = false ∧ 0 ≤ opening.preliminaryVersion ∧
          opening.preliminaryVersion < currentVersion) ∨
      s.phase k = .prepared opening.preliminaryVersion opening.journal)

/-- What a step does to the state. -/
inductive Did (S : Sqlite) (isMemory : Bool) (config : ℕ → StoreConfig) (s : Openers) :
    OpenEvent → Openers → Prop
  | stays (ev : OpenEvent) (h : ∀ k answers, ev = .advance k answers →
      (∃ outcome, s.phase k = .opened outcome) ∨ s.phase k = .reading ∨ ∃ e, s.phase k = .failed e) :
      Did S isMemory config s ev s
  | writes {db : Database} (h : s.db.isCurrent = true) (hdb : db.isCurrent = true) :
      Did S isMemory config s (.write db) { s with db := db }
  | reads {k : ℕ} (answers : OpenAnswers) (hphase : s.phase k = .closed)
      (hro : (config k).readOnly = true) {phase : OpenPhase}
      (hnew : phase = .reading ∧ s.db.isCurrent = true ∨ ∃ e, phase = .failed e) :
      Did S isMemory config s (.advance k answers) (s.goes k phase)
  | looks {k : ℕ} (answers : OpenAnswers) (hphase : s.phase k = .closed)
      (hro : (config k).readOnly = false) :
      Did S isMemory config s (.advance k answers) (s.goes k (.preliminary s.db.userVersion))
  | prepares {k : ℕ} (answers : OpenAnswers) {version : ℤ} (hphase : s.phase k = .preliminary version)
      (hfile : isMemory = false) (hnonneg : 0 ≤ version) (hlt : version < currentVersion) :
      Did S isMemory config s (.advance k answers)
        (s.goes k (.prepared version (observedJournalMode s.wal)))
  | fails {k : ℕ} (answers : OpenAnswers) {opening : Opening} (hstarts : Starts isMemory s k opening)
      {e : SchemaError} (h : initializeWithHook S answers.faults opening s.db = (.error e, s.db)) :
      Did S isMemory config s (.advance k answers) (s.goes k (.failed (.schema e)))
  | finds {k : ℕ} (answers : OpenAnswers) {opening : Opening} (hstarts : Starts isMemory s k opening)
      (h : s.db.isCurrent = true) :
      Did S isMemory config s (.advance k answers) (s.goes k (.initialized ⟨false, false⟩))
  | makes {k : ℕ} (answers : OpenAnswers) {opening : Opening} (hstarts : Starts isMemory s k opening)
      {db : Database} (hold : s.db.isCurrent = false) (h : db.isCurrent = true)
      (hmigrated : ∀ version k, classify s.db = .ok (.version version k) →
        ∃ store, db = ⟨currentVersion, .v6 store⟩ ∧ Migrated version s.db.content store) :
      Did S isMemory config s (.advance k answers)
        { s.goes k (.initialized ⟨true, decide (classify s.db = .ok .fresh)⟩) with
          db := db
          migrations := s.migrations ++ [(k, s.db, db)] }
  | opens {k : ℕ} (answers : OpenAnswers) {outcome : InitializationOutcome}
      (hphase : s.phase k = .initialized outcome)
      (hjournal : isMemory = false →
        ∀ mode, journalToApply (config k).journalMode outcome.databaseCreated = some mode →
          observedJournalMode s.wal = journalName mode) :
      Did S isMemory config s (.advance k answers) (s.goes k (.opened outcome))
  | sets {k : ℕ} (answers : OpenAnswers) {outcome : InitializationOutcome} {mode : JournalMode}
      (hphase : s.phase k = .initialized outcome)
      (hmode : journalToApply (config k).journalMode outcome.databaseCreated = some mode) :
      Did S isMemory config s (.advance k answers)
        { s.goes k (.opened outcome) with wal := decide (mode = .wal) }
  | misses {k : ℕ} {answers : OpenAnswers} {outcome : InitializationOutcome} (observed cause : String)
      (hphase : s.phase k = .initialized outcome) (hrefused : answers ≠ .quiet) :
      Did S isMemory config s (.advance k answers) (s.goes k (.misconfigured outcome observed cause))
  | reports {k : ℕ} (answers : OpenAnswers) {outcome : InitializationOutcome} {observed cause : String}
      (hphase : s.phase k = .misconfigured outcome observed cause) :
      Did S isMemory config s (.advance k answers)
        (s.goes k (.failed (.schema (configurationError (config k) outcome.schemaMigrationCommitted
          observed (observedJournalMode s.wal) cause))))

theorem isCurrent_of_validateReadOnly {faults : Faults} {db : Database} {n n' : ℕ}
    (h : validateReadOnly faults db n = .ok (true, n')) : db.isCurrent = true := by
  unfold validateReadOnly at h
  obtain ⟨_, h⟩ := StateExcept.then_eq_ok h
  obtain ⟨_, h⟩ := StateExcept.then_eq_ok h
  obtain ⟨state, _, hstate, h⟩ := sql_bind_ok h
  split at h
  · exact Database.isCurrent_iff.mpr ⟨_, hstate⟩
  · exact absurd (StateExcept.pure_eq_ok h).1 (by simp)

theorem did_initializes {opening : Opening} (answers : OpenAnswers) (hstarts : Starts isMemory s k opening) :
    Did S isMemory config s (.advance k answers) (s.initializes S k opening answers) := by
  unfold initializes
  rcases initializeWithHook_cases S answers.faults opening s.db with ⟨e, h⟩ | ⟨outcome, db, h, hinit⟩
  · rw [h]
    exact .fails answers hstarts h
  · rw [h]
    cases hinit with
    | found hcur => exact .finds answers hstarts hcur
    | made hold hcur hmigrated => exact .makes answers hstarts hold hcur hmigrated

theorem did_configures {outcome : InitializationOutcome} (answers : OpenAnswers)
    (hphase : s.phase k = .initialized outcome) :
    Did S isMemory config s (.advance k answers) (s.configures config k outcome answers) := by
  unfold configures
  dsimp only
  cases hset : answers.setSynchronous with
  | some cause => exact .misses _ _ hphase fun h => by simp [h, OpenAnswers.quiet] at hset
  | none =>
    dsimp only
    by_cases hobserved : answers.observedSynchronous (config k).synchronous ≠
        synchronousName (config k).synchronous
    · rw [if_pos hobserved]
      exact .misses _ _ hphase fun h => hobserved (by rw [h]; rfl)
    rw [if_neg hobserved]
    cases hmode : journalToApply (config k).journalMode outcome.databaseCreated with
    | none => exact .opens _ hphase fun _ mode hsome => absurd (hmode.symm.trans hsome) (by simp)
    | some mode =>
      dsimp only
      unfold setsJournal
      cases hjournal : answers.setJournalMode with
      | some cause => exact .misses _ _ hphase fun h => by simp [h, OpenAnswers.quiet] at hjournal
      | none =>
        dsimp only
        by_cases hgranted : answers.journalGranted = true
        · rw [if_pos hgranted]
          exact .sets _ hphase hmode
        · rw [if_neg hgranted]
          split_ifs with hname
          · refine .opens _ hphase fun _ mode' hsome => ?_
            obtain rfl := Option.some.inj (hmode.symm.trans hsome)
            exact hname
          · exact .misses _ _ hphase fun h => hgranted (by rw [h]; rfl)

theorem did_step (s : Openers) (ev : OpenEvent) : Did S isMemory config s ev (s.step S isMemory config ev) := by
  cases ev with
  | write db =>
    rw [step]
    split_ifs with h
    · exact .writes h.1 h.2
    · exact .stays _ nofun
  | advance k answers =>
    rw [step, advances]
    cases hphase : s.phase k with
    | closed =>
      dsimp only
      unfold begins
      cases hro : (config k).readOnly with
      | false => exact .looks answers hphase hro
      | true =>
        rw [if_pos rfl]
        cases hvalidate : validateReadOnly answers.faults s.db 0 with
        | error e => exact .reads answers hphase hro (Or.inr ⟨_, rfl⟩)
        | ok result =>
          obtain ⟨current, n⟩ := result
          cases current with
          | true => exact .reads answers hphase hro (Or.inl ⟨rfl, isCurrent_of_validateReadOnly hvalidate⟩)
          | false => exact .reads answers hphase hro (Or.inr ⟨_, rfl⟩)
    | preliminary version =>
      dsimp only
      split_ifs with h
      · exact .prepares answers hphase h.1 h.2.1 h.2.2
      · exact did_initializes answers ⟨rfl, Or.inl ⟨hphase, h⟩⟩
    | prepared version journal => exact did_initializes answers ⟨rfl, Or.inr hphase⟩
    | initialized outcome =>
      dsimp only
      split_ifs with hmemory
      · exact .opens answers hphase fun h => absurd hmemory (by simp [h])
      · exact did_configures answers hphase
    | misconfigured outcome observed cause => exact .reports answers hphase
    | opened outcome =>
      refine .stays _ fun k' _ hev => ?_
      obtain ⟨rfl, -⟩ := OpenEvent.advance.inj hev
      exact Or.inl ⟨outcome, hphase⟩
    | reading =>
      refine .stays _ fun k' _ hev => ?_
      obtain ⟨rfl, -⟩ := OpenEvent.advance.inj hev
      exact Or.inr (Or.inl hphase)
    | failed e =>
      refine .stays _ fun k' _ hev => ?_
      obtain ⟨rfl, -⟩ := OpenEvent.advance.inj hev
      exact Or.inr (Or.inr ⟨e, hphase⟩)

/-! ## One migration -/

/-- The outcome of an opener is the truth : the schema is current, and the opener migrated or
created it if it says so. -/
structure Fits (db₀ : Database) (s : Openers) (k : ℕ) (outcome : InitializationOutcome) : Prop where
  current : s.db.isCurrent = true
  committed : outcome.schemaMigrationCommitted = true ↔ k ∈ s.migrations.map Prod.fst
  created : outcome.databaseCreated = true ↔
    outcome.schemaMigrationCommitted = true ∧ classify db₀ = .ok .fresh

/-- An opener in this phase tells that it committed a migration. -/
def Tells (config : StoreConfig) : OpenPhase → Prop
  | .initialized outcome | .misconfigured outcome _ _ | .opened outcome =>
    outcome.schemaMigrationCommitted = true
  | .failed e => ∃ observed journal cause,
    e = .schema (configurationError config true observed journal cause)
  | _ => False

/-- What the first opener that migrates makes of the database. -/
structure Makes (db₀ after : Database) : Prop where
  old : db₀.isCurrent = false
  current : after.isCurrent = true
  migrated : ∀ version k, classify db₀ = .ok (.version version k) →
    ∃ store, after = ⟨currentVersion, .v6 store⟩ ∧ Migrated version db₀.content store

/-- The database is the first one, or of the current schema, and then migrated at most once. -/
structure Sound (config : ℕ → StoreConfig) (db₀ : Database) (s : Openers) : Prop where
  once : s.migrations = [] ∧ (s.db = db₀ ∨ db₀.isCurrent = true ∧ s.db.isCurrent = true) ∨
    ∃ k after, s.migrations = [(k, db₀, after)] ∧ Makes db₀ after ∧ s.db.isCurrent = true
  fits : ∀ k outcome, (s.phase k).outcome? = some outcome → Fits db₀ s k outcome
  tells : ∀ k ∈ s.migrations.map Prod.fst, Tells (config k) (s.phase k)

theorem sound_init (config : ℕ → StoreConfig) (db₀ : Database) (wal₀ : Bool) :
    Sound config db₀ (init db₀ wal₀) :=
  ⟨Or.inl ⟨rfl, Or.inl rfl⟩, fun _ _ h => by simp [init, OpenPhase.outcome?] at h, by simp [init]⟩

/-- A step of one opener that changes neither the database nor the migrations. -/
theorem Sound.goes (hs : Sound config db₀ s) {phase : OpenPhase}
    (hfits : ∀ outcome, phase.outcome? = some outcome → Fits db₀ s k outcome)
    (htells : k ∈ s.migrations.map Prod.fst → Tells (config k) phase) :
    Sound config db₀ (s.goes k phase) := by
  refine ⟨hs.once, fun j outcome hj => ?_, fun j hj => ?_⟩
  · by_cases hjk : j = k
    · subst hjk
      rw [phase_goes_self] at hj
      exact ⟨(hfits outcome hj).current, (hfits outcome hj).committed, (hfits outcome hj).created⟩
    · rw [phase_goes_of_ne hjk] at hj
      have hold := hs.fits j outcome hj
      exact ⟨hold.current, hold.committed, hold.created⟩
  · by_cases hjk : j = k
    · subst hjk
      rw [phase_goes_self]
      exact htells hj
    · rw [phase_goes_of_ne hjk]
      exact hs.tells j hj

/-- An opener whose transaction has not started migrated nothing. -/
theorem Sound.notMem_of_starts (hs : Sound config db₀ s) {opening : Opening}
    (hstarts : Starts isMemory s k opening) : k ∉ s.migrations.map Prod.fst := by
  intro hk
  have htells := hs.tells k hk
  rcases hstarts.2 with ⟨hphase, -⟩ | hphase <;> exact absurd htells (by simp [hphase, Tells])

/-- The transaction that creates or migrates the schema is the first that changes the database. -/
theorem Sound.makes (hs : Sound config db₀ s) {db : Database} (hold : s.db.isCurrent = false)
    (h : db.isCurrent = true)
    (hmigrated : ∀ version k, classify s.db = .ok (.version version k) →
      ∃ store, db = ⟨currentVersion, .v6 store⟩ ∧ Migrated version s.db.content store) :
    Sound config db₀ { s.goes k (.initialized ⟨true, decide (classify s.db = .ok .fresh)⟩) with
      db := db
      migrations := s.migrations ++ [(k, s.db, db)] } := by
  have hfirst : s.migrations = [] ∧ s.db = db₀ := by
    rcases hs.once with ⟨hnone, hsame | ⟨-, hcur⟩⟩ | ⟨_, _, -, -, hcur⟩
    · exact ⟨hnone, hsame⟩
    · exact absurd hcur (by simp [hold])
    · exact absurd hcur (by simp [hold])
  obtain ⟨hnone, rfl⟩ := hfirst
  refine ⟨Or.inr ⟨k, db, by rw [hnone]; rfl, ⟨hold, h, hmigrated⟩, h⟩, fun j outcome hj => ?_,
    fun j hj => ?_⟩
  · by_cases hjk : j = k
    · subst hjk
      rw [phase_goes_self] at hj
      obtain rfl := Option.some.inj hj
      exact ⟨h, by simp, by simp⟩
    · -- no other opener has an outcome before the schema is current
      rw [phase_goes_of_ne hjk] at hj
      exact absurd (hs.fits j outcome hj).current (by simp [hold])
  · obtain rfl : j = k := by simpa [hnone] using hj
    rw [phase_goes_self]
    rfl

theorem Sound.did (hs : Sound config db₀ s) {ev : OpenEvent} (h : Did S isMemory config s ev s') :
    Sound config db₀ s' := by
  cases h with
  | stays _ _ => exact hs
  | writes hcur hdb =>
    refine ⟨?_, fun k outcome hk => ⟨hdb, (hs.fits k outcome hk).committed, (hs.fits k outcome hk).created⟩,
      hs.tells⟩
    rcases hs.once with ⟨hnone, hsame | ⟨hcur₀, -⟩⟩ | ⟨k, after, hone, hmakes, -⟩
    · exact Or.inl ⟨hnone, Or.inr ⟨hsame ▸ hcur, hdb⟩⟩
    · exact Or.inl ⟨hnone, Or.inr ⟨hcur₀, hdb⟩⟩
    · exact Or.inr ⟨k, after, hone, hmakes, hdb⟩
  | reads answers hphase hro hnew =>
    refine hs.goes ?_ fun hk => absurd (hs.tells _ hk) (by simp [hphase, Tells])
    rcases hnew with ⟨rfl, -⟩ | ⟨e, rfl⟩ <;> simp [OpenPhase.outcome?]
  | looks answers hphase hro =>
    exact hs.goes (by simp [OpenPhase.outcome?]) fun hk =>
      absurd (hs.tells _ hk) (by simp [hphase, Tells])
  | prepares answers hphase hfile hnonneg hlt =>
    exact hs.goes (by simp [OpenPhase.outcome?]) fun hk =>
      absurd (hs.tells _ hk) (by simp [hphase, Tells])
  | fails answers hstarts h =>
    exact hs.goes (by simp [OpenPhase.outcome?]) fun hk => absurd hk (hs.notMem_of_starts hstarts)
  | finds answers hstarts h =>
    have hk := hs.notMem_of_starts hstarts
    refine hs.goes (fun outcome houtcome => ?_) fun hmem => absurd hmem hk
    obtain rfl := Option.some.inj houtcome
    exact ⟨h, by simpa using hk, by simp⟩
  | makes answers hstarts hold h hmigrated => exact hs.makes hold h hmigrated
  | opens answers hphase hjournal =>
    refine hs.goes (fun outcome houtcome => hs.fits _ _ (by rw [hphase]; exact houtcome)) fun hk => ?_
    simpa [hphase, Tells] using hs.tells _ hk
  | @sets k answers outcome mode hphase hmode =>
    have hgoes : Sound config db₀ (s.goes k (.opened outcome)) :=
      hs.goes (fun outcome houtcome => hs.fits _ _ (by rw [hphase]; exact houtcome))
        fun hk => by simpa [hphase, Tells] using hs.tells _ hk
    exact ⟨hgoes.once, fun j outcome hj => ⟨(hgoes.fits j outcome hj).current,
      (hgoes.fits j outcome hj).committed, (hgoes.fits j outcome hj).created⟩, hgoes.tells⟩
  | misses observed cause hphase hrefused =>
    refine hs.goes (fun outcome houtcome => hs.fits _ _ (by rw [hphase]; exact houtcome)) fun hk => ?_
    simpa [hphase, Tells] using hs.tells _ hk
  | reports answers hphase =>
    refine hs.goes (by simp [OpenPhase.outcome?]) fun hk => ?_
    have htells := hs.tells _ hk
    rw [hphase] at htells
    exact ⟨_, _, _, by rw [show _ = true from htells]⟩

theorem Reached.sound (hs : Reached S isMemory config db₀ wal₀ s) : Sound config db₀ s := by
  obtain ⟨events, rfl⟩ := hs
  exact runFrom_induction (fun s ev hs => hs.did (did_step s ev)) events (sound_init config db₀ wal₀)

/-- However the steps of the openers interleave, the schema is created or migrated at most once,
from the first database. Until then that database is as it was, and an opener that has its outcome
has it for the current schema, and tells that it migrated only if it did. -/
theorem migrates_of_run (hs : Reached S isMemory config db₀ wal₀ s) :
    s.migrations.length ≤ 1 ∧
      (s.migrations = [] → s.db = db₀ ∨ db₀.isCurrent = true ∧ s.db.isCurrent = true) ∧
      (∀ k before after, (k, before, after) ∈ s.migrations →
        before = db₀ ∧ Makes db₀ after ∧ s.db.isCurrent = true) ∧
      ∀ k outcome, (s.phase k).outcome? = some outcome → s.db.isCurrent = true ∧
        (outcome.schemaMigrationCommitted = true ↔ ∃ before after, (k, before, after) ∈ s.migrations) ∧
        (outcome.databaseCreated = true ↔
          outcome.schemaMigrationCommitted = true ∧ classify db₀ = .ok .fresh) := by
  have hsound := hs.sound
  refine ⟨?_, fun hnone => ?_, fun k before after hmem => ?_, fun k outcome houtcome => ?_⟩
  · rcases hsound.once with ⟨hnone, -⟩ | ⟨k, after, hone, -⟩
    · simp [hnone]
    · simp [hone]
  · rcases hsound.once with ⟨-, h⟩ | ⟨k, after, hone, -⟩
    · exact h
    · simp [hone] at hnone
  · rcases hsound.once with ⟨hnone, -⟩ | ⟨k', after', hone, hmakes, hcur⟩
    · simp [hnone] at hmem
    · rw [hone, List.mem_singleton] at hmem
      obtain ⟨rfl, hrest⟩ := Prod.mk.inj hmem
      obtain ⟨rfl, rfl⟩ := Prod.mk.inj hrest
      exact ⟨rfl, hmakes, hcur⟩
  · have hfits := hsound.fits k outcome houtcome
    refine ⟨hfits.current, hfits.committed.trans ?_, hfits.created⟩
    simp

/-- Two engines that leave the journal mode to the database, and readers. -/
def twoWriters (k : ℕ) : StoreConfig := ⟨decide (2 ≤ k), .preserve, .normal⟩

/-- Both read the old version; the first migrates, and the second finds what it made. -/
def race : List OpenEvent :=
  [.advance 0 .quiet, .advance 1 .quiet, .advance 1 .quiet, .advance 0 .quiet, .advance 0 .quiet,
    .advance 1 .quiet, .advance 1 .quiet, .advance 0 .quiet]

theorem migrates_of_run_race :
    let s := runFrom (step .exact false twoWriters) (init oldDatabase false) race
    s.phase 0 = .opened ⟨true, false⟩ ∧ s.phase 1 = .opened ⟨false, false⟩ ∧ s.migrations.length ≤ 1 :=
  ⟨by decide +kernel, by decide +kernel, (migrates_of_run ⟨race, rfl⟩).1⟩

/-- An opener that committed a migration and failed says in its error that it is committed. -/
theorem failed_of_run (hs : Reached S isMemory config db₀ wal₀ s) {before after : Database}
    (hmigrated : (k, before, after) ∈ s.migrations) {e : OpenError} (hfailed : s.phase k = .failed e) :
    s.db.isCurrent = true ∧ ∃ observed journal cause,
      e = .schema (configurationError (config k) true observed journal cause) := by
  have hsound := hs.sound
  refine ⟨?_, ?_⟩
  · rcases hsound.once with ⟨hnone, -⟩ | ⟨_, _, -, -, hcur⟩
    · simp [hnone] at hmigrated
    · exact hcur
  · have htells := hsound.tells k (List.mem_map.mpr ⟨_, hmigrated, rfl⟩)
    rwa [hfailed] at htells

/-- The opener that migrated cannot set its synchronous mode. -/
def unconfigured : List OpenEvent :=
  [.advance 0 .quiet, .advance 0 .quiet, .advance 0 .quiet,
    .advance 0 { OpenAnswers.quiet with setSynchronous := some "disk I/O error" }, .advance 0 .quiet]

theorem failed_of_run_unconfigured :
    let s := runFrom (step .exact false twoWriters) (init oldDatabase false) unconfigured
    ∃ e, s.phase 0 = .failed e ∧ ∃ observed journal cause,
      e = .schema (configurationError (twoWriters 0) true observed journal cause) := by
  intro s
  have hfailed : s.phase 0 = .failed (.schema (configurationError (twoWriters 0) true "normal" "delete"
      "disk I/O error")) := by decide +kernel
  have hmigrations : s.migrations.map Prod.fst = [0] := by decide +kernel
  obtain ⟨⟨k, before, after⟩, hmem, hk⟩ := List.mem_map.mp (by simp [hmigrations] : 0 ∈ s.migrations.map Prod.fst)
  obtain rfl : k = 0 := hk
  exact ⟨_, hfailed, (failed_of_run ⟨unconfigured, rfl⟩ hmem hfailed).2⟩

end Openers

end LocalCache
